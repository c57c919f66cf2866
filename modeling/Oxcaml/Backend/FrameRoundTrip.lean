/-
Oxcaml.Backend.FrameRoundTrip — the runtime reads the frame descriptors that the compiler
has emitted.

§1 says what an assembler makes of the directives: the labels have addresses, and a delta
may be padded. `Writes` says that a memory holds, between two addresses, what an emission
gives. §2 to §5 follow an emission from its start to its end and say what the runtime
reads there, for the parts of a descriptor and for the escaped and the short forms. §6 is
the step for one descriptor, and the run over a whole table.
-/
import Oxcaml.Backend.Emitaux
import Oxcaml.Runtime.FrameDecoding

set_option linter.all false

namespace Oxcaml.Backend.FrameRoundTrip

open List (length_cons mem_cons mem_map)
open Bool (false_eq_true)

open Lib.Bytes Lib Emitaux Runtime.FrameDecoding

variable {δ : Type}

/-! ## §1 Assembly -/

section Assembly

variable (addr : Label δ → ℕ)

/-- The bytes of a directive at an address. -/
inductive Assembled (here : ℕ) : Directive δ → List UInt8 → Prop
  | u8 (n : ℕ) : Assembled here (.u8 n) (leBytes 1 n)
  | u16 (n : ℕ) : Assembled here (.u16 n) (leBytes 2 n)
  | u32 (n : ℕ) : Assembled here (.u32 n) (leBytes 4 n)
  | i32 (n : ℤ) : Assembled here (.i32 n) (leBytes 4 (n % 2 ^ 32).toNat)
  | word (n : ℤ) : Assembled here (.word n) (leBytes 8 (n % 2 ^ 64).toNat)
  | labelRel (lbl : Label δ) (ofs : ℤ) :
      -2 ^ 31 ≤ addr lbl - here + ofs → addr lbl - here + ofs < 2 ^ 31 →
      Assembled here (.labelRel lbl ofs) (leBytes 4 ((addr lbl - here + ofs) % 2 ^ 32).toNat)
  | labelDelta (upper lower n : ℕ) (bytes : List UInt8) :
      addr (.code lower) + n = addr (.code upper) → Uleb128 n bytes → bytes.length ≤ 10 →
      Assembled here (.labelDelta upper lower) bytes

inductive Assembles : ℕ → Block δ → List UInt8 → Prop
  | nil (here : ℕ) : Assembles here [] []
  | cons {here : ℕ} {directive : Directive δ} {bytes : List UInt8} {block : Block δ}
      {rest : List UInt8} :
      Assembled addr here directive bytes → Assembles (here + bytes.length) block rest →
      Assembles here (directive :: block) (bytes ++ rest)

variable (mem : Memory)

/-- The memory holds the directives from `p` to `q`. -/
def Emitted (p : ℕ) (block : Block δ) (q : ℕ) : Prop :=
  ∃ bytes, Assembles addr p block bytes ∧ Holds mem p bytes ∧ q = p + bytes.length

/-- The memory holds what the emission gives. -/
def Writes (p : ℕ) (emission : Except Error (Block δ)) (q : ℕ) : Prop :=
  ∃ block, emission = .ok block ∧ Emitted addr mem p block q

end Assembly

variable {addr : Label δ → ℕ} {mem : Memory} {p q r : ℕ} {block block' : Block δ}
  {directive : Directive δ}

theorem emitted_nil : Emitted addr mem p [] q ↔ q = p := by
  constructor
  · intro h
    obtain ⟨bytes, hasm, -, hq⟩ := h
    cases hasm
    simpa using hq
  · intro h; exact ⟨[], .nil p, holds_nil, by simpa using h⟩

theorem emitted_cons : Emitted addr mem p (directive :: block) r ↔
    ∃ bytes, Assembled addr p directive bytes ∧ Holds mem p bytes ∧
      Emitted addr mem (p + bytes.length) block r := by
  constructor
  · intro h
    obtain ⟨bytes, hasm, hmem, hr⟩ := h
    cases hasm with
    | @cons _ _ bytes _ rest hd hrest =>
      obtain ⟨hfirst, hlast⟩ := holds_append.1 hmem
      refine ⟨bytes, hd, hfirst, rest, hrest, hlast, ?_⟩
      rw [hr, List.length_append, Nat.add_assoc]
  intro h
  obtain ⟨bytes, hd, hfirst, rest, hrest, hlast, hr⟩ := h
  refine ⟨bytes ++ rest, .cons hd hrest, holds_append.2 ⟨hfirst, hlast⟩, ?_⟩
  rw [hr, List.length_append, Nat.add_assoc]

theorem emitted_append : Emitted addr mem p (block ++ block') r ↔
    ∃ q, Emitted addr mem p block q ∧ Emitted addr mem q block' r := by
  induction block generalizing p with
  | nil => simp [emitted_nil]
  | cons directive block ih =>
    rw [List.cons_append]
    simp only [ih, emitted_cons]
    constructor
    · intro h
      obtain ⟨bytes, hd, hfirst, q, hblock, hrest⟩ := h
      exact ⟨q, ⟨bytes, hd, hfirst, hblock⟩, hrest⟩
    intro h
    obtain ⟨q, ⟨bytes, hd, hfirst, hblock⟩, hrest⟩ := h
    exact ⟨bytes, hd, hfirst, q, hblock, hrest⟩

theorem emitted_singleton : Emitted addr mem p [directive] q ↔
    ∃ bytes, Assembled addr p directive bytes ∧ Holds mem p bytes ∧ q = p + bytes.length := by
  simp only [emitted_cons, emitted_nil]

theorem writes_pure : Writes addr mem p (pure block) q ↔ Emitted addr mem p block q := by
  unfold Writes
  simp [pure, Except.pure]

variable {α : Type}

/-- One emission after another. -/
theorem writes_iter_cons {emit : α → Except Error (Block δ)} {x : α} {l : List α} :
    Writes addr mem p (emitIter emit (x :: l)) r ↔
      ∃ q, Writes addr mem p (emit x) q ∧ Writes addr mem q (emitIter emit l) r := by
  constructor
  · intro h
    obtain ⟨block, hok, hblock⟩ := h
    obtain ⟨a, ha, hok⟩ := bind_eq_ok.1 hok
    obtain ⟨b, hb, hok⟩ := bind_eq_ok.1 hok
    obtain rfl : a ++ b = block := by simpa [pure, Except.pure] using hok
    obtain ⟨q, h1, h2⟩ := emitted_append.1 hblock
    exact ⟨q, ⟨a, ha, h1⟩, b, hb, h2⟩
  intro h
  obtain ⟨q, ⟨a, ha, h1⟩, b, hb, h2⟩ := h
  refine ⟨a ++ b, ?_, emitted_append.2 ⟨q, h1, h2⟩⟩
  rw [emitIter, ha, hb]
  rfl

theorem writes_iter_nil {emit : α → Except Error (Block δ)} :
    Writes addr mem p (emitIter emit []) q ↔ q = p := by
  unfold emitIter
  rw [writes_pure, emitted_nil]

theorem writes_seq_cons {x : Except Error (Block δ)} {l : List (Except Error (Block δ))} :
    Writes addr mem p (emitSeq (x :: l)) r ↔
      ∃ q, Writes addr mem p x q ∧ Writes addr mem q (emitSeq l) r := writes_iter_cons

theorem writes_seq_nil : Writes addr mem p (emitSeq []) q ↔ q = p := writes_iter_nil

/-! ## §2 Numbers -/

variable {n : ℤ}

/-- A number in range is emitted, and read. -/
theorem writes_unsigned {limit : ℤ} {width : ℕ} {make : ℕ → Directive δ}
    (hmake : ∀ m bytes here, Assembled addr here (make m) bytes → bytes = leBytes width m)
    (hlimit : limit < 256 ^ width)
    (h : Writes addr mem p (emitUnsigned limit make n) q) :
    0 ≤ n ∧ n ≤ limit ∧ (readLe mem width p : ℤ) = n ∧ q = p + width := by
  obtain ⟨block, hok, hblock⟩ := h
  unfold emitUnsigned at hok
  split_ifs at hok with hrange
  obtain rfl : [make n.toNat] = block := by simpa [pure, Except.pure] using hok
  obtain ⟨bytes, hasm, hmem, hq⟩ := emitted_singleton.1 hblock
  obtain rfl := hmake _ _ _ hasm
  have hlt : (n.toNat : ℤ) < 256 ^ width := by omega
  have hread := readLe_eq hmem (by exact_mod_cast hlt)
  refine ⟨by omega, by omega, by omega, ?_⟩
  rw [hq, leBytes_length]

theorem writes_u8 (h : Writes addr mem p (emitU8 n) q) :
    0 ≤ n ∧ n ≤ 255 ∧ (uint8 mem p : ℤ) = n ∧ q = p + 1 :=
  writes_unsigned (fun m bytes here h => by cases h; rfl) (by norm_num) h

theorem writes_u16 (h : Writes addr mem p (emitU16 n) q) :
    0 ≤ n ∧ n ≤ 65535 ∧ (uint16 mem p : ℤ) = n ∧ q = p + 2 :=
  writes_unsigned (fun m bytes here h => by cases h; rfl) (by norm_num) h

theorem writes_u32 (h : Writes addr mem p (emitU32 n) q) :
    0 ≤ n ∧ n ≤ 4294967295 ∧ (uint32 mem p : ℤ) = n ∧ q = p + 4 :=
  writes_unsigned (fun m bytes here h => by cases h; rfl) (by norm_num) h

/-- The reference to a label is read as the address of the label. -/
theorem emitted_labelRel {lbl : Label δ} (h : Emitted addr mem p [.labelRel lbl 0] q) :
    int32 mem p = addr lbl - p ∧ q = p + 4 := by
  obtain ⟨bytes, hasm, hmem, hq⟩ := emitted_singleton.1 h
  cases hasm with
  | labelRel _ _ hlow hhigh =>
    have hread : uint32 mem p = _ := readLe_eq hmem (by omega)
    refine ⟨?_, by rw [hq, leBytes_length]⟩
    unfold int32
    split_ifs <;> lia

variable {size reg acc shift : ℕ}

/-- The lengths of the emissions of a list. -/
theorem writes_iter {emit : α → Except Error (Block δ)} {l : List α}
    {P : α → ℕ → Prop} (hemit : ∀ x ∈ l, ∀ p q, Writes addr mem p (emit x) q → P x p ∧ q = p + size)
    (h : Writes addr mem p (emitIter emit l) q) :
    (∀ (i : ℕ) x, l[i]? = some x → P x (p + size * i)) ∧ q = p + size * l.length := by
  induction l generalizing p with
  | nil => rw [writes_iter_nil] at h; exact ⟨by simp, by simpa using h⟩
  | cons x l ih =>
    obtain ⟨m, hx, hl⟩ := writes_iter_cons.1 h
    obtain ⟨hP, rfl⟩ := hemit x List.mem_cons_self _ _ hx
    obtain ⟨hrest, hq⟩ := ih (fun y hy => hemit y (List.mem_cons_of_mem _ hy)) hl
    refine ⟨fun i y hy => ?_, ?_⟩
    · cases i with
      | zero =>
        simp only [List.getElem?_cons_zero, Option.some.injEq] at hy
        subst hy
        simpa using hP
      | succ i =>
        have hi := hrest i y (by simpa using hy)
        rwa [show p + size * (i + 1) = p + size + size * i by ring]
    · rw [hq, length_cons]; ring

/-! ## §3 The parts of a descriptor -/

variable {flags : Flags δ} {fd : FrameDescr δ}

/-- What `record_frame_descr` makes sure of. -/
structure Recorded (flags : Flags δ) (fd : FrameDescr δ) : Prop where
  aligned : fd.fdFrameSize % 4 = 0
  nonneg : 0 ≤ fd.fdFrameSize + getFlags flags fd.fdDebuginfo
  small : fd.fdFrameSize + getFlags flags fd.fdDebuginfo ≤ 0x3FFFFFFF
  medium : fd.fdLong = false → fd.fdFrameSize + getFlags flags fd.fdDebuginfo < 0x7FFF
  numLive : fd.fdLong = false → (fd.fdLiveOffset.length : ℤ) < 0x7FFF
  live : fd.fdLong = false → ∀ n ∈ fd.fdLiveOffset, 0 ≤ n ∧ n < 0x7FFF

theorem isLong_eq_ok {b : Bool} (h : isLong flags n = .ok b) :
    0 ≤ n ∧ n ≤ 0x3FFFFFFF ∧ (b = false → n < 0x7FFF) := by
  have hle := flags.threshold_le
  unfold maxLongFramesThreshold at hle
  unfold isLong at h
  split_ifs at h with hneg hbig
  have hb : decide (flags.longFramesThreshold ≤ n) = b := by
    simpa [pure, Except.pure] using h
  refine ⟨by omega, by omega, fun hfalse => ?_⟩
  rw [hfalse, decide_eq_false_iff_not] at hb
  omega

variable {l live : List ℤ}

theorem mem_sortUniq : n ∈ sortUniq l ↔ n ∈ l := by
  unfold sortUniq
  rw [List.mem_mergeSort, List.mem_dedup]

theorem anyM_eq_false {f : α → Except Error Bool} {l : List α}
    (h : l.anyM f = .ok false) : ∀ x ∈ l, f x = .ok false := by
  induction l with
  | nil => simp
  | cons x l ih =>
    rw [List.anyM] at h
    obtain ⟨b, hb, h⟩ := bind_eq_ok.1 h
    cases b with
    | true => simp [pure, Except.pure] at h
    | false =>
      intro y hy
      rcases mem_cons.1 hy with rfl | hy
      · exact hb
      · exact ih h y hy

variable {x y : Except Error Bool}

theorem orM_eq_false (h : (x <||> y) = .ok false) : x = .ok false ∧ y = .ok false := by
  obtain ⟨b, hb, h⟩ := bind_eq_ok.1 h
  cases b with
  | true => simp [toBool, pure, Except.pure] at h
  | false => exact ⟨hb, h⟩

theorem orM_eq_ok {b : Bool} (h : (x <||> y) = .ok b) : ∃ a, x = .ok a := by
  obtain ⟨a, ha, -⟩ := bind_eq_ok.1 h
  exact ⟨a, ha⟩

theorem recordFrameDescr_eq_ok {label : ℕ} {frameSize : ℤ} {liveOffset : List ℤ}
    {debuginfo : FrameDebuginfo δ} {epoch : ℕ}
    (h : recordFrameDescr flags label frameSize liveOffset debuginfo epoch = .ok fd) :
    Recorded flags fd ∧ fd.fdLbl = label ∧ fd.fdFrameSize = frameSize ∧
      fd.fdDebuginfo = debuginfo ∧ fd.fdSection = epoch ∧
      ∀ n, n ∈ fd.fdLiveOffset ↔ n ∈ liveOffset := by
  unfold recordFrameDescr at h
  split_ifs at h with halign
  obtain ⟨long, hlong, h⟩ := bind_eq_ok.1 h
  split_ifs at h
  obtain rfl := by simpa [pure, Except.pure] using h
  obtain ⟨first, hfirst⟩ := orM_eq_ok hlong
  obtain ⟨h0, h1, -⟩ := isLong_eq_ok hfirst
  refine ⟨⟨not_not.1 halign, h0, h1, fun hfalse => ?_, fun hfalse => ?_, fun hfalse n hn => ?_⟩,
    rfl, rfl, rfl, rfl, fun n => mem_sortUniq⟩
  · dsimp only at hfalse
    rw [hfalse] at hlong
    exact (isLong_eq_ok (orM_eq_false hlong).1).2.2 rfl
  · dsimp only at hfalse ⊢
    rw [hfalse] at hlong
    have hlen := (isLong_eq_ok (orM_eq_false (orM_eq_false hlong).2).1).2.2 rfl
    have hle : (sortUniq liveOffset).length ≤ liveOffset.length := by
      unfold sortUniq
      rw [List.length_mergeSort]
      exact (List.dedup_sublist liveOffset).length_le
    omega
  dsimp only at hfalse
  rw [hfalse] at hlong
  have hlive := anyM_eq_false (orM_eq_false (orM_eq_false hlong).2).2 n (mem_sortUniq.1 hn)
  obtain ⟨h0, -, h2⟩ := isLong_eq_ok hlive
  exact ⟨h0, h2 rfl⟩

/-! ### Flags -/

theorem and_two_iff {n : ℕ} : n &&& 2 ≠ 0 ↔ 2 ≤ n % 4 := by
  have hbit : n &&& 2 ^ 1 = (n.testBit 1).toNat * 2 ^ 1 := Nat.and_two_pow n 1
  rw [pow_one] at hbit
  rw [hbit, Nat.testBit_succ, Nat.testBit_zero]
  by_cases h : n / 2 % 2 = 1
  · simp only [h, decide_true, Bool.toNat_true]; omega
  · simp only [h, decide_false, Bool.toNat_false]; omega

theorem and_one_iff {n : ℕ} : n &&& 1 ≠ 0 ↔ n % 2 = 1 := by
  rw [Nat.and_one_is_mod]
  omega

/-- The allocations of a descriptor. -/
def allocsOf (fd : FrameDescr δ) : Option (List (AllocDbginfo δ)) :=
  match fd.fdDebuginfo with
  | .dbgAlloc dbgs => some dbgs
  | _ => none

theorem getFlags_le (flags : Flags δ) (fd : FrameDescr δ) : getFlags flags fd.fdDebuginfo ≤ 3 := by
  cases fd.fdDebuginfo <;> simp only [getFlags] <;> split_ifs <;> lia

theorem getFlags_alloc : 2 ≤ getFlags flags fd.fdDebuginfo ↔ (allocsOf fd).isSome := by
  unfold allocsOf
  cases fd.fdDebuginfo <;> simp only [getFlags] <;> split_ifs <;> simp

/-- The number of debug words of a descriptor. -/
def numDebugWords (flags : Flags δ) (fd : FrameDescr δ) : ℕ :=
  if getFlags flags fd.fdDebuginfo % 2 = 1 then (allocsOf fd).elim 1 List.length else 0

theorem emitted_fixed (hsize : ∀ d ∈ block, ∀ here bytes, Assembled addr here d bytes →
    bytes.length = size) (h : Emitted addr mem p block q) : q = p + size * block.length := by
  induction block generalizing p with
  | nil => rw [emitted_nil] at h; simpa using h
  | cons d block ih =>
    obtain ⟨bytes, hasm, -, hrest⟩ := emitted_cons.1 h
    have hbytes := hsize d List.mem_cons_self _ _ hasm
    have hq := ih (fun d' hd => hsize d' (List.mem_cons_of_mem _ hd)) hrest
    rw [hq, hbytes, length_cons]
    ring

theorem emitted_debugWords (h : Emitted addr mem p (emitDebugWords flags fd) q) :
    q = p + 4 * numDebugWords flags fd := by
  have hlen : (emitDebugWords flags fd).length = numDebugWords flags fd := by
    unfold emitDebugWords numDebugWords allocsOf
    cases fd.fdDebuginfo <;> simp only [getFlags] <;> split_ifs <;> simp_all
  have hfour : ∀ d ∈ emitDebugWords flags fd, ∀ here bytes, Assembled addr here d bytes →
      bytes.length = 4 := by
    intro d hd here bytes hasm
    have hkind : (∃ lbl ofs, d = .labelRel lbl ofs) ∨ ∃ n, d = .i32 n := by
      unfold emitDebugWords at hd
      cases hinfo : fd.fdDebuginfo with
      | dbgOther dbg | dbgRaise dbg => split_ifs at hd <;> simp_all
      | dbgAlloc dbgs =>
        simp only [hinfo] at hd
        split_ifs at hd
        · simp at hd
        · obtain ⟨a, -, rfl⟩ := mem_map.1 hd; split_ifs <;> simp
        · simp at hd
    rcases hkind with ⟨lbl, ofs, rfl⟩ | ⟨n, rfl⟩ <;> cases hasm <;> exact leBytes_length _ _
  rw [← hlen]
  exact emitted_fixed hfour h

/-! ### Allocations -/

/-- The allocation size and lengths, as the runtime should read them. -/
def allocWosize (fd : FrameDescr δ) : ℤ × List ℕ :=
  let dbgs := (allocsOf fd).getD []
  if dbgs.length = 0 then (0, [])
  else ((dbgs.map (·.allocWords)).sum - 1, dbgs.map fun d => (d.allocWords - 2).toNat)

theorem currentFrameAllocWosize_eq {d : ℕ}
    (hlen : allocLen mem d = ((allocsOf fd).getD []).map fun a => (a.allocWords - 2).toNat)
    (hwords : ∀ a ∈ (allocsOf fd).getD [], 2 ≤ a.allocWords) :
    currentFrameAllocWosize mem d = allocWosize fd := by
  unfold currentFrameAllocWosize allocWosize
  dsimp only
  rw [hlen, List.length_map]
  split_ifs
  · rfl
  congr 2
  rw [List.map_map]
  congr 1
  refine List.map_congr_left fun a ha => ?_
  have h2 := hwords a ha
  simp only [Function.comp_apply, whsizeEncoded]
  omega

theorem writes_allocWords {dbgs : List (AllocDbginfo δ)} : ∀ a ∈ dbgs, ∀ p q,
    Writes addr mem p (emitAllocWords a) q →
      (2 ≤ a.allocWords ∧ (uint8 mem p : ℤ) = a.allocWords - 2) ∧ q = p + 1 := by
  intro a _ p q h
  unfold emitAllocWords at h
  split_ifs at h with hwords
  · obtain ⟨-, -, hread, hq⟩ := writes_u8 h; exact ⟨⟨hwords.1, hread⟩, hq⟩
  · obtain ⟨block, hok, -⟩ := h; cases hok

theorem writes_allocs (h : Writes addr mem p (emitAllocs fd.fdDebuginfo) q) :
    match allocsOf fd with
    | none => q = p
    | some dbgs => uint8 mem p = dbgs.length ∧ dbgs.length < 256 ∧ q = p + 1 + dbgs.length ∧
        ∀ (i : ℕ) a, dbgs[i]? = some a →
          2 ≤ a.allocWords ∧ (uint8 mem (p + 1 + i) : ℤ) = a.allocWords - 2 := by
  unfold allocsOf
  cases hinfo : fd.fdDebuginfo with
  | dbgOther dbg | dbgRaise dbg => rw [hinfo] at h; exact emitted_nil.1 (writes_pure.1 h)
  | dbgAlloc dbgs =>
    rw [hinfo] at h
    unfold emitAllocs at h
    dsimp only at h
    split_ifs at h with hlen
    · obtain ⟨m, hnum, h⟩ := writes_seq_cons.1 h
      obtain ⟨m', hlengths, h⟩ := writes_seq_cons.1 h
      rw [writes_seq_nil] at h
      obtain ⟨-, -, hread, rfl⟩ := writes_u8 hnum
      obtain ⟨hall, rfl⟩ := writes_iter writes_allocWords hlengths
      refine ⟨by omega, by omega, by omega, fun i a ha => ?_⟩
      simpa using hall i a ha
    · obtain ⟨block, hok, -⟩ := h; cases hok

/-! ## §4 Escaped descriptors -/

variable {target : Target}

/-- The root of an entry of `fd_live_offset`: a register, or a stack slot. -/
def rootOfOffset (n : ℤ) : Root := if n % 2 = 1 then .reg (lsr1 n) else .slot n.toNat

/-- What the runtime reads of a descriptor at `d`, which ends at `q`. -/
structure Reads (flags : Flags δ) (mem : Memory) (target : Target) (fd : FrameDescr δ)
    (d q : ℕ) : Prop where
  returnToC : (camlDecodeFrameDescr mem d).returnToC = false
  frameSize : ((camlDecodeFrameDescr mem d).frameSize : ℤ) = fd.fdFrameSize
  frameSize_eq : Runtime.FrameDecoding.frameSize mem d = (camlDecodeFrameDescr mem d).frameSize
  hasAllocs : (camlDecodeFrameDescr mem d).hasAllocs ↔ getFlags flags fd.fdDebuginfo &&& 2 ≠ 0
  hasDebug : (camlDecodeFrameDescr mem d).hasDebug ↔ getFlags flags fd.fdDebuginfo &&& 1 ≠ 0
  roots : ∀ root, root ∈ scanFrame mem target d ↔ ∃ n ∈ fd.fdLiveOffset, rootOfOffset n = root
  allocs : currentFrameAllocWosize mem d = allocWosize fd
  debugWords : (if (camlDecodeFrameDescr mem d).hasDebug then
    (camlDecodeFrameDescr mem d).numDebuginfo else 0) = numDebugWords flags fd
  endOfDescr : (camlDecodeFrameDescr mem d).endOfDescr = q

/-- The width of the numbers of an escaped descriptor. -/
def width (fd : FrameDescr δ) : ℕ := if fd.fdLong then 4 else 2

theorem writes_unsigned16Or32 (h : Writes addr mem p (emitUnsigned16Or32 fd n) q) :
    (0 ≤ n ∧ n < 2 ^ 32 ∧ (readLe mem (width fd) p : ℤ) = n) ∧ q = p + width fd := by
  unfold emitUnsigned16Or32 at h
  unfold width
  split_ifs at h ⊢ with hlong
  · obtain ⟨h0, h1, hread, hq⟩ := writes_u32 h; exact ⟨⟨h0, by omega, hread⟩, hq⟩
  · obtain ⟨h0, h1, hread, hq⟩ := writes_u16 h; exact ⟨⟨h0, by omega, hread⟩, hq⟩

theorem writes_marker (h : Writes addr mem p (emitMarker fd) q) :
    if fd.fdLong then uint16 mem p = frameLongMarker ∧ q = p + 4 else q = p := by
  unfold emitMarker at h
  split_ifs at h ⊢ with hlong
  · obtain ⟨m, hmarker, h⟩ := writes_seq_cons.1 h
    obtain ⟨m', hpad, h⟩ := writes_seq_cons.1 h
    rw [writes_seq_nil] at h
    obtain ⟨-, -, hread, rfl⟩ := writes_u16 hmarker
    obtain ⟨-, -, -, rfl⟩ := writes_u16 hpad
    unfold maxLongFramesThreshold at hread
    unfold frameLongMarker
    omega
  · exact emitted_nil.1 (writes_pure.1 h)

theorem rootOf_offset {m : ℕ} (h0 : 0 ≤ n) (h1 : n < 2 ^ 32) (h : (m : ℤ) = n) :
    rootOf m = rootOfOffset n := by
  unfold rootOf rootOfOffset lsr1
  subst h
  have hodd : (m : ℤ) % 2 = 1 ↔ m % 2 = 1 := by omega
  simp only [hodd]
  split_ifs
  · congr 1
    omega
  · congr 1

/-- The list of the live offsets is scanned in its order. -/
theorem scanLive_eq (h : ∀ (i : ℕ) n, live[i]? = some n →
      0 ≤ n ∧ n < 2 ^ 32 ∧ (readLe mem size (p + size * i) : ℤ) = n) :
    scanLive mem size live.length p = live.map rootOfOffset := by
  induction live generalizing p with
  | nil => rfl
  | cons n live ih =>
    obtain ⟨h0, h1, hread⟩ := h 0 n rfl
    rw [length_cons, scanLive, List.map_cons, ih]
    · rw [rootOf_offset h0 h1 (by simpa using hread)]
    intro i m hm
    have hi := h (i + 1) m (by simpa using hm)
    rwa [show p + size * (i + 1) = p + size + size * i by ring] at hi

/-- The fields of an escaped descriptor at `d`. -/
structure Escaped (flags : Flags δ) (addr : Label δ → ℕ) (mem : Memory) (fd : FrameDescr δ)
    (d q : ℕ) : Prop where
  escape : uint8 mem d = 0
  marker : if fd.fdLong then uint16 mem (d + 5) = frameLongMarker else uint16 mem (d + 5) < 0x7FFF
  frameData : ((Runtime.FrameDecoding.frameData mem d : ℕ) : ℤ) =
    fd.fdFrameSize + getFlags flags fd.fdDebuginfo
  numLive : (if fd.fdLong then uint32 mem (d + 13) else uint16 mem (d + 7)) = fd.fdLiveOffset.length
  live : ∃ p, p = (if fd.fdLong then d + 17 else d + 9) ∧
    (∀ (i : ℕ) n, fd.fdLiveOffset[i]? = some n →
      0 ≤ n ∧ n < 2 ^ 32 ∧ (readLe mem (width fd) (p + width fd * i) : ℤ) = n) ∧
    ∃ q', Writes addr mem (p + width fd * fd.fdLiveOffset.length) (emitAllocs fd.fdDebuginfo) q' ∧
      q = q' + 4 * numDebugWords flags fd

/-- The emission of an escaped descriptor. -/
theorem writes_escape (hrec : Recorded flags fd) (haddr : addr (.code fd.fdLbl) < 2 ^ 64)
    (h : Writes addr mem p (escape flags fd) q) :
    retaddrFrame mem p = addr (.code fd.fdLbl) ∧ Escaped flags addr mem fd p q := by
  obtain ⟨p₁, hescape, h⟩ := writes_seq_cons.1 h
  obtain ⟨p₂, hframe, h⟩ := writes_seq_cons.1 h
  rw [writes_seq_nil] at h
  obtain ⟨-, -, hzero, rfl⟩ := writes_u8 hescape
  obtain ⟨p₃, hret, hframe⟩ := writes_seq_cons.1 hframe
  obtain ⟨p₄, hmarker, hframe⟩ := writes_seq_cons.1 hframe
  obtain ⟨p₅, hdata, hframe⟩ := writes_seq_cons.1 hframe
  obtain ⟨p₆, hnum, hframe⟩ := writes_seq_cons.1 hframe
  obtain ⟨p₇, hlive, hframe⟩ := writes_seq_cons.1 hframe
  obtain ⟨p₈, hallocs, hframe⟩ := writes_seq_cons.1 hframe
  obtain ⟨p₉, hwords, hframe⟩ := writes_seq_cons.1 hframe
  rw [writes_seq_nil] at hframe
  obtain ⟨hint, hp₃⟩ := emitted_labelRel (writes_pure.1 hret)
  obtain rfl : p₃ = p + 5 := hp₃
  have hm := writes_marker hmarker
  obtain ⟨⟨-, -, hdataRead⟩, hp₅⟩ := writes_unsigned16Or32 hdata
  obtain ⟨⟨-, -, hnumRead⟩, hp₆⟩ := writes_unsigned16Or32 hnum
  obtain ⟨hliveRead, hp₇⟩ := writes_iter (P := fun n p =>
    0 ≤ n ∧ n < 2 ^ 32 ∧ (readLe mem (width fd) p : ℤ) = n)
    (fun _ _ _ _ h => writes_unsigned16Or32 h) hlive
  have hp₉ := emitted_debugWords (writes_pure.1 hwords)
  have hnotShort : frameIsShort mem p = false := by
    unfold frameIsShort
    simpa using hzero
  refine ⟨?_, ?_⟩
  · unfold retaddrFrame
    rw [frameRetaddrRelOfs]
    lia
  cases hlong : fd.fdLong with
  | true =>
    simp only [hlong, if_true] at hm
    have hw : width fd = 4 := by rw [width, if_pos hlong]
    rw [hw] at hdataRead hnumRead hp₅ hp₆
    obtain rfl : p₄ = p + 9 := by lia
    obtain rfl : p₅ = p + 13 := by lia
    obtain rfl : p₆ = p + 17 := by lia
    have hislong : frameIsLong mem p = true := by
      unfold frameIsLong
      rw [hnotShort]
      exact decide_eq_true hm.1
    refine ⟨by lia, ?_, ?_, ?_, ⟨p + 17, ?_, hliveRead, p₈, hp₇ ▸ hallocs, by lia⟩⟩
    · simpa [hlong] using hm.1
    · unfold Runtime.FrameDecoding.frameData
      rw [hnotShort, hislong]
      exact hdataRead
    · simp only [hlong]; exact_mod_cast hnumRead
    · simp [hlong]
  | false =>
    simp only [hlong, false_eq_true, if_false] at hm
    have hw : width fd = 2 := by rw [width, if_neg (by simp [hlong])]
    rw [hw] at hdataRead hnumRead hp₅ hp₆
    obtain rfl : p₄ = p + 5 := by lia
    obtain rfl : p₅ = p + 7 := by lia
    obtain rfl : p₆ = p + 9 := by lia
    have hmedium := hrec.medium hlong
    have hdata16 : ((uint16 mem (p + 5) : ℕ) : ℤ) = _ := hdataRead
    have hislong : frameIsLong mem p = false := by
      have hne : uint16 mem (p + frameDataOfs) ≠ frameLongMarker := by
        unfold frameLongMarker frameDataOfs
        lia
      unfold frameIsLong
      rw [hnotShort]
      exact decide_eq_false hne
    refine ⟨by lia, ?_, ?_, ?_, ⟨p + 9, ?_, hliveRead, p₈, hp₇ ▸ hallocs, by lia⟩⟩
    · simp only [hlong, false_eq_true, if_false]; lia
    · unfold Runtime.FrameDecoding.frameData
      rw [hnotShort, hislong]
      exact hdataRead
    · simp only [hlong, false_eq_true]; exact_mod_cast hnumRead
    · simp [hlong]

/-- An escaped descriptor is read. -/
theorem Escaped.reads (h : Escaped flags addr mem fd p q) (hrec : Recorded flags fd)
    (target : Target) : Reads flags mem target fd p q := by
  have hnotShort : frameIsShort mem p = false := by
    unfold frameIsShort
    simpa using h.escape
  have hislong : frameIsLong mem p = fd.fdLong := by
    have hmarker := h.marker
    unfold frameIsLong
    rw [hnotShort]
    cases hlong : fd.fdLong with
    | true => simp only [hlong] at hmarker; exact decide_eq_true hmarker
    | false =>
      simp only [hlong, false_eq_true, if_false] at hmarker
      have hne : uint16 mem (p + frameDataOfs) ≠ frameLongMarker := by
        unfold frameLongMarker frameDataOfs
        lia
      exact decide_eq_false hne
  have hnotC : frameReturnToC mem p = false := by
    have hmarker := h.marker
    have hne : uint16 mem (p + frameDataOfs) ≠ frameReturnToCMarker := by
      unfold frameReturnToCMarker frameDataOfs
      unfold frameLongMarker at hmarker
      split_ifs at hmarker <;> lia
    unfold frameReturnToC
    rw [hnotShort]
    exact decide_eq_false hne
  have hdecode : camlDecodeFrameDescr mem p = decodeEscaped mem p := by
    unfold camlDecodeFrameDescr
    rw [hnotShort, hnotC]
    rfl
  have hflags := getFlags_le flags fd
  have haligned := hrec.aligned
  have hdata := h.frameData
  have hsize : ((Runtime.FrameDecoding.frameSize mem p : ℕ) : ℤ) = fd.fdFrameSize := by
    unfold Runtime.FrameDecoding.frameSize
    rw [hnotShort]
    simp only [false_eq_true, if_false]
    lia
  have hallocFlag : frameHasAllocs mem p ↔ getFlags flags fd.fdDebuginfo &&& 2 ≠ 0 := by
    simp only [frameHasAllocs, hnotShort, false_eq_true, if_false, decide_eq_true_eq,
      and_two_iff]
    lia
  have hdebugFlag : frameHasDebug mem p ↔ getFlags flags fd.fdDebuginfo &&& 1 ≠ 0 := by
    simp only [frameHasDebug, hnotShort, false_eq_true, if_false, decide_eq_true_eq,
      and_one_iff]
    lia
  obtain ⟨start, hstart, hlive, q', hallocs, hq⟩ := h.live
  have hnum := h.numLive
  have hendOfLive : (decodeEscaped mem p).endOfLive =
      start + width fd * fd.fdLiveOffset.length := by
    simp only [decodeEscaped, hislong, width]
    cases hlong : fd.fdLong with
    | true =>
      simp only [hlong, if_true] at hnum hstart ⊢
      rw [frameLongNumLiveOfs, frameLongLiveOfs, hnum, hstart, Nat.mul_comm]
    | false =>
      simp only [hlong, false_eq_true, if_false] at hnum hstart ⊢
      rw [frameNumLiveOfs, frameLiveOfs, hnum, hstart, Nat.mul_comm]
  have hallocFlag' := hallocFlag
  rw [and_two_iff, show getFlags flags fd.fdDebuginfo % 4 = getFlags flags fd.fdDebuginfo by lia,
    getFlags_alloc] at hallocFlag'
  have hread := writes_allocs hallocs
  rw [← hendOfLive] at hread
  -- the number of allocations, of debug words, and the end
  obtain ⟨hnumAllocs, hallocLen, hwords, hdebug, hend⟩ :
      (decodeEscaped mem p).numAllocs = ((allocsOf fd).getD []).length ∧
      (∀ (i : ℕ) a, ((allocsOf fd).getD [])[i]? = some a → 2 ≤ a.allocWords ∧
        (uint8 mem ((decodeEscaped mem p).endOfLive + 1 + i) : ℤ) = a.allocWords - 2) ∧
      (∀ a ∈ (allocsOf fd).getD [], 2 ≤ a.allocWords) ∧
      (if frameHasDebug mem p then (decodeEscaped mem p).numDebuginfo else 0) =
        numDebugWords flags fd ∧ (decodeEscaped mem p).endOfDescr = q := by
    have hdebugFlag' : frameHasDebug mem p ↔ getFlags flags fd.fdDebuginfo % 2 = 1 := by
      rw [hdebugFlag, and_one_iff]
    have hfieldAllocs : (decodeEscaped mem p).numAllocs =
        if frameHasAllocs mem p then uint8 mem (decodeEscaped mem p).endOfLive else 0 := rfl
    have hfieldDebug : (decodeEscaped mem p).numDebuginfo =
        if frameHasAllocs mem p then uint8 mem (decodeEscaped mem p).endOfLive else 1 := rfl
    have hfieldEnd : (decodeEscaped mem p).endOfDescr =
        if frameHasDebug mem p then
          (if frameHasAllocs mem p then
            (decodeEscaped mem p).endOfLive + (uint8 mem (decodeEscaped mem p).endOfLive + 1)
          else (decodeEscaped mem p).endOfLive) + 4 * (decodeEscaped mem p).numDebuginfo
        else if frameHasAllocs mem p then
          (decodeEscaped mem p).endOfLive + (uint8 mem (decodeEscaped mem p).endOfLive + 1)
        else (decodeEscaped mem p).endOfLive := rfl
    rw [hfieldEnd, hfieldDebug, hfieldAllocs, hq]
    unfold numDebugWords
    simp only [hdebugFlag']
    cases ha : allocsOf fd with
    | none =>
      rw [ha] at hread hallocFlag'
      have hno : frameHasAllocs mem p = false := by simpa using hallocFlag'
      simp only [hno, Option.getD_none, List.length_nil, false_eq_true,
        if_false, Option.elim_none]
      refine ⟨trivial, by simp, by simp, trivial, ?_⟩
      split_ifs <;> lia
    | some dbgs =>
      rw [ha] at hread hallocFlag'
      have hyes : frameHasAllocs mem p = true := by simpa using hallocFlag'
      obtain ⟨hlen, hlt, hq', hall⟩ := hread
      simp only [hyes, Option.getD_some, if_true, Option.elim_some, hlen]
      refine ⟨trivial, hall, fun a ha => ?_, trivial, ?_⟩
      · obtain ⟨i, hi⟩ := List.mem_iff_getElem?.1 ha; exact (hall i a hi).1
      · split_ifs <;> lia
  refine ⟨?_, ?_, ?_, ?_, ?_, ?_, ?_, ?_, ?_⟩
  · rw [hdecode]; rfl
  · rw [hdecode]; exact hsize
  · rw [hdecode]; rfl
  · rw [hdecode]; exact hallocFlag
  · rw [hdecode]; exact hdebugFlag
  · intro root
    have hscan : scanFrame mem target p = fd.fdLiveOffset.map rootOfOffset := by
      unfold scanFrame
      rw [hnotC, hnotShort, hislong]
      cases hlong : fd.fdLong with
      | true =>
        simp only [hlong, if_true] at hnum hstart
        have hw : width fd = 4 := by rw [width, if_pos hlong]
        rw [hw, hstart] at hlive
        rw [frameLongNumLiveOfs, hnum]
        exact scanLive_eq hlive
      | false =>
        simp only [hlong, false_eq_true, if_false] at hnum hstart
        have hw : width fd = 2 := by rw [width, if_neg (by simp [hlong])]
        rw [hw, hstart] at hlive
        rw [frameNumLiveOfs, hnum]
        exact scanLive_eq hlive
    rw [hscan, mem_map]
  · refine currentFrameAllocWosize_eq ?_ hwords
    unfold allocLen
    rw [hdecode]
    dsimp only
    rw [hnumAllocs]
    refine List.ext_getElem (by simp) fun i hi _ => ?_
    simp only [List.length_map, List.length_range] at hi
    have ha := hallocLen i _ (List.getElem?_eq_getElem hi)
    have hlong : (decodeEscaped mem p).isShort = false := rfl
    simp only [List.getElem_map, List.getElem_range, hlong, false_eq_true, if_false]
    lia
  · rw [hdecode]; exact hdebug
  · rw [hdecode]; exact hend

/-! ## §5 Short descriptors -/

/-! ### Bitmaps -/

theorem mem_liveRegs : reg ∈ liveRegs live ↔ ∃ n ∈ live, n % 2 = 1 ∧ lsr1 n = reg := by
  simp [liveRegs, and_assoc]

theorem mem_liveSlots : n ∈ liveSlots live ↔ n ∈ live ∧ ¬n % 2 = 1 := by
  simp [liveSlots]

theorem testBit_insert (bits b i : ℕ) :
    (bits ||| 1 <<< b).testBit i = (bits.testBit i || decide (b = i)) := by
  rw [Nat.testBit_or, Nat.one_shiftLeft, Nat.testBit_two_pow]

/-- The bits of the registers. -/
theorem regBits_spec {regs : List ℕ} {bits : ℕ} (h : regBits flags regs = some bits) :
    (∀ reg ∈ regs, ∃ b, hotRegBit flags reg = some b) ∧
      ∀ b, bits.testBit b ↔ ∃ reg ∈ regs, hotRegBit flags reg = some b := by
  have hrun : ∀ (regs : List ℕ) (acc bits : ℕ), regs.foldlM (fun bits reg =>
      (hotRegBit flags reg).map fun b => bits ||| 1 <<< b) acc = some bits →
      (∀ reg ∈ regs, ∃ b, hotRegBit flags reg = some b) ∧
        ∀ b, bits.testBit b ↔ acc.testBit b ∨ ∃ reg ∈ regs, hotRegBit flags reg = some b := by
    intro regs
    induction regs with
    | nil =>
      intro acc bits h
      obtain rfl : acc = bits := by simpa using h
      simp
    | cons reg regs ih =>
      intro acc bits h
      rw [List.foldlM_cons] at h
      cases hb : hotRegBit flags reg with
      | none => simp [hb] at h
      | some b =>
        simp only [hb, bind] at h
        obtain ⟨hall, hbits⟩ := ih _ _ h
        refine ⟨?_, fun i => ?_⟩
        · intro r hr
          rcases mem_cons.1 hr with rfl | hr
          · exact ⟨b, hb⟩
          · exact hall r hr
        · rw [hbits, testBit_insert]; simp [hb, or_assoc]
  obtain ⟨hall, hbits⟩ := hrun regs 0 bits h
  exact ⟨hall, fun b => by simpa using hbits b⟩

theorem hotRegBit_eq_some {b : ℕ} (h : hotRegBit flags reg = some b) :
    b < 8 ∧ flags.arch.frameHotRegs.getD b 0 = reg := by
  obtain ⟨hlt, hreg, -⟩ := List.findIdx?_eq_some_iff_getElem.1 h
  have hlen : flags.arch.frameHotRegs.length = 8 := by cases flags.arch <;> rfl
  refine ⟨by omega, ?_⟩
  rw [List.getD_eq_getElem _ _ hlt]
  simpa using hreg

/-- The bits of the slots. -/
theorem setSlots_spec {words : List ℤ} {bitmap bitmap' : List ℕ} (hnonneg : ∀ w ∈ words, 0 ≤ w)
    (h : words.foldlM setSlot bitmap = .ok bitmap') :
    bitmap'.length = bitmap.length ∧ ∀ k i, i < 8 → ((bitmap'.getD k 0).testBit i ↔
        (bitmap.getD k 0).testBit i ∨ ((8 * k + i : ℕ) : ℤ) ∈ words) := by
  induction words generalizing bitmap with
  | nil =>
    obtain rfl : bitmap = bitmap' := by simpa [pure, Except.pure] using h
    simp
  | cons w words ih =>
    obtain ⟨next, hnext, h⟩ := bind_eq_ok.1 h
    obtain ⟨hlen, hbits⟩ := ih (fun v hv => hnonneg v (List.mem_cons_of_mem _ hv)) h
    have hw := hnonneg w List.mem_cons_self
    obtain ⟨byte, hbyte, hwrite⟩ := bind_eq_ok.1 hnext
    have hget := read_eq_iff.1 hbyte
    have hlt := (List.getElem?_eq_some_iff.1 hget).1
    rw [write_eq hlt] at hwrite
    injection hwrite with hwrite
    subst hwrite
    refine ⟨by simpa using hlen, fun k i hi => ?_⟩
    rw [hbits k i hi, getD_set hlt, mem_cons]
    split_ifs with hk
    · have hbyteD : bitmap.getD k 0 = byte := by
        rw [hk, List.getD_eq_getElem?_getD, hget]
        rfl
      rw [testBit_insert, hbyteD, Bool.or_eq_true, decide_eq_true_eq, or_assoc]
      have hiff : (w % 8).toNat = i ↔ ((8 * k + i : ℕ) : ℤ) = w := by omega
      rw [hiff]
    · have hne : ¬((8 * k + i : ℕ) : ℤ) = w := by omega
      simp only [hne, false_or]

/-! ### Encodings -/

/-- The word of a slot in the frame. -/
theorem wordSlots_spec {frameWords : ℤ} {slots : List ℤ} {words : List (Option ℤ)}
    (h : wordSlots frameWords slots = .ok words) (hall : words.any Option.isNone = false) :
    words.filterMap id = slots.map (·.tdiv sizeAddr) ∧
      ∀ n ∈ slots, n % sizeAddr = 0 ∧ n.tdiv sizeAddr < frameWords := by
  unfold wordSlots at h
  induction slots generalizing words with
  | nil =>
    obtain rfl : words = [] := by simpa [pure, Except.pure] using h
    simp
  | cons n slots ih =>
    rw [List.mapM_cons] at h
    obtain ⟨word, hword, h⟩ := bind_eq_ok.1 h
    obtain ⟨rest, hrest, h⟩ := bind_eq_ok.1 h
    obtain rfl : word :: rest = words := by simpa [pure, Except.pure] using h
    simp only [List.any_cons, Bool.or_eq_false_iff] at hall
    obtain ⟨hmap, hin⟩ := ih hrest hall.2
    split_ifs at hword with halign
    injection hword with hword
    by_cases hout : n.tdiv sizeAddr ≥ frameWords
    · rw [if_pos hout] at hword
      subst hword
      simp at hall
    rw [if_neg hout] at hword
    subst hword
    refine ⟨by simpa using hmap, fun m hm => ?_⟩
    rcases mem_cons.1 hm with rfl | hm
    · exact ⟨not_not.1 halign, by omega⟩
    · exact hin m hm

/-- What a short encoding is made of. -/
structure Encodes (flags : Flags δ) (fd : FrameDescr δ) (encoding : ShortEncoding) : Prop where
  notLong : fd.fdLong = false
  pos : 0 < fd.fdFrameSize
  le : fd.fdFrameSize ≤ 63 * 16
  aligned : fd.fdFrameSize % 16 = 0
  sizeUnits : encoding.sizeUnits = fd.fdFrameSize / 16
  regs : getFlags flags fd.fdDebuginfo &&& 2 = 0 → liveRegs fd.fdLiveOffset = []
  regBitmap : regBits flags (liveRegs fd.fdLiveOffset) = some encoding.regBitmap
  slots : ∀ n ∈ liveSlots fd.fdLiveOffset, n % 8 = 0
  slotBitmap : ((liveSlots fd.fdLiveOffset).map (·.tdiv 8)).foldlM setSlot
    (List.replicate ((fd.fdFrameSize / 8 + 7) / 8).toNat 0) = .ok encoding.slotBitmap
  slotsInFrame : ∀ n ∈ liveSlots fd.fdLiveOffset, n.tdiv 8 < fd.fdFrameSize / 8
  numAllocs : encoding.numAllocs = encoding.allocNibbles.length
  allocs_le : encoding.numAllocs ≤ 255
  allocNibbles : encoding.allocNibbles = allocNibblesOf fd.fdDebuginfo
  nibbles : ∀ a ∈ encoding.allocNibbles, 0 ≤ a ∧ a ≤ 15

variable {encoding : ShortEncoding}

theorem shortEncoding_spec
    (h : shortEncoding flags fd = .ok (some encoding)) : Encodes flags fd encoding := by
  unfold shortEncoding at h
  by_cases hsize : (fd.fdLong || fd.fdFrameSize ≤ 0 || fd.fdFrameSize > 63 * 16 ||
      fd.fdFrameSize % 16 ≠ 0) = true
  · rw [if_pos hsize] at h; cases h
  rw [if_neg hsize] at h
  simp only [Bool.or_eq_true, decide_eq_true_eq, not_or, Bool.not_eq_true] at hsize
  obtain ⟨⟨⟨hlong, hpos⟩, hle⟩, haligned⟩ := hsize
  obtain ⟨words, hwords, h⟩ := bind_eq_ok.1 h
  by_cases hnone : words.any Option.isNone = true
  · rw [if_pos hnone] at h; cases h
  rw [if_neg hnone] at h
  by_cases hregs : (!decide (getFlags flags fd.fdDebuginfo &&& 2 ≠ 0) &&
      !(liveRegs fd.fdLiveOffset).isEmpty) = true
  · rw [if_pos hregs] at h; cases h
  rw [if_neg hregs] at h
  cases hbits : regBits flags (liveRegs fd.fdLiveOffset) with
  | none => simp only [hbits, pure] at h; cases h
  | some regBitmap =>
    simp only [hbits] at h
    split_ifs at h with hallocs
    · simp [pure, Except.pure] at h
    obtain ⟨slotBitmap, hslots, h⟩ := bind_eq_ok.1 h
    have hencoding := by simpa [pure, Except.pure] using h
    subst hencoding
    have htdiv : fd.fdFrameSize.tdiv sizeAddr = fd.fdFrameSize / 8 :=
      Int.tdiv_eq_ediv_of_nonneg (by omega)
    have htdiv16 : fd.fdFrameSize.tdiv 16 = fd.fdFrameSize / 16 :=
      Int.tdiv_eq_ediv_of_nonneg (by omega)
    obtain ⟨hmap, hin⟩ := wordSlots_spec hwords (Bool.eq_false_iff.2 hnone)
    rw [hmap, htdiv] at hslots
    rw [htdiv] at hin
    simp only [Bool.or_eq_true, decide_eq_true_eq, not_or, not_lt, List.any_eq_true, not_exists,
      not_and] at hallocs
    exact {
      notLong := hlong
      pos := by omega
      le := by omega
      aligned := by omega
      sizeUnits := htdiv16
      regs := by
        intro hno
        simpa [hno] using hregs
      regBitmap := hbits
      slots := fun n hn => (hin n hn).1
      slotBitmap := hslots
      slotsInFrame := fun n hn => (hin n hn).2
      numAllocs := rfl
      allocs_le := hallocs.1
      allocNibbles := rfl
      nibbles := fun a ha => by
        have hin := hallocs.2 a ha
        omega }

/-- The nibbles are read back. -/
theorem writes_nibbles (hl : ∀ a ∈ l, 0 ≤ a ∧ a ≤ 15) (h : Writes addr mem p (emitNibbles l) q) :
    q = p + (l.length + 1) / 2 ∧ ∀ (i : ℕ) a, l[i]? = some a →
      ((if i % 2 = 1 then uint8 mem (p + i / 2) / 16 else uint8 mem (p + i / 2) % 16 : ℕ) : ℤ) =
        a := by
  fun_induction emitNibbles l generalizing p with
  | case1 => have hq := emitted_nil.1 (writes_pure.1 h); exact ⟨by simpa using hq, by simp⟩
  | case2 a =>
    obtain ⟨-, -, hread, hq⟩ := writes_u8 h
    obtain ⟨ha0, ha1⟩ := hl a (by simp)
    refine ⟨by simpa using hq, fun i b hb => ?_⟩
    cases i with
    | zero =>
      simp only [List.getElem?_cons_zero, Option.some.injEq] at hb
      simp
      lia
    | succ i => simp at hb
  | case3 a b rest ih =>
    obtain ⟨m, hbyte, h⟩ := writes_seq_cons.1 h
    obtain ⟨m', hrest, h⟩ := writes_seq_cons.1 h
    obtain rfl := writes_seq_nil.1 h
    obtain ⟨-, -, hread, rfl⟩ := writes_u8 hbyte
    obtain ⟨ha0, ha1⟩ := hl a (by simp)
    obtain ⟨hb0, hb1⟩ := hl b (by simp)
    obtain ⟨hq, hall⟩ := ih (fun c hc => hl c (by simp [hc])) hrest
    have hor : (b % 16).toNat <<< 4 ||| (a % 16).toNat = (b % 16).toNat * 16 + (a % 16).toNat := by
      rw [← Nat.shiftLeft_add_eq_or_of_lt (by lia : (a % 16).toNat < 2 ^ 4), Nat.shiftLeft_eq]
    rw [Nat.or_comm] at hread
    refine ⟨?_, fun i c hc => ?_⟩
    · simp only [length_cons]; lia
    match i with
    | 0 =>
      obtain rfl : a = c := by simpa using hc
      simp
      lia
    | 1 =>
      obtain rfl : b = c := by simpa using hc
      simp
      lia
    | i + 2 =>
      have hi := hall i c (by simpa using hc)
      have hmod : (i + 2) % 2 = i % 2 := by lia
      have hdiv : p + (i + 2) / 2 = p + 1 + i / 2 := by lia
      rw [hmod, hdiv]
      exact hi

/-- The fields of a short descriptor at `d`. -/
structure Short (flags : Flags δ) (mem : Memory) (fd : FrameDescr δ) (encoding : ShortEncoding)
    (d q : ℕ) : Prop where
  sizeFlags : (uint8 mem d : ℤ) = fd.fdFrameSize / 4 + getFlags flags fd.fdDebuginfo
  allocs : 2 ≤ getFlags flags fd.fdDebuginfo → uint8 mem (d + 1) = encoding.regBitmap ∧
    uint8 mem (d + 2) = encoding.numAllocs ∧ ∀ (i : ℕ) a, encoding.allocNibbles[i]? = some a →
      ((if i % 2 = 1 then uint8 mem (d + 3 + i / 2) / 16 else uint8 mem (d + 3 + i / 2) % 16 : ℕ) :
        ℤ) = a
  slots : ∃ p, p = (if 2 ≤ getFlags flags fd.fdDebuginfo then
      d + 3 + (encoding.numAllocs + 1) / 2 else d + 1) ∧
    (∀ (i : ℕ) byte, encoding.slotBitmap[i]? = some byte → uint8 mem (p + i) = byte) ∧
    q = p + encoding.slotBitmap.length + 4 * numDebugWords flags fd

theorem writes_shortBody (henc : Encodes flags fd encoding)
    (h : Writes addr mem p (emitShortBody flags fd encoding) q) :
    Short flags mem fd encoding p q := by
  have hflags := getFlags_le flags fd
  obtain ⟨p₁, hsize, h⟩ := writes_seq_cons.1 h
  obtain ⟨p₂, hallocs, h⟩ := writes_seq_cons.1 h
  obtain ⟨p₃, hslots, h⟩ := writes_seq_cons.1 h
  obtain ⟨p₄, hwords, h⟩ := writes_seq_cons.1 h
  obtain rfl := writes_seq_nil.1 h
  obtain ⟨-, -, hread, rfl⟩ := writes_u8 hsize
  have hor : encoding.sizeUnits.toNat <<< 2 ||| getFlags flags fd.fdDebuginfo =
      encoding.sizeUnits.toNat * 4 + getFlags flags fd.fdDebuginfo := by
    rw [← Nat.shiftLeft_add_eq_or_of_lt (by lia : getFlags flags fd.fdDebuginfo < 2 ^ 2),
      Nat.shiftLeft_eq]
  rw [hor, henc.sizeUnits] at hread
  have hpos := henc.pos
  have haligned := henc.aligned
  have hwords := emitted_debugWords (writes_pure.1 hwords)
  obtain ⟨hslots, hp₃⟩ := writes_iter (P := fun (byte : ℕ) p => uint8 mem p = byte)
    (fun byte _ _ _ h => by
      obtain ⟨-, -, hread, hq⟩ := writes_u8 h
      exact ⟨by exact_mod_cast hread, hq⟩) hslots
  simp only [Nat.one_mul] at hslots hp₃
  have htwo : getFlags flags fd.fdDebuginfo &&& 2 ≠ 0 ↔ 2 ≤ getFlags flags fd.fdDebuginfo := by
    rw [and_two_iff]
    lia
  by_cases halloc : 2 ≤ getFlags flags fd.fdDebuginfo
  · rw [if_pos (htwo.2 halloc)] at hallocs
    obtain ⟨q₁, hbitmap, hallocs⟩ := writes_seq_cons.1 hallocs
    obtain ⟨q₂, hnum, hallocs⟩ := writes_seq_cons.1 hallocs
    obtain ⟨q₃, hnibbles, hallocs⟩ := writes_seq_cons.1 hallocs
    obtain rfl := writes_seq_nil.1 hallocs
    obtain ⟨-, -, hbitmapRead, rfl⟩ := writes_u8 hbitmap
    obtain ⟨-, -, hnumRead, rfl⟩ := writes_u8 hnum
    obtain ⟨hp₂, hnibblesRead⟩ := writes_nibbles henc.nibbles hnibbles
    rw [← henc.numAllocs] at hp₂
    refine ⟨by lia, fun _ =>
      ⟨by exact_mod_cast hbitmapRead, by exact_mod_cast hnumRead, hnibblesRead⟩,
      ⟨p₂, ?_, hslots, by lia⟩⟩
    rw [if_pos halloc, hp₂]
  rw [if_neg fun hn => halloc (htwo.1 hn)] at hallocs
  have hp₂ := emitted_nil.1 (writes_pure.1 hallocs)
  refine ⟨by lia, fun hn => absurd hn halloc, ⟨p₂, ?_, hslots, by lia⟩⟩
  rw [if_neg halloc, hp₂]

/-- The slot of a word. -/
theorem mem_slotWords {w : ℕ} (hnonneg : ∀ n ∈ live, 0 ≤ n)
    (haligned : ∀ n ∈ liveSlots live, n % 8 = 0) :
    (w : ℤ) ∈ (liveSlots live).map (·.tdiv 8) ↔ ((w * 8 : ℕ) : ℤ) ∈ liveSlots live := by
  have hdiv : ∀ n ∈ liveSlots live, n.tdiv 8 = n / 8 := fun n hn =>
    Int.tdiv_eq_ediv_of_nonneg (hnonneg n (mem_liveSlots.1 hn).1)
  rw [mem_map]
  constructor
  · intro h
    obtain ⟨n, hn, hw⟩ := h
    rw [hdiv n hn] at hw
    have h8 := haligned n hn
    rwa [show ((w * 8 : ℕ) : ℤ) = n by omega]
  intro h
  refine ⟨_, h, ?_⟩
  rw [hdiv _ h]
  omega

theorem allocNibblesOf_eq (fd : FrameDescr δ) :
    allocNibblesOf fd.fdDebuginfo = ((allocsOf fd).getD []).map fun a => a.allocWords - 2 := by
  unfold allocNibblesOf allocsOf
  cases fd.fdDebuginfo <;> rfl

variable {root : Root}

/-- The registers of a short descriptor. -/
theorem mem_hotRegs (henc : Encodes flags fd encoding)
    (hhot : target.camlFrameHotRegs = flags.arch.frameHotRegs) :
    root ∈ (bitsFrom 8 0 encoding.regBitmap).map
        (fun i => Root.reg (target.camlFrameHotRegs.getD i 0)) ↔
      ∃ n ∈ fd.fdLiveOffset, n % 2 = 1 ∧ rootOfOffset n = root := by
  obtain ⟨hall, hbits⟩ := regBits_spec henc.regBitmap
  rw [mem_map, hhot]
  constructor
  · intro h
    obtain ⟨i, hi, rfl⟩ := h
    obtain ⟨-, -, hbit⟩ := mem_bitsFrom.1 hi
    obtain ⟨reg, hreg, hsome⟩ := (hbits i).1 (by simpa using hbit)
    obtain ⟨-, hget⟩ := hotRegBit_eq_some hsome
    obtain ⟨n, hn, hodd, hlsr⟩ := mem_liveRegs.1 hreg
    refine ⟨n, hn, hodd, ?_⟩
    rw [rootOfOffset, if_pos hodd, hlsr, hget]
  intro h
  obtain ⟨n, hn, hodd, rfl⟩ := h
  have hreg : lsr1 n ∈ liveRegs fd.fdLiveOffset := mem_liveRegs.2 ⟨n, hn, hodd, rfl⟩
  obtain ⟨b, hb⟩ := hall _ hreg
  obtain ⟨hlt, hget⟩ := hotRegBit_eq_some hb
  refine ⟨b, mem_bitsFrom.2 ⟨by omega, by omega, by simpa using (hbits b).2 ⟨_, hreg, hb⟩⟩, ?_⟩
  rw [hget, rootOfOffset, if_pos hodd]

/-- The slots of a short descriptor. -/
theorem mem_slotRoots (henc : Encodes flags fd encoding)
    (hnonneg : ∀ n ∈ fd.fdLiveOffset, 0 ≤ n) {start : ℕ}
    (hread : ∀ (i : ℕ) byte, encoding.slotBitmap[i]? = some byte → uint8 mem (start + i) = byte) :
    root ∈ (List.range encoding.slotBitmap.length).flatMap (scanBitmap mem start) ↔
      ∃ n ∈ fd.fdLiveOffset, ¬n % 2 = 1 ∧ rootOfOffset n = root := by
  have hwordsNonneg : ∀ w ∈ (liveSlots fd.fdLiveOffset).map (·.tdiv 8), 0 ≤ w := by
    intro w hw
    obtain ⟨n, hn, rfl⟩ := mem_map.1 hw
    exact Int.tdiv_nonneg (hnonneg n (mem_liveSlots.1 hn).1) (by omega)
  obtain ⟨hlen, hbits⟩ := setSlots_spec hwordsNonneg henc.slotBitmap
  rw [List.length_replicate] at hlen
  have hbit : ∀ k < encoding.slotBitmap.length, ∀ i < 8, ((uint8 mem (start + k)).testBit i ↔
        (((8 * k + i) * 8 : ℕ) : ℤ) ∈ liveSlots fd.fdLiveOffset) := by
    intro k hk i hi
    rw [hread k _ (List.getElem?_eq_getElem hk), ← List.getD_eq_getElem _ 0 hk, hbits k i hi,
      mem_slotWords hnonneg henc.slots]
    simp
  rw [List.mem_flatMap]
  constructor
  · intro h
    obtain ⟨k, hk, hroot⟩ := h
    obtain ⟨i, hi, rfl⟩ := mem_map.1 hroot
    obtain ⟨-, hlt, htest⟩ := mem_bitsFrom.1 hi
    have hslot := (hbit k (List.mem_range.1 hk) i (by omega)).1 (by simpa using htest)
    obtain ⟨hmem, heven⟩ := mem_liveSlots.1 hslot
    refine ⟨_, hmem, heven, ?_⟩
    rw [rootOfOffset, if_neg heven, Int.toNat_natCast, sizeofValue, Nat.mul_comm 8 k]
  intro h
  obtain ⟨n, hn, heven, rfl⟩ := h
  have hslot : n ∈ liveSlots fd.fdLiveOffset := mem_liveSlots.2 ⟨hn, heven⟩
  have h8 := henc.slots n hslot
  have h0 := hnonneg n hn
  have hlt := henc.slotsInFrame n hslot
  rw [Int.tdiv_eq_ediv_of_nonneg h0] at hlt
  obtain ⟨w, rfl⟩ : ∃ w : ℕ, n = ((w * 8 : ℕ) : ℤ) := ⟨(n / 8).toNat, by omega⟩
  refine ⟨w / 8, List.mem_range.2 (by omega), mem_map.2 ⟨w % 8, ?_, ?_⟩⟩
  · refine mem_bitsFrom.2 ⟨by omega, by omega, ?_⟩
    rw [Nat.sub_zero, hbit (w / 8) (by omega) (w % 8) (by omega), Nat.div_add_mod]
    exact hslot
  · rw [rootOfOffset, if_neg heven, Int.toNat_natCast, sizeofValue, Nat.div_add_mod']

/-- A short descriptor is read. -/
theorem Short.reads (h : Short flags mem fd encoding p q)
    (henc : Encodes flags fd encoding) (hrec : Recorded flags fd)
    (hhot : target.camlFrameHotRegs = flags.arch.frameHotRegs) :
    Reads flags mem target fd p q := by
  have hflags := getFlags_le flags fd
  have hpos := henc.pos
  have hle := henc.le
  have haligned := henc.aligned
  have hsf := h.sizeFlags
  have hshort : frameIsShort mem p = true := by
    exact decide_eq_true (by lia)
  have hnotC : frameReturnToC mem p = false := by
    unfold frameReturnToC
    rw [if_pos hshort]
  have hdecode : camlDecodeFrameDescr mem p = decodeShort mem p := by
    unfold camlDecodeFrameDescr
    rw [if_pos hshort]
  have hsize : ((uint8 mem p / 4 * 16 : ℕ) : ℤ) = fd.fdFrameSize := by lia
  have htwo : uint8 mem p &&& 2 ≠ 0 ↔ 2 ≤ getFlags flags fd.fdDebuginfo := by
    rw [and_two_iff]
    lia
  have hone : uint8 mem p &&& 1 ≠ 0 ↔ getFlags flags fd.fdDebuginfo % 2 = 1 := by
    rw [and_one_iff]
    lia
  have hlive : ∀ n ∈ fd.fdLiveOffset, 0 ≤ n := fun n hn => (hrec.live henc.notLong n hn).1
  obtain ⟨start, hstart, hbytes, hq⟩ := h.slots
  have hnibbles := henc.allocNibbles
  rw [allocNibblesOf_eq] at hnibbles
  have hslotsLen : encoding.slotBitmap.length = ((fd.fdFrameSize / 8 + 7) / 8).toNat := by
    have hwords : ∀ w ∈ (liveSlots fd.fdLiveOffset).map (·.tdiv 8), 0 ≤ w := by
      intro w hw
      obtain ⟨n, hn, rfl⟩ := mem_map.1 hw
      exact Int.tdiv_nonneg (hlive n (mem_liveSlots.1 hn).1) (by lia)
    rw [(setSlots_spec hwords henc.slotBitmap).1, List.length_replicate]
  have hliveBytes : (decodeShort mem p).shortLiveBytes = encoding.slotBitmap.length := by
    have hfield : (decodeShort mem p).shortLiveBytes =
        (uint8 mem p / 4 * 16 / sizeofValue + 7) / 8 % 256 := rfl
    rw [hfield, sizeofValue]
    lia
  have hallocs : (allocsOf fd).isSome ↔ 2 ≤ getFlags flags fd.fdDebuginfo := getFlags_alloc.symm
  -- the fields that depend on whether there are allocations
  obtain ⟨hshortLive, hnumAllocs, hallocLen, hregs, hdebuginfo⟩ :
      (decodeShort mem p).shortLive = start ∧
      (decodeShort mem p).numAllocs = ((allocsOf fd).getD []).length ∧
      (∀ (i : ℕ) a, ((allocsOf fd).getD [])[i]? = some a →
        ((if i % 2 = 1 then uint8 mem ((decodeShort mem p).shortAllocs + i / 2) / 16
          else uint8 mem ((decodeShort mem p).shortAllocs + i / 2) % 16 : ℕ) : ℤ) =
          a.allocWords - 2) ∧
      (if (decodeShort mem p).hasAllocs then (decodeShort mem p).shortRegBitmap else 0) =
        encoding.regBitmap ∧
      (decodeShort mem p).numDebuginfo = (allocsOf fd).elim 1 List.length := by
    have hfieldNum : (decodeShort mem p).numAllocs =
        if (decodeShort mem p).hasAllocs then uint8 mem (p + 2) else 0 := rfl
    have hfieldAllocs : (decodeShort mem p).shortAllocs =
        if (decodeShort mem p).hasAllocs then p + 3 else 0 := rfl
    have hfieldLive : (decodeShort mem p).shortLive = if (decodeShort mem p).hasAllocs then
        p + 3 + ((decodeShort mem p).numAllocs + 1) / 2 else p + 1 := rfl
    have hfieldBitmap : (decodeShort mem p).shortRegBitmap =
        if (decodeShort mem p).hasAllocs then uint8 mem (p + 1) else 0 := rfl
    have hfieldDebug : (decodeShort mem p).numDebuginfo =
        if (decodeShort mem p).hasAllocs then (decodeShort mem p).numAllocs else 1 := rfl
    have hlen : encoding.numAllocs = ((allocsOf fd).getD []).length := by
      rw [henc.numAllocs, hnibbles, List.length_map]
    by_cases halloc : 2 ≤ getFlags flags fd.fdDebuginfo
    · have hyes : (decodeShort mem p).hasAllocs = true := decide_eq_true (htwo.2 halloc)
      obtain ⟨hbitmap, hnum, hsizes⟩ := h.allocs halloc
      rw [if_pos halloc] at hstart
      rw [if_pos hyes] at hfieldNum hfieldAllocs hfieldLive hfieldBitmap hfieldDebug
      rw [hfieldLive, hfieldAllocs, hfieldDebug, hfieldNum, if_pos hyes, hfieldBitmap, hnum]
      refine ⟨hstart.symm, hlen, fun i a ha => ?_, hbitmap, ?_⟩
      · refine hsizes i _ ?_
        rw [hnibbles, List.getElem?_map, ha]
        rfl
      obtain ⟨dbgs, hdbgs⟩ := Option.isSome_iff_exists.1 (hallocs.2 halloc)
      rw [hlen, hdbgs]
      rfl
    have hno : (decodeShort mem p).hasAllocs = false :=
      decide_eq_false fun hn => halloc (htwo.1 hn)
    have hnone : allocsOf fd = none := by
      rw [← Option.not_isSome_iff_eq_none, hallocs]
      exact halloc
    rw [if_neg halloc] at hstart
    rw [hfieldLive, hfieldDebug, hfieldNum, hno, hnone]
    refine ⟨hstart.symm, rfl, by simp, ?_, rfl⟩
    have hregs := henc.regs (by
      by_contra hn
      have htwoFlags := and_two_iff.1 hn
      exact halloc (by lia))
    have hbitmap := henc.regBitmap
    rw [hregs] at hbitmap
    simpa [regBits] using hbitmap
  have hend : (decodeShort mem p).endOfDescr = if (decodeShort mem p).hasDebug then
      (decodeShort mem p).shortLive + (decodeShort mem p).shortLiveBytes +
        4 * (decodeShort mem p).numDebuginfo
      else (decodeShort mem p).shortLive + (decodeShort mem p).shortLiveBytes := rfl
  have hdebug : (decodeShort mem p).hasDebug ↔ getFlags flags fd.fdDebuginfo % 2 = 1 := by
    have hfield : (decodeShort mem p).hasDebug = decide (uint8 mem p &&& 1 ≠ 0) := rfl
    rw [hfield, decide_eq_true_eq, hone]
  refine ⟨?_, ?_, ?_, ?_, ?_, ?_, ?_, ?_, ?_⟩
  · rw [hdecode]; rfl
  · rw [hdecode]; exact hsize
  · rw [hdecode]
    unfold Runtime.FrameDecoding.frameSize
    rw [if_pos hshort]
    rfl
  · have hfield : (decodeShort mem p).hasAllocs = decide (uint8 mem p &&& 2 ≠ 0) := rfl
    rw [hdecode, hfield, decide_eq_true_eq, htwo, and_two_iff]
    lia
  · rw [hdecode, hdebug, and_one_iff]
  · intro root
    have hscan : scanFrame mem target p =
        (bitsFrom 8 0 (if (decodeShort mem p).hasAllocs then (decodeShort mem p).shortRegBitmap
          else 0)).map (fun i => Root.reg (target.camlFrameHotRegs.getD i 0)) ++
        (List.range (decodeShort mem p).shortLiveBytes).flatMap
          (scanBitmap mem (decodeShort mem p).shortLive) := by
      unfold scanFrame
      rw [hnotC, hdecode]
      simp only [false_eq_true, if_false]
      split_ifs <;> rfl
    rw [hscan, hregs, hliveBytes, hshortLive, List.mem_append, mem_hotRegs henc hhot,
      mem_slotRoots henc hlive hbytes]
    constructor
    · intro hroot
      rcases hroot with ⟨n, hn, -, hroot⟩ | ⟨n, hn, -, hroot⟩
      · exact ⟨n, hn, hroot⟩
      · exact ⟨n, hn, hroot⟩
    intro hroot
    obtain ⟨n, hn, hroot⟩ := hroot
    by_cases hodd : n % 2 = 1
    · exact .inl ⟨n, hn, hodd, hroot⟩
    · exact .inr ⟨n, hn, hodd, hroot⟩
  · have hwords : ∀ a ∈ (allocsOf fd).getD [], 2 ≤ a.allocWords := by
      intro a ha
      have hin := henc.nibbles (a.allocWords - 2) (by
        rw [hnibbles]
        exact mem_map.2 ⟨a, ha, rfl⟩)
      lia
    refine currentFrameAllocWosize_eq ?_ hwords
    unfold allocLen
    rw [hdecode]
    dsimp only
    rw [hnumAllocs]
    refine List.ext_getElem (by simp) fun i hi _ => ?_
    simp only [List.length_map, List.length_range] at hi
    have ha := hallocLen i _ (List.getElem?_eq_getElem hi)
    have hisShort : (decodeShort mem p).isShort = true := rfl
    simp only [List.getElem_map, List.getElem_range, hisShort, if_true]
    lia
  · rw [hdecode, hdebuginfo]
    unfold numDebugWords
    simp only [hdebug]
  rw [hdecode, hend, hq]
  unfold numDebugWords
  simp only [hdebug]
  split_ifs <;> lia

/-! ## §6 Frame tables -/

theorem or_shift {low : ℕ} (hacc : acc < 2 ^ shift) (hlow : acc + low * 2 ^ shift < 2 ^ 64) :
    acc ||| low <<< shift % 2 ^ 64 = acc + low * 2 ^ shift := by
  have hshift : low <<< shift = low * 2 ^ shift := Nat.shiftLeft_eq low shift
  have hmod : low <<< shift % 2 ^ 64 = low <<< shift := by
    exact Nat.mod_eq_of_lt (by omega)
  rw [hmod, Nat.or_comm, ← Nat.shiftLeft_add_eq_or_of_lt hacc, hshift, Nat.add_comm]

/-- The loop reads a delta, of which `acc` holds the lower bits. -/
theorem readDelta_eq {n fuel : ℕ} {bytes : List UInt8} (h : Uleb128 n bytes)
    (hmem : Holds mem p bytes) (hacc : acc < 2 ^ shift) (hfuel : bytes.length ≤ fuel)
    (hlt : acc + n * 2 ^ shift < 2 ^ 64) :
    readDelta mem fuel p acc shift = .ok (acc + n * 2 ^ shift, p + bytes.length) := by
  induction h generalizing p acc shift fuel with
  | @last n hn =>
    cases fuel with
    | zero => simp at hfuel
    | succ fuel =>
      have hbyte : uint8 mem p = n := readLe_eq hmem (by omega)
      have hdiv : ¬n / 128 = 1 := by omega
      rw [readDelta, hbyte, Nat.mod_eq_of_lt hn]
      simp only [hdiv, or_shift hacc hlt]
      rfl
  | @more low n bytes hlow h ih =>
    cases fuel with
    | zero => simp at hfuel
    | succ fuel =>
      obtain ⟨hfirst, hrest⟩ := holds_cons.1 hmem
      have hbyte : uint8 mem p = low + 128 := by
        have hsingle : Holds mem p (leBytes 1 (low + 128)) :=
          holds_cons.2 ⟨hfirst, holds_nil⟩
        exact readLe_eq hsingle (by omega)
      have hpow : 2 ^ (shift + 7) = 2 ^ shift * 128 := by rw [pow_add]; rfl
      have hsplit : acc + (low + 128 * n) * 2 ^ shift =
          acc + low * 2 ^ shift + n * 2 ^ (shift + 7) := by
        ring
      rw [hsplit] at hlt ⊢
      have hnext : acc + low * 2 ^ shift < 2 ^ (shift + 7) := by
        have hmul : low * 2 ^ shift ≤ 127 * 2 ^ shift := Nat.mul_le_mul_right _ (by omega)
        omega
      have hdiv : (low + 128) / 128 = 1 := by omega
      have hmod : (low + 128) % 128 = low := by omega
      rw [readDelta, hbyte]
      simp only [hdiv, hmod, if_true, or_shift hacc (by omega : acc + low * 2 ^ shift < 2 ^ 64)]
      rw [ih hrest hnext (by simpa using hfuel) hlt, length_cons, Nat.add_comm bytes.length 1,
        Nat.add_assoc p 1]

/-- Return addresses increase within a text section. -/
def Increasing (addr : Label δ → ℕ) (prev : Option (FrameDescr δ)) (fd : FrameDescr δ) : Prop :=
  ∀ prevFd, prev = some prevFd → prevFd.fdSection = fd.fdSection →
    addr (.code prevFd.fdLbl) < addr (.code fd.fdLbl)

variable {it : FrametableIter} {prev : Option (FrameDescr δ)}

/-- One descriptor is emitted and read. -/
theorem emitDescr_read (hrec : Recorded flags fd) (haddr : ∀ lbl, addr lbl < 2 ^ 64)
    (hhot : target.camlFrameHotRegs = flags.arch.frameHotRegs) (hinc : Increasing addr prev fd)
    (hprev : ∀ prevFd, prev = some prevFd → it.retaddr = addr (.code prevFd.fdLbl))
    (h : Writes addr mem it.next (emitDescr flags prev fd) q) :
    ∃ d, frametableIterNext mem it = .ok (d, ⟨q, addr (.code fd.fdLbl), it.remaining - 1⟩) ∧
      Reads flags mem target fd d q := by
  have hescape : Writes addr mem it.next (escape flags fd) q → ∃ d, frametableIterNext mem it =
      .ok (d, ⟨q, addr (.code fd.fdLbl), it.remaining - 1⟩) ∧ Reads flags mem target fd d q := by
    intro h
    obtain ⟨hret, hescaped⟩ := writes_escape hrec (haddr _) h
    have hreads := hescaped.reads hrec target
    refine ⟨it.next, ?_, hreads⟩
    unfold frametableIterNext
    simp [hescaped.escape, hret, pure, Except.pure, bind, Except.bind, hreads.endOfDescr]
  unfold emitDescr at h
  split_ifs at h
  · exact hescape h
  cases prev with
  | none => exact hescape h
  | some prevFd =>
    dsimp only at h
    split_ifs at h with hsection
    · obtain ⟨block, hok, hblock⟩ := h
      obtain ⟨encoding, hencoding, hok⟩ := bind_eq_ok.1 hok
      cases encoding with
      | none => exact hescape ⟨block, hok, hblock⟩
      | some encoding =>
        have hwrites : Writes addr mem it.next _ q := ⟨block, hok, hblock⟩
        obtain ⟨p₁, hdelta, hwrites⟩ := writes_seq_cons.1 hwrites
        obtain ⟨p₂, hbody, hwrites⟩ := writes_seq_cons.1 hwrites
        obtain rfl := writes_seq_nil.1 hwrites
        obtain ⟨bytes, hasm, hmem, rfl⟩ := emitted_singleton.1 (writes_pure.1 hdelta)
        have henc := shortEncoding_spec hencoding
        have hreads := (writes_shortBody henc hbody).reads henc hrec hhot
        have hlt := hinc prevFd rfl hsection
        cases hasm with
        | labelDelta _ _ n _ hn huleb hlen =>
          obtain ⟨b, rest, rfl, hb⟩ := huleb.head_ne_zero (by omega)
          have hfirst : ¬uint8 mem it.next = 0 := by
            obtain ⟨hhead, -⟩ := holds_cons.1 hmem
            intro hzero
            refine hb (UInt8.toNat_inj.1 ?_)
            rw [← hhead]
            simpa [uint8, readLe] using hzero
          have hbound := haddr (.code fd.fdLbl)
          have hread := readDelta_eq huleb hmem (show 0 < 2 ^ 0 by norm_num) hlen (by omega)
          refine ⟨_, ?_, hreads⟩
          unfold frametableIterNext
          simp only [if_neg hfirst, hread, pure, Except.pure, bind, Except.bind,
            hreads.endOfDescr, hprev prevFd rfl]
          rw [Nat.zero_add, pow_zero, Nat.mul_one, hn, Nat.mod_eq_of_lt hbound]
    · exact hescape h

/-- A descriptor starts where the one before it ends. -/
theorem iterate_chain {n : ℕ} {last : FrametableIter} {yielded : List Yielded}
    (h : iterate mem n it = .ok (yielded, last)) :
    (yielded.IsChain fun y y' => (camlDecodeFrameDescr mem y.descr).endOfDescr = y'.start) ∧
      ∀ y ∈ yielded.head?, y.start = it.next := by
  induction n generalizing it yielded with
  | zero =>
    obtain ⟨rfl, -⟩ : yielded = [] ∧ last = it := by
      simpa [iterate, pure, Except.pure, eq_comm] using h
    simp
  | succ n ih =>
    obtain ⟨⟨d, it'⟩, hnext, h⟩ := bind_eq_ok.1 h
    obtain ⟨⟨rest, last'⟩, hrest, h⟩ := bind_eq_ok.1 h
    obtain ⟨rfl, rfl⟩ : ⟨it.next, it'.retaddr, d⟩ :: rest = yielded ∧ last' = last := by
      simpa [pure, Except.pure] using h
    obtain ⟨hchain, hhead⟩ := ih hrest
    have hend : it'.next = (camlDecodeFrameDescr mem d).endOfDescr := by
      unfold frametableIterNext at hnext
      dsimp only at hnext
      split_ifs at hnext
      · simp only [pure, Except.pure, bind, Except.bind, Except.ok.injEq, Prod.mk.injEq] at hnext
        rw [← hnext.2, hnext.1]
      obtain ⟨⟨delta, p⟩, -, hnext⟩ := bind_eq_ok.1 hnext
      simp only [pure, Except.pure, bind, Except.bind, Except.ok.injEq, Prod.mk.injEq] at hnext
      rw [← hnext.2, hnext.1]
    refine ⟨?_, by simp⟩
    cases rest with
    | nil => simp
    | cons y rest => refine List.isChain_cons_cons.2 ⟨?_, hchain⟩; rw [hhead y (by simp), hend]

/-- A list of descriptors is emitted and read. -/
theorem emitDescrs_read {descrs : List (FrameDescr δ)} (hrec : ∀ fd ∈ descrs, Recorded flags fd)
    (haddr : ∀ lbl, addr lbl < 2 ^ 64)
    (hhot : target.camlFrameHotRegs = flags.arch.frameHotRegs)
    (hinc : (prev.toList ++ descrs).IsChain fun prevFd fd => Increasing addr (some prevFd) fd)
    (hprev : ∀ prevFd, prev = some prevFd → it.retaddr = addr (.code prevFd.fdLbl))
    (h : Writes addr mem it.next (emitDescrs flags prev descrs) q) :
    ∃ yielded last, iterate mem descrs.length it = .ok (yielded, last) ∧ last.next = q ∧
      List.Forall₂ (fun fd y => ∃ prev q', Writes addr mem y.start (emitDescr flags prev fd) q' ∧
        y.retaddr = addr (.code fd.fdLbl) ∧ Reads flags mem target fd y.descr q')
        descrs yielded := by
  induction descrs generalizing prev it with
  | nil => have hq := emitted_nil.1 (writes_pure.1 h); exact ⟨[], it, rfl, hq.symm, .nil⟩
  | cons fd descrs ih =>
    obtain ⟨p₁, hfd, h⟩ := writes_seq_cons.1 h
    obtain ⟨p₂, hrest, h⟩ := writes_seq_cons.1 h
    have hq : q = p₂ := writes_seq_nil.1 h
    subst q
    have hincFd : Increasing addr prev fd := by
      cases prev with
      | none => simp [Increasing]
      | some prevFd =>
        intro prevFd' heq
        simp only [Option.some.injEq] at heq
        subst heq
        exact (List.isChain_cons_cons.1 hinc).1 _ rfl
    have hincRest : ((some fd).toList ++ descrs).IsChain fun prevFd fd =>
        Increasing addr (some prevFd) fd := by
      cases prev with
      | none => exact hinc
      | some prevFd => exact (List.isChain_cons_cons.1 hinc).2
    obtain ⟨d, hnext, hreads⟩ := emitDescr_read (hrec fd List.mem_cons_self) haddr hhot hincFd
      hprev hfd
    have hrest : Writes addr mem (FrametableIter.next ⟨p₁, addr (.code fd.fdLbl), it.remaining - 1⟩)
        (emitDescrs flags (some fd) descrs) p₂ := hrest
    obtain ⟨yielded, last, hiter, hlast, hall⟩ := ih
      (fun fd' hfd' => hrec fd' (List.mem_cons_of_mem _ hfd')) hincRest
      (fun prevFd heq => by
        simp only [Option.some.injEq] at heq
        rw [← heq]) hrest
    refine ⟨⟨it.next, addr (.code fd.fdLbl), d⟩ :: yielded, last, ?_, hlast,
      .cons ⟨prev, p₁, hfd, rfl, hreads⟩ hall⟩
    rw [length_cons, iterate, hnext]
    simp only [bind, Except.bind, hiter]
    rfl

/-- What the runtime reads in a frame table is what the compiler has recorded. -/
theorem emitFrames_read {frameDescriptors : List (FrameDescr δ)} {tbl : ℕ}
    (hrec : ∀ fd ∈ frameDescriptors, ∃ label frameSize liveOffset debuginfo epoch,
      recordFrameDescr flags label frameSize liveOffset debuginfo epoch = .ok fd)
    (haddr : ∀ lbl, addr lbl < 2 ^ 64)
    (hhot : target.camlFrameHotRegs = flags.arch.frameHotRegs)
    (hinc : frameDescriptors.reverse.IsChain fun prevFd fd => prevFd.fdSection = fd.fdSection →
      addr (.code prevFd.fdLbl) < addr (.code fd.fdLbl))
    (hcount : frameDescriptors.length < 2 ^ 63)
    (h : Writes addr mem tbl (emitFrames flags frameDescriptors) q) :
    ∃ yielded last, readFrametable mem tbl = .ok (yielded, last) ∧ last.next = q ∧
      (yielded.IsChain fun y y' => (camlDecodeFrameDescr mem y.descr).endOfDescr = y'.start) ∧
      List.Forall₂ (fun fd y => ∃ prev q', Writes addr mem y.start (emitDescr flags prev fd) q' ∧
        y.retaddr = addr (.code fd.fdLbl) ∧ Reads flags mem target fd y.descr q')
        frameDescriptors.reverse yielded := by
  obtain ⟨p₁, hword, h⟩ := writes_seq_cons.1 h
  obtain ⟨p₂, hdescrs, h⟩ := writes_seq_cons.1 h
  obtain rfl := writes_seq_nil.1 h
  obtain ⟨bytes, hasm, hmem, rfl⟩ := emitted_singleton.1 (writes_pure.1 hword)
  cases hasm with
  | word n =>
    have hread : readLe mem 8 tbl = frameDescriptors.reverse.length := by
      rw [readLe_eq hmem (by omega), List.length_reverse]
      omega
    have hchain : ((none : Option (FrameDescr δ)).toList ++ frameDescriptors.reverse).IsChain
        fun prevFd fd => Increasing addr (some prevFd) fd := by
      refine hinc.imp fun a b hab prevFd heq hsection => ?_
      simp only [Option.some.injEq] at heq
      subst heq
      exact hab hsection
    unfold readFrametable frametableIterStart
    rw [hread]
    have hrecorded : ∀ fd ∈ frameDescriptors.reverse, Recorded flags fd := by
      intro fd hfd
      obtain ⟨label, frameSize, liveOffset, debuginfo, epoch, hok⟩ :=
        hrec fd (List.mem_reverse.1 hfd)
      exact (recordFrameDescr_eq_ok hok).1
    have hdescrs : Writes addr mem
        (FrametableIter.next ⟨tbl + 8, 0, frameDescriptors.reverse.length⟩)
        (emitDescrs flags none frameDescriptors.reverse) q := hdescrs
    obtain ⟨yielded, last, hiter, hlast, hall⟩ :=
      emitDescrs_read hrecorded haddr hhot hchain (by simp) hdescrs
    exact ⟨yielded, last, hiter, hlast, (iterate_chain hiter).1, hall⟩

/-! ### A table of two descriptors -/

def defaultFlags : Flags Bool where
  debug := false
  isNoneDbg := not
  longFramesThreshold := maxLongFramesThreshold
  allowLongFrames := true
  disableShortDescriptors := false
  arch := .amd64
  threshold_le := le_rfl

/-- The return address of a call, over a live slot. -/
def callDescr : FrameDescr Bool := ⟨0, 16, [8], .dbgOther false, false, 0⟩

/-- The return address of an allocation, with a live register. -/
def allocDescr : FrameDescr Bool := ⟨1, 32, [1], .dbgAlloc [⟨3, false⟩], false, 0⟩

def twoAddr : Label Bool → ℕ
  | .code 0 => 100
  | .code _ => 105
  | .debuginfos _ _ => 0

def twoBytes : List UInt8 :=
  [2, 0, 0, 0, 0, 0, 0, 0, 0, 143, 248, 255, 255, 16, 0, 1, 0, 8, 0, 5, 10, 1, 1, 1, 0]

theorem emitFrames_read_two :
    ∃ yielded last, readFrametable (memoryOf 1996 twoBytes) 1996 = .ok (yielded, last) ∧
      last.next = 2021 ∧
      (yielded.IsChain fun y y' =>
        (camlDecodeFrameDescr (memoryOf 1996 twoBytes) y.descr).endOfDescr = y'.start) ∧
      List.Forall₂ (fun fd y => ∃ prev q',
        Writes twoAddr (memoryOf 1996 twoBytes) y.start (emitDescr defaultFlags prev fd) q' ∧
        y.retaddr = twoAddr (.code fd.fdLbl) ∧
        Reads defaultFlags (memoryOf 1996 twoBytes) .amd64 fd y.descr q')
        [callDescr, allocDescr] yielded := by
  have hcall : recordFrameDescr defaultFlags 0 16 [8] (.dbgOther false) 0 = .ok callDescr := by
    have hsort : sortUniq [8] = [8] := List.mergeSort_singleton 8
    unfold recordFrameDescr
    rw [hsort]
    rfl
  have halloc : recordFrameDescr defaultFlags 1 32 [1] (.dbgAlloc [⟨3, false⟩]) 0 =
      .ok allocDescr := by
    have hsort : sortUniq [1] = [1] := List.mergeSort_singleton 1
    unfold recordFrameDescr
    rw [hsort]
    rfl
  have hblock : emitFrames defaultFlags [allocDescr, callDescr] = .ok [.word 2,
      .u8 0, .labelRel (.code 0) 0, .u16 16, .u16 1, .u16 8,
      .labelDelta 1 0, .u8 10, .u8 1, .u8 1, .u8 1, .u8 0] := rfl
  have hasm : Assembles twoAddr 1996 [.word 2,
      .u8 0, .labelRel (.code 0) 0, .u16 16, .u16 1, .u16 8,
      .labelDelta 1 0, .u8 10, .u8 1, .u8 1, .u8 1, .u8 0] twoBytes := by
    have hlow : (-2 ^ 31 : ℤ) ≤ twoAddr (.code 0) - (2005 : ℕ) + 0 := by decide
    have hhigh : (twoAddr (.code 0) : ℤ) - (2005 : ℕ) + 0 < 2 ^ 31 := by decide
    exact .cons (.word 2) (.cons (.u8 0) (.cons (.labelRel (.code 0) 0 hlow hhigh)
      (.cons (.u16 16) (.cons (.u16 1) (.cons (.u16 8)
      (.cons (.labelDelta 1 0 5 [5] rfl (.last (by decide)) (by decide))
      (.cons (.u8 10) (.cons (.u8 1) (.cons (.u8 1) (.cons (.u8 1) (.cons (.u8 0)
      (.nil _))))))))))))
  have haddr : ∀ lbl, twoAddr lbl < 2 ^ 64 := by
    intro lbl
    unfold twoAddr
    split <;> norm_num
  have hrec : ∀ fd ∈ [allocDescr, callDescr], ∃ label frameSize liveOffset debuginfo epoch,
        recordFrameDescr defaultFlags label frameSize liveOffset debuginfo epoch = .ok fd := by
    intro fd hfd
    simp only [mem_cons, List.not_mem_nil, or_false] at hfd
    rcases hfd with rfl | rfl
    · exact ⟨_, _, _, _, _, halloc⟩
    · exact ⟨_, _, _, _, _, hcall⟩
  have hinc : [callDescr, allocDescr].IsChain fun prevFd fd =>
      prevFd.fdSection = fd.fdSection →
        twoAddr (.code prevFd.fdLbl) < twoAddr (.code fd.fdLbl) := by
    simp [callDescr, allocDescr, twoAddr]
  exact emitFrames_read hrec haddr rfl hinc (by decide) ⟨_, hblock, twoBytes, hasm,
    holds_memoryOf, rfl⟩

end Oxcaml.Backend.FrameRoundTrip
