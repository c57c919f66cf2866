/-
Oxcaml.Backend.ComballocTheorems — combined allocations keep every address.

`Layout` says what may be combined: a group is an allocation and the instructions
after it, of which none stops the scan, up to the size limit. Each instruction has
its piece of the new body. Inside a group the new allocation pointer is ahead by
what is still to be allocated (`tracks_replaced`), and the registers are the same
at every point, so long as the result of an allocation is still there when the
next one of its group is made (`ResultsKept`).
-/
import Oxcaml.Backend.Comballoc
import Oxcaml.Lib.Arrays

namespace Oxcaml.Backend.Cfg.Comballoc

open BitVec (ofInt ofInt_add)
open Bool (not_eq_true)

set_option linter.all false

open Lib (bind_eq_ok)

variable {R P D X σ : Type} [DecidableEq R]

/-! ## §1 Groups -/

/-- What a scan with this mode walks over. -/
def Crossable (mode : AllocMode) (instr : Instr R P D) : Prop :=
  match instr.desc with
  | .op (.alloc _ _ m) => m = mode
  | desc => isBarrier desc = false ∧ (isRegion desc = true → mode = .heap)

def allocatedBytes : List (Instr R P D) → Int
  | [] => 0
  | instr :: rest =>
    match instr.desc with
    | .op (.alloc bytes _ _) => bytes + allocatedBytes rest
    | _ => allocatedBytes rest

/-- The blocks that are allocated, from the lowest address: their offsets from the
allocation pointer after all of them, and their debug infos. -/
def placements : List (Instr R P D) → List (Int × List D)
  | [] => []
  | instr :: rest =>
    match instr.desc with
    | .op (.alloc _ dbginfo _) => placements rest ++ [(allocatedBytes rest, dbginfo)]
    | _ => placements rest

/-- The result `prev` of an allocation is kept until the next allocation, and so on. -/
def Undisturbed : Option R → List (Instr R P D) → Prop
  | _, [] => True
  | prev, instr :: rest =>
    if isAlloc instr then Undisturbed instr.res.head? rest
    else (rest.any isAlloc = true → ∀ r, prev = some r → r ∉ instr.res) ∧ Undisturbed prev rest

/-- In every group of the body the result of an allocation is kept until the next one. -/
inductive ResultsKept (config : Config) : List (Instr R P D) → Prop
  | done {body : List (Instr R P D)} : findNextAllocation body = none → ResultsKept config body
  | group {body : List (Instr R P D)} {first : Allocation R P D} :
      findNextAllocation body = some first →
      Undisturbed first.instr.res.head?
        (findCompatibleAllocations config first.mode first.after first.bytes).1 →
      ResultsKept config (findCompatibleAllocations config first.mode first.after first.bytes).2 →
      ResultsKept config body

variable {config : Config} {mode : AllocMode} {instr : Instr R P D}

/-- An instruction that is not an allocation leaves the size as it is. -/
theorem nextSize_of_not_alloc {size size' : Int} (halloc : isAlloc instr = false)
    (h : nextSize config mode size instr = some size') : Crossable mode instr ∧ size' = size := by
  obtain ⟨desc, id, arg, res⟩ := instr
  cases desc with
  | op o =>
    cases o with
    | alloc bytes dbginfo m => cases halloc
    | poll => cases h
    | beginRegion | endRegion =>
      cases mode with
      | heap => exact ⟨⟨rfl, fun _ => rfl⟩, (Option.some.inj h).symm⟩
      | localMode => cases h
    | _ => exact ⟨⟨rfl, fun hregion => (nomatch hregion)⟩, (Option.some.inj h).symm⟩
  | _ => cases h

theorem isAlloc_iff : isAlloc instr = true ↔
    ∃ bytes dbginfo m, instr.desc = .op (.alloc bytes dbginfo m) := by
  rw [isAlloc]
  split
  · rename_i bytes dbginfo m hdesc
    exact ⟨fun _ => ⟨_, _, _, hdesc⟩, fun _ => rfl⟩
  rename_i hdesc
  refine ⟨fun h => (by cases h), ?_⟩
  rintro ⟨bytes, dbginfo, m, h⟩
  exact absurd h (hdesc _ _ _)

section

variable {rest : List (Instr R P D)} {bytes : Int} {dbginfo : List D} {m : AllocMode}

theorem allocatedBytes_alloc (h : instr.desc = .op (.alloc bytes dbginfo m)) :
    allocatedBytes (instr :: rest) = bytes + allocatedBytes rest := by
  rw [allocatedBytes, h]

theorem allocatedBytes_other (h : isAlloc instr = false) :
    allocatedBytes (instr :: rest) = allocatedBytes rest := by
  rw [allocatedBytes]
  split
  · rename_i hdesc
    rw [isAlloc, hdesc] at h
    cases h
  · rfl

theorem placements_alloc (h : instr.desc = .op (.alloc bytes dbginfo m)) :
    placements (instr :: rest) = placements rest ++ [(allocatedBytes rest, dbginfo)] := by
  rw [placements, h]

theorem placements_other (h : isAlloc instr = false) :
    placements (instr :: rest) = placements rest := by
  rw [placements]
  split
  · rename_i hdesc
    rw [isAlloc, hdesc] at h
    cases h
  · rfl

theorem nextSize_alloc (h : instr.desc = .op (.alloc bytes dbginfo m)) (size : Int) :
    nextSize config mode size instr = if m = mode ∧
      (size + bytes ≤ (config.maxYoungWosize + 1) * config.sizeAddr ∨ m = .localMode) then
        some (size + bytes) else none := by
  rw [nextSize.eq_def, h]

theorem crossable_alloc (h : instr.desc = .op (.alloc bytes dbginfo m)) :
    Crossable mode instr ↔ m = mode := by
  rw [Crossable, h]

/-- Without allocations there is nothing to count. -/
theorem allocatedBytes_eq_zero {l : List (Instr R P D)} (h : l.any isAlloc = false) :
    allocatedBytes l = 0 := by
  induction l with
  | nil => rfl
  | cons instr l ih =>
    rw [List.any_cons, Bool.or_eq_false_iff] at h
    rw [allocatedBytes_other h.1, ih h.2]

end

variable (config mode) in
/-- What is walked over may be crossed, and the heap allocations fit. -/
theorem passed_spec (body : List (Instr R P D)) (size : Int) :
    (∀ i ∈ (findCompatibleAllocations config mode body size).1, Crossable mode i) ∧
      (mode = .heap → (findCompatibleAllocations config mode body size).1.any isAlloc = true →
        size + allocatedBytes (findCompatibleAllocations config mode body size).1 ≤
          (config.maxYoungWosize + 1) * config.sizeAddr) := by
  induction body generalizing size with
  | nil => exact ⟨fun _ h => (by cases h), fun _ h => (by cases h)⟩
  | cons instr rest ih =>
    rw [findCompatibleAllocations]
    cases hnext : nextSize config mode size instr with
    | none => exact ⟨fun _ h => (by cases h), fun _ h => (by cases h)⟩
    | some size' =>
      obtain ⟨hcross, hfits⟩ := ih size'
      dsimp only
      by_cases halloc : isAlloc instr = true
      · obtain ⟨bytes, dbginfo, m, hdesc⟩ := isAlloc_iff.1 halloc
        rw [nextSize_alloc hdesc] at hnext
        obtain ⟨⟨hm, hlimit⟩, hsize⟩ := Option.ite_none_right_eq_some.1 hnext
        refine ⟨List.forall_mem_cons.2 ⟨(crossable_alloc hdesc).2 hm, hcross⟩, fun hheap _ => ?_⟩
        rw [allocatedBytes_alloc hdesc, ← Int.add_assoc, Option.some.inj hsize]
        by_cases hany : (findCompatibleAllocations config mode rest size').1.any isAlloc = true
        · exact hfits hheap hany
        rw [not_eq_true] at hany
        rw [allocatedBytes_eq_zero hany, Int.add_zero, ← Option.some.inj hsize]
        rcases hlimit with hlimit | hlocal
        · exact hlimit
        · rw [hm, hheap] at hlocal; cases hlocal
      rw [not_eq_true] at halloc
      obtain ⟨hthis, rfl⟩ := nextSize_of_not_alloc halloc hnext
      refine ⟨List.forall_mem_cons.2 ⟨hthis, hcross⟩, fun hheap hany => ?_⟩
      rw [List.any_cons, halloc, Bool.false_or] at hany
      rw [allocatedBytes_other halloc]
      exact hfits hheap hany

/-- The offsets go up, if every block has a size. -/
theorem placements_sorted (l : List (Instr R P D))
    (hpos : ∀ i ∈ l, ∀ bytes dbginfo m, i.desc = .op (.alloc bytes dbginfo m) → 0 < bytes) :
    (placements l).Pairwise (fun p q => p.1 < q.1) ∧ ∀ p ∈ placements l,
      p.1 < allocatedBytes l := by
  induction l with
  | nil => exact ⟨.nil, fun _ h => (nomatch h)⟩
  | cons instr l ih =>
    obtain ⟨hsorted, hbelow⟩ := ih fun i hi => hpos i (List.mem_cons_of_mem _ hi)
    by_cases halloc : isAlloc instr = true
    · obtain ⟨bytes, dbginfo, m, hdesc⟩ := isAlloc_iff.1 halloc
      have hbytes := hpos instr List.mem_cons_self _ _ _ hdesc
      rw [placements_alloc hdesc, allocatedBytes_alloc hdesc]
      refine ⟨List.pairwise_append.2 ⟨hsorted, List.pairwise_singleton _ _, ?_⟩, fun p hp => ?_⟩
      · intro p hp q hq
        rw [List.mem_singleton.1 hq]
        exact hbelow p hp
      rcases List.mem_append.1 hp with hp | hp
      · have hlt := hbelow p hp; omega
      · rw [List.mem_singleton.1 hp]; omega
    rw [not_eq_true] at halloc
    rw [placements_other halloc, allocatedBytes_other halloc]
    exact ⟨hsorted, hbelow⟩

/-! ## §2 Running a group -/

variable {M : Machine P D X σ} {s : State R X σ} {r : R} {res : List R}

theorem write_of_not_mem (hr : r ∉ res) (regs : R → Value X)
    (values : List (Value X)) : write regs res values r = regs r := by
  induction res generalizing regs values with
  | nil => cases values <;> rfl
  | cons r' res ih =>
    rw [List.mem_cons, not_or] at hr
    cases values with
    | nil => rfl
    | cons v values => rw [write, ih hr.2, Function.update_of_ne hr.1]

theorem write_one (regs : R → Value X) (r : R) (res : List R) (v : Value X) :
    write regs (r :: res) [v] = Function.update regs r v := by
  cases res <;> rfl

theorem run_nil (s : State R X σ) : run config M [] s = s := rfl

theorem run_cons (instr : Instr R P D) (body : List (Instr R P D)) (s : State R X σ) :
    run config M (instr :: body) s = run config M body (exec config M instr s) := rfl

theorem run_append (l body : List (Instr R P D)) (s : State R X σ) :
    run config M (l ++ body) s = run config M body (run config M l s) := List.foldl_append

@[simp] theorem State.regs_lower (mode : AllocMode) (d : Int) (s : State R X σ) :
    (s.lower mode d).regs = s.regs := by
  cases mode <;> rfl

@[simp] theorem State.rest_lower (mode : AllocMode) (d : Int) (s : State R X σ) :
    (s.lower mode d).rest = s.rest := by
  cases mode <;> rfl

theorem State.lower_zero (mode : AllocMode) (s : State R X σ) : s.lower mode 0 = s := by
  cases mode <;> simp [lower]

theorem State.lower_lower (mode : AllocMode) (d d' : Int) (s : State R X σ) :
    (s.lower mode d).lower mode d' = s.lower mode (d + d') := by
  cases mode <;> simp only [lower, ofInt_add] <;> congr 1 <;> grind

theorem State.address_lower (mode : AllocMode) (d : Int) (s : State R X σ) :
    (s.lower mode d).address config M mode = s.address config M mode - ofInt 64 d := by
  cases mode
  · show s.youngPtr - _ + _ = s.youngPtr + _ - _; grind
  · show s.localSp - _ + _ + _ = s.localSp + _ + _ - _; grind

variable {dbginfo : List D} {bytes left : Int}

theorem exec_alloc (h : instr.desc = .op (.alloc bytes dbginfo mode)) (s : State R X σ) :
    exec config M instr s = { s.lower mode bytes with
      regs := write s.regs instr.res [.word ((s.lower mode bytes).address config M mode)] } := by
  rw [exec, h]
  rfl

theorem exec_iadd {n : Int} {w : BitVec 64} (h : instr.desc = .op (.intopImm .iadd n))
    (harg : instr.arg = [r]) (hw : s.regs r = .word w) :
    exec config M instr s =
      { s with regs := write s.regs instr.res [.word (w + ofInt 64 n)] } := by
  rw [exec, h, harg, execDesc, List.map_singleton, hw]

theorem crossable_other (h : isAlloc instr = false) : Crossable mode instr ↔
    isBarrier instr.desc = false ∧ (isRegion instr.desc = true → mode = .heap) := by
  rw [Crossable]
  split
  · rename_i hdesc
    rw [isAlloc, hdesc] at h
    cases h
  · rfl

variable (config M) in
/-- What is crossed does not see the allocation pointer of the group. -/
theorem exec_crossable (halloc : isAlloc instr = false) (hcross : Crossable mode instr)
    (s : State R X σ) :
    (∀ d, exec config M instr (s.lower mode d) = (exec config M instr s).lower mode d) ∧
      (exec config M instr s).address config M mode = s.address config M mode ∧
      ∀ r, r ∉ instr.res → (exec config M instr s).regs r = s.regs r := by
  obtain ⟨desc, id, arg, res⟩ := instr
  cases desc with
  | op o =>
    cases o with
    | alloc bytes dbginfo m => cases halloc
    | poll => cases hcross.1
    | beginRegion | endRegion =>
      obtain rfl := hcross.2 rfl
      exact ⟨fun d => rfl, rfl, fun r hr => write_of_not_mem hr _ _⟩
    | intopImm op n =>
      cases op with
      | iadd =>
        simp only [exec, execDesc, State.regs_lower, State.rest_lower]
        split
        · exact ⟨fun d => by cases mode <;> rfl, by cases mode <;> rfl,
            fun r hr => write_of_not_mem hr _ _⟩
        · exact ⟨fun d => by cases mode <;> rfl, by cases mode <;> rfl,
            fun r hr => write_of_not_mem hr _ _⟩
      | _ =>
        exact ⟨fun d => by cases mode <;> rfl, by cases mode <;> rfl,
          fun r hr => write_of_not_mem hr _ _⟩
    | _ =>
      exact ⟨fun d => by cases mode <;> rfl, by cases mode <;> rfl,
        fun r hr => write_of_not_mem hr _ _⟩
  | _ => cases hcross.1

/-- The states in which `instr` is reached, in the body and in the new body. -/
structure Meets (instr : Instr R P D) (s s' : State R X σ) : Prop where
  regs : s'.regs = s.regs
  rest : s'.rest = s.rest
  barrier : isBarrier instr.desc = true → s' = s
  region : isRegion instr.desc = true → s'.localSp = s.localSp

variable (config M) in
/-- Both bodies are run, piece by piece, and end in one state. -/
def Tracks : List (Instr R P D) → List (List (Instr R P D)) → State R X σ → State R X σ → Prop
  | [], [], s, s' => s' = s
  | instr :: body, piece :: pieces, s, s' =>
    Meets instr s s' ∧ Tracks body pieces (exec config M instr s) (run config M piece s')
  | _, _, _, _ => False

theorem meets_refl (instr : Instr R P D) (s : State R X σ) : Meets instr s s :=
  ⟨rfl, rfl, fun _ => rfl, fun _ => rfl⟩

variable {pieces : List (List (Instr R P D))}

variable {body : List (Instr R P D)}

/-- Instructions that stay as they are. -/
theorem tracks_same (l : List (Instr R P D))
    (h : Tracks config M body pieces (run config M l s) (run config M l s)) :
    Tracks config M (l ++ body) (l.map ([·]) ++ pieces) s s := by
  induction l generalizing s with
  | nil => exact h
  | cons instr l ih => exact ⟨meets_refl _ _, ih h⟩

variable {result : List (Instr R P D) × Others R D} {m : AllocMode} {acc : Others R D}

variable {rest passed body body' : List (Instr R P D)}

theorem replaceOthers_alloc (h : instr.desc = .op (.alloc bytes dbginfo m))
    (hresult : replaceOthers (instr :: rest) acc = .ok result) :
    ∃ r res rest', instr.res = r :: res ∧
      replaceOthers rest ⟨acc.size + bytes, dbginfo ++ acc.dbginfos, r⟩ = .ok (rest', result.2) ∧
      result.1 = { instr with
        desc := .op (.intopImm .iadd (-bytes)), arg := [acc.prevRes0] } :: rest' := by
  rw [replaceOthers, h] at hresult
  cases hres : instr.res with
  | nil => rw [res0, hres] at hresult; cases hresult
  | cons r res =>
    rw [res0, hres] at hresult
    change (replaceOthers rest ⟨acc.size + bytes, dbginfo ++ acc.dbginfos, r⟩ >>= _) = _ at hresult
    cases hrest : replaceOthers rest ⟨acc.size + bytes, dbginfo ++ acc.dbginfos, r⟩ with
    | error e => rw [hrest] at hresult; cases hresult
    | ok p =>
      rw [hrest] at hresult
      cases hresult
      exact ⟨r, res, p.1, rfl, hrest, rfl⟩

theorem replaceOthers_other (h : isAlloc instr = false)
    (hresult : replaceOthers (instr :: rest) acc = .ok result) :
    ∃ rest', replaceOthers rest acc = .ok (rest', result.2) ∧ result.1 = instr :: rest' := by
  rw [replaceOthers] at hresult
  split at hresult
  · rename_i hdesc
    rw [isAlloc, hdesc] at h
    cases h
  cases hrest : replaceOthers rest acc with
  | error e => rw [hrest] at hresult; cases hresult
  | ok p =>
    rw [hrest] at hresult
    cases hresult
    exact ⟨p.1, rfl, rfl⟩

/-- What the fold counts. -/
theorem replaceOthers_others (h : replaceOthers passed acc = .ok result) :
    result.2.size = acc.size + allocatedBytes passed ∧
      result.2.dbginfos = (placements passed).flatMap (·.2) ++ acc.dbginfos := by
  induction passed generalizing acc result with
  | nil => cases h; exact ⟨(Int.add_zero _).symm, rfl⟩
  | cons instr passed ih =>
    by_cases halloc : isAlloc instr = true
    · obtain ⟨bytes, dbginfo, m, hdesc⟩ := isAlloc_iff.1 halloc
      obtain ⟨r, res, rest', -, hrest, -⟩ := replaceOthers_alloc hdesc h
      obtain ⟨hsize, hinfos⟩ := ih hrest
      rw [allocatedBytes_alloc hdesc, placements_alloc hdesc]
      exact ⟨hsize.trans (Int.add_assoc _ _ _), by simpa using hinfos⟩
    rw [not_eq_true] at halloc
    obtain ⟨rest', hrest, -⟩ := replaceOthers_other halloc h
    obtain ⟨hsize, hinfos⟩ := ih hrest
    rw [allocatedBytes_other halloc, placements_other halloc]
    exact ⟨hsize, hinfos⟩

section

variable (h : instr.desc = .op (.alloc bytes dbginfo mode))
include h

theorem exec_alloc_address (hres : instr.res = r :: res)
    (s : State R X σ) : (exec config M instr s).regs r =
      .word ((exec config M instr s).address config M mode) := by
  rw [exec_alloc h, hres]
  cases mode <;> simp [write_one, State.address]

/-- An offset from the block that was allocated last. -/
theorem exec_replaced {prev : R}
    (hprev : s.regs prev = .word (s.address config M mode)) :
    exec config M { instr with desc := .op (.intopImm .iadd (-bytes)), arg := [prev] }
      (s.lower mode (bytes + left)) = (exec config M instr s).lower mode left := by
  have hw : (s.lower mode (bytes + left)).regs prev = .word (s.address config M mode) := by
    rw [State.regs_lower, hprev]
  have haddress : s.address config M mode + ofInt 64 (-bytes) =
      (s.lower mode bytes).address config M mode := by
    rw [State.address_lower, BitVec.ofInt_neg]
    grind
  rw [exec_iadd rfl rfl hw, exec_alloc h, haddress, ← State.lower_lower]
  cases mode <;> rfl

end

/-- The rest of a group: the new state is ahead by what is still to be allocated, and
`prev` holds the address of the block that was allocated last. -/
theorem tracks_replaced
    (h : replaceOthers passed acc = .ok result) (hcross : ∀ i ∈ passed, Crossable mode i)
    (hkept : Undisturbed (some acc.prevRes0) passed)
    (hprev : passed.any isAlloc = true → s.regs acc.prevRes0 = .word (s.address config M mode))
    (hbody : Tracks config M body pieces (run config M passed s) (run config M passed s)) :
    Tracks config M (passed ++ body) (result.1.map ([·]) ++ pieces) s
      (s.lower mode (allocatedBytes passed)) := by
  induction passed generalizing s acc result with
  | nil =>
    cases h
    rw [allocatedBytes, State.lower_zero]
    exact hbody
  | cons instr passed ih =>
    obtain ⟨hthis, hrest⟩ := List.forall_mem_cons.1 hcross
    by_cases halloc : isAlloc instr = true
    · obtain ⟨bytes, dbginfo, m, hdesc⟩ := isAlloc_iff.1 halloc
      obtain rfl : m = mode := (crossable_alloc hdesc).1 hthis
      obtain ⟨r, res, rest', hres, hresult, heq⟩ := replaceOthers_alloc hdesc h
      rw [Undisturbed, if_pos halloc, hres] at hkept
      have hany : (instr :: passed).any isAlloc = true :=
        by rw [List.any_cons, halloc, Bool.true_or]
      rw [heq, allocatedBytes_alloc hdesc]
      refine ⟨⟨State.regs_lower _ _ _, State.rest_lower _ _ _, ?_, ?_⟩, ?_⟩
      · rw [hdesc]; exact fun hbarrier => (nomatch hbarrier)
      · rw [hdesc]; exact fun hregion => (nomatch hregion)
      show Tracks config M (passed ++ body) (rest'.map ([·]) ++ pieces) (exec config M instr s)
        (exec config M
          { instr with desc := .op (.intopImm .iadd (-bytes)), arg := [acc.prevRes0] }
          (s.lower m (bytes + allocatedBytes passed)))
      rw [exec_replaced hdesc (hprev hany)]
      exact ih hresult hrest hkept (fun _ => exec_alloc_address hdesc hres s) hbody
    rw [not_eq_true] at halloc
    obtain ⟨rest', hresult, heq⟩ := replaceOthers_other halloc h
    rw [Undisturbed, halloc] at hkept
    obtain ⟨hlower, haddress, hregs⟩ := exec_crossable config M halloc hthis s
    obtain ⟨hbarrier, hregion⟩ := (crossable_other halloc).1 hthis
    rw [heq, allocatedBytes_other halloc]
    refine ⟨⟨State.regs_lower _ _ _, State.rest_lower _ _ _, ?_, ?_⟩, ?_⟩
    · intro h
      rw [hbarrier] at h
      cases h
    · intro h
      rw [hregion h]
      rfl
    show Tracks config M (passed ++ body) (rest'.map ([·]) ++ pieces) (exec config M instr s)
      (exec config M instr (s.lower mode (allocatedBytes passed)))
    rw [hlower]
    refine ih hresult hrest hkept.2 (fun hany => ?_) hbody
    rw [haddress, hregs _ (hkept.1 hany _ rfl)]
    exact hprev (by rw [List.any_cons, hany, Bool.or_true])

variable {id id' : Nat}

/-- The enlarged allocation and the correction of its result. -/
theorem exec_combined {dbginfo infos : List D} (h : instr.desc = .op (.alloc bytes dbginfo mode))
    (hres : instr.res = r :: res) :
    run config M [{ instr with desc := .op (.alloc (bytes + left) infos mode) },
      { instr with desc := .op (.intopImm .iadd left), arg := [r], res := [r], id := id }] s =
        (exec config M instr s).lower mode left := by
  obtain ⟨combined, hcombined⟩ : ∃ combined : Instr R P D, combined =
    { instr with desc := .op (.alloc (bytes + left) infos mode) } := ⟨_, rfl⟩
  have hdesc : combined.desc = .op (.alloc (bytes + left) infos mode) := by rw [hcombined]
  have hcombinedRes : combined.res = r :: res := by rw [hcombined, hres]
  have hfirst : (exec config M combined s).regs r = _ := exec_alloc_address hdesc hcombinedRes s
  have haddress : (s.lower mode (bytes + left)).address config M mode + ofInt 64 left =
      (s.lower mode bytes).address config M mode := by
    rw [State.address_lower, State.address_lower, ofInt_add]
    grind
  rw [← hcombined, run_cons, run_cons, exec_iadd rfl rfl hfirst, exec_alloc hdesc,
    exec_alloc h, hres, hcombinedRes]
  rw [write_one, write_one, write_one, Function.update_idem, ← haddress, ← State.lower_lower]
  cases mode <;> rfl

variable (config M) in
/-- A group, of which the rest is `passed`. -/
theorem tracks_group (infos : List D) (id : Nat)
    (h : instr.desc = .op (.alloc bytes dbginfo mode)) (hres : instr.res = r :: res)
    (hresult : replaceOthers passed ⟨0, [], r⟩ = .ok result)
    (hcross : ∀ i ∈ passed, Crossable mode i) (hkept : Undisturbed (some r) passed)
    (hbody : Tracks config M body pieces (run config M (instr :: passed) s)
      (run config M (instr :: passed) s)) :
    Tracks config M (instr :: passed ++ body)
      ([{ instr with desc := .op (.alloc (bytes + allocatedBytes passed) infos mode) },
        { instr with desc := .op (.intopImm .iadd (allocatedBytes passed)), arg := [r],
                     res := [r], id := id }] :: (result.1.map ([·]) ++ pieces)) s s := by
  refine ⟨meets_refl _ _, ?_⟩
  rw [exec_combined h hres]
  exact tracks_replaced hresult hcross hkept (fun _ => exec_alloc_address h hres s) hbody

/-- Both bodies at one point. -/
theorem Tracks.take {s s' : State R X σ} (h : Tracks config M body pieces s s') (k : Nat) :
    (∀ instr, body[k]? = some instr → Meets instr (run config M (body.take k) s)
      (run config M (pieces.take k).flatten s')) ∧
    (body.length ≤ k → run config M (pieces.take k).flatten s' = run config M (body.take k) s) := by
  induction body generalizing pieces s s' k with
  | nil =>
    cases pieces with
    | nil =>
      refine ⟨fun instr hk => by simp at hk, fun _ => ?_⟩
      rw [List.take_nil, List.take_nil]
      exact h
    | cons piece pieces => exact h.elim
  | cons instr body ih =>
    cases pieces with
    | nil => exact h.elim
    | cons piece pieces =>
      obtain ⟨hmeets, h⟩ := h
      cases k with
      | zero =>
        refine ⟨fun i hi => ?_, fun hk => (nomatch hk)⟩
        obtain rfl : instr = i := Option.some.inj hi
        exact hmeets
      | succ k =>
        obtain ⟨hpoint, hend⟩ := ih h k
        have hrun : run config M ((piece :: pieces).take (k + 1)).flatten s' =
            run config M (pieces.take k).flatten (run config M piece s') := by
          rw [List.take_succ_cons, List.flatten_cons, run_append]
        rw [hrun]
        exact ⟨hpoint, fun hk => hend (Nat.le_of_succ_le_succ hk)⟩

/-! ## §3 The whole body -/

theorem address_run {l : List (Instr R P D)} (hcross : ∀ i ∈ l, Crossable mode i)
    (s : State R X σ) : (run config M l s).address config M mode =
      s.address config M mode - ofInt 64 (allocatedBytes l) := by
  induction l generalizing s with
  | nil => rw [run_nil, allocatedBytes]; simp
  | cons instr l ih =>
    obtain ⟨hthis, hrest⟩ := List.forall_mem_cons.1 hcross
    rw [run_cons, ih hrest]
    by_cases halloc : isAlloc instr = true
    · obtain ⟨bytes, dbginfo, m, hdesc⟩ := isAlloc_iff.1 halloc
      obtain rfl : m = mode := (crossable_alloc hdesc).1 hthis
      have haddress : (exec config M instr s).address config M m =
          s.address config M m - ofInt 64 bytes := by
        rw [← State.address_lower, exec_alloc hdesc]
        cases m <;> rfl
      rw [allocatedBytes_alloc hdesc, ofInt_add]
      grind
    · rw [not_eq_true] at halloc
      rw [(exec_crossable config M halloc hthis s).2.1, allocatedBytes_other halloc]

/-- The infos are those of the blocks of the group, from the lowest address: `placements` has
their offsets, which go up. -/
structure InAddressOrder (config : Config) (mode : AllocMode) (group : List (Instr R P D))
    (infos : List D) : Prop where
  infos_eq : infos = (placements group).flatMap (·.2)
  sorted : (∀ i ∈ group, ∀ bytes dbginfo m, i.desc = .op (.alloc bytes dbginfo m) → 0 < bytes) →
    (placements group).Pairwise fun p q => p.1 < q.1
  address : ∀ before instr after, group = before ++ instr :: after →
    ∀ bytes dbginfo m r res, instr.desc = .op (.alloc bytes dbginfo m) → instr.res = r :: res →
      (allocatedBytes after, dbginfo) ∈ placements group ∧
        ∀ {X σ : Type} (M : Machine P D X σ) (s : State R X σ),
          (run config M (before ++ [instr]) s).regs r =
            .word ((run config M group s).address config M mode +
              ofInt 64 (allocatedBytes after))

theorem mem_placements {before after : List (Instr R P D)}
    (h : instr.desc = .op (.alloc bytes dbginfo m)) :
    (allocatedBytes after, dbginfo) ∈ placements (before ++ instr :: after) := by
  induction before with
  | nil =>
    rw [List.nil_append, placements_alloc h]
    exact List.mem_append_right _ (List.mem_singleton.2 rfl)
  | cons i before ih =>
    by_cases halloc : isAlloc i = true
    · obtain ⟨bytes, dbginfo, m, hdesc⟩ := isAlloc_iff.1 halloc
      rw [List.cons_append, placements_alloc hdesc]
      exact List.mem_append_left _ ih
    rw [not_eq_true] at halloc
    rw [List.cons_append, placements_other halloc]
    exact ih

variable (config) in
theorem inAddressOrder {group : List (Instr R P D)} (hcross : ∀ i ∈ group, Crossable mode i) :
    InAddressOrder config mode group ((placements group).flatMap (·.2)) := by
  refine ⟨rfl, fun hpos => (placements_sorted group hpos).1, ?_⟩
  rintro before instr after rfl bytes dbginfo m r res hdesc hres
  refine ⟨mem_placements hdesc, fun M s => ?_⟩
  have hthis := hcross instr (List.mem_append_right _ List.mem_cons_self)
  obtain rfl : m = mode := (crossable_alloc hdesc).1 hthis
  have hafter : ∀ i ∈ after, Crossable m i := fun i hi =>
    hcross i (List.mem_append_right _ (List.mem_cons_of_mem _ hi))
  rw [run_append, run_append, run_cons, run_cons, run_nil, exec_alloc_address hdesc hres,
    address_run hafter]
  congr 1
  grind

/-- What `combine` may do: each instruction has its piece of the new body. An allocation and the
crossable instructions after it may become a group, whose heap allocations fit. -/
inductive Layout (config : Config) : List (Instr R P D) → List (List (Instr R P D)) → Prop
  | nil : Layout config [] []
  | same {body : List (Instr R P D)} {pieces : List (List (Instr R P D))} (instr : Instr R P D) :
      Layout config body pieces → Layout config (instr :: body) ([instr] :: pieces)
  | group {body : List (Instr R P D)} {pieces : List (List (Instr R P D))} {instr : Instr R P D}
      {passed : List (Instr R P D)} {result : List (Instr R P D) × Others R D} {mode : AllocMode}
      {bytes : Int} {dbginfo infos : List D} {r : R} {res : List R} (id : Nat) :
      instr.desc = .op (.alloc bytes dbginfo mode) → instr.res = r :: res →
      (∀ i ∈ passed, Crossable mode i) →
      (mode = .heap →
        allocatedBytes (instr :: passed) ≤ (config.maxYoungWosize + 1) * config.sizeAddr) →
      InAddressOrder config mode (instr :: passed) infos →
      replaceOthers passed ⟨0, [], r⟩ = .ok result → Layout config body pieces →
      Layout config (instr :: passed ++ body)
        ([{ instr with desc := .op (.alloc (allocatedBytes (instr :: passed)) infos mode) },
          { instr with desc := .op (.intopImm .iadd (allocatedBytes passed)), arg := [r],
                       res := [r], id := id }] :: (result.1.map ([·]) ++ pieces))

/-- From any allocation pointers, the new body is at every point where the old one is: the
registers are the same, and the allocation pointers as well where they can be seen. -/
structure Keeps (config : Config) (body : List (Instr R P D))
    (pieces : List (List (Instr R P D))) : Prop where
  regs : ∀ {X σ : Type} (M : Machine P D X σ) (s : State R X σ) (k : Nat),
    (run config M (pieces.take k).flatten s).regs = (run config M (body.take k) s).regs
  point : ∀ {X σ : Type} (M : Machine P D X σ) (s : State R X σ) (k : Nat) (instr : Instr R P D),
    body[k]? = some instr → Meets instr (run config M (body.take k) s)
      (run config M (pieces.take k).flatten s)
  finish : ∀ {X σ : Type} (M : Machine P D X σ) (s : State R X σ),
    run config M pieces.flatten s = run config M body s

theorem layout_same (l : List (Instr R P D)) (h : Layout config body pieces) :
    Layout config (l ++ body) (l.map ([·]) ++ pieces) := by
  induction l with
  | nil => exact h
  | cons instr l ih => exact .same instr ih

theorem flatten_singletons {α : Type} (l : List α) : (l.map ([·])).flatten = l := by
  induction l with
  | nil => rfl
  | cons a l ih => exact congrArg (a :: ·) ih

theorem res0_ok (h : res0 instr = .ok r) : ∃ res, instr.res = r :: res := by
  rw [res0] at h
  split at h
  · rename_i r' res hres
    cases h
    exact ⟨res, hres⟩
  · cases h

/-- How `combine` returns. -/
theorem combine_ok (h : combine config id body = .ok (body', id')) :
    (findNextAllocation body = none ∧ body' = body) ∨
    ∃ first, findNextAllocation body = some first ∧
      ∃ passed next, findCompatibleAllocations config first.mode first.after first.bytes =
          (passed, next) ∧
        ((passed.any isAlloc = false ∧ ∃ next', combine config id next = .ok (next', id') ∧
          body' = first.before ++ first.instr :: passed ++ next') ∨
        (passed.any isAlloc = true ∧ ∃ r res result next', first.instr.res = r :: res ∧
          replaceOthers passed ⟨0, [], r⟩ = .ok result ∧
          combine config (id + 1) next = .ok (next', id') ∧
          body' = first.before ++
            { first.instr with desc := .op (.alloc (first.bytes + result.2.size)
                (result.2.dbginfos ++ first.dbginfo) first.mode) } ::
            { first.instr with desc := .op (.intopImm .iadd result.2.size), arg := [r],
                               res := [r], id := id } :: result.1 ++ next')) := by
  rw [combine] at h
  split at h
  · rename_i hnone
    cases h
    exact .inl ⟨hnone, rfl⟩
  rename_i first hfirst
  refine .inr ⟨first, hfirst, _, _, rfl, ?_⟩
  split at h
  · cases h
  dsimp only at h
  split at h
  · rename_i hany
    obtain ⟨r, hr, h⟩ := bind_eq_ok.1 h
    obtain ⟨result, hresult, h⟩ := bind_eq_ok.1 h
    obtain ⟨⟨next', id''⟩, hnext, h⟩ := bind_eq_ok.1 h
    cases h
    obtain ⟨res, hres⟩ := res0_ok hr
    exact .inr ⟨hany, r, res, result, next', hres, hresult, hnext, rfl⟩
  rename_i hany
  rw [not_eq_true] at hany
  obtain ⟨⟨next', id''⟩, hnext, h⟩ := bind_eq_ok.1 h
  cases h
  exact .inl ⟨hany, next', hnext, rfl⟩

theorem ResultsKept.split {first : Allocation R P D}
    {next : List (Instr R P D)} (h : ResultsKept config body)
    (hfirst : findNextAllocation body = some first)
    (hfind : findCompatibleAllocations config first.mode first.after first.bytes = (passed, next)) :
    Undisturbed first.instr.res.head? passed ∧ ResultsKept config next := by
  cases h with
  | done hnone => rw [hfirst] at hnone; cases hnone
  | group hfirst' hkept hnext =>
    rw [hfirst] at hfirst'
    cases hfirst'
    rw [hfind] at hkept hnext
    exact ⟨hkept, hnext⟩

/-- The new body, and what it keeps. -/
theorem combine_layout (h : combine config id body = .ok (body', id')) :
    ∃ pieces, body' = pieces.flatten ∧ Layout config body pieces ∧
      (ResultsKept config body → ∀ {X σ : Type} (M : Machine P D X σ) (s : State R X σ),
        Tracks config M body pieces s s) := by
  induction hlength : body.length using Nat.strongRecOn generalizing body body' id id' with
  | ind n ih =>
    subst hlength
    rcases combine_ok h with ⟨hnone, heq⟩ | ⟨first, hfirst, passed, next, hfind, hcases⟩
    · rw [heq]
      refine ⟨body.map ([·]) ++ [], ?_, ?_, fun _ X σ M s => ?_⟩
      · rw [List.append_nil, flatten_singletons]
      · have hlayout : Layout config (body ++ []) (body.map ([·]) ++ []) := layout_same body .nil
        rwa [List.append_nil] at hlayout
      have htracks : Tracks config M (body ++ []) (body.map ([·]) ++ []) s s :=
        tracks_same body rfl
      rwa [List.append_nil] at htracks
    obtain ⟨hbody, hbefore, hdesc⟩ := findNextAllocation_some hfirst
    have happend := findCompatibleAllocations_append config first.mode first.after first.bytes
    have hlength := length_next hfirst config
    obtain ⟨hcross, hfits⟩ := passed_spec config first.mode first.after first.bytes
    rw [hfind] at happend hlength hcross hfits
    rw [← happend] at hbody
    rcases hcases with ⟨hany, next', hnext, heq⟩ | ⟨hany, r, res, result, next', hres, hresult,
      hnext, heq⟩
    · -- the first allocation stays as it is
      obtain ⟨pieces, hflatten, hlayout, htracks⟩ := ih _ hlength hnext rfl
      have hsplit : body = (first.before ++ first.instr :: passed) ++ next := by
        rw [hbody]
        simp
      rw [hsplit]
      refine ⟨(first.before ++ first.instr :: passed).map ([·]) ++ pieces, ?_,
        layout_same _ hlayout, fun hkept X σ M s => tracks_same _ ?_⟩
      · rw [List.flatten_append, flatten_singletons, ← hflatten, heq]
      · rw [← hsplit] at hkept; exact htracks (hkept.split hfirst hfind).2 M _
    obtain ⟨pieces, hflatten, hlayout, htracks⟩ := ih _ hlength hnext rfl
    obtain ⟨hsize, hinfos⟩ := replaceOthers_others hresult
    rw [Int.zero_add] at hsize
    rw [List.append_nil] at hinfos
    have hbytes : first.bytes + result.2.size = allocatedBytes (first.instr :: passed) := by
      rw [allocatedBytes_alloc hdesc, hsize]
    have hgroup : ∀ i ∈ first.instr :: passed, Crossable first.mode i :=
      List.forall_mem_cons.2 ⟨(crossable_alloc hdesc).2 rfl, hcross⟩
    have horder := inAddressOrder config hgroup
    rw [placements_alloc hdesc, List.flatMap_append, ← hinfos] at horder
    have hsplit : body = first.before ++ (first.instr :: passed ++ next) := by
      rw [hbody]
      simp
    rw [hbytes, hsize] at heq
    rw [hsplit]
    refine ⟨_, ?_, layout_same _ (.group id hdesc hres hcross (fun hheap => ?_) horder
      hresult hlayout), fun hkept X σ M s => tracks_same _ ?_⟩
    · rw [List.flatten_append, flatten_singletons, List.flatten_cons, List.flatten_append,
        flatten_singletons, ← hflatten, heq]
      simp
    · rw [allocatedBytes_alloc hdesc]; exact hfits hheap hany
    rw [← hsplit] at hkept
    obtain ⟨hundisturbed, hnextKept⟩ := hkept.split hfirst hfind
    rw [hres] at hundisturbed
    have htracked := tracks_group config M (s := run config M first.before s)
      (result.2.dbginfos ++ first.dbginfo) id hdesc hres hresult hcross hundisturbed
      (htracks hnextKept M _)
    rw [allocatedBytes_alloc hdesc]
    exact htracked

/-- Combining allocations: the layout of the groups, and every address is kept. -/
theorem combine_keeps {body body' : List (Instr R P D)} {id id' : Nat}
    (h : combine config id body = .ok (body', id')) :
    ∃ pieces, body' = pieces.flatten ∧ Layout config body pieces ∧
      (ResultsKept config body → Keeps config body pieces) := by
  obtain ⟨pieces, hflatten, hlayout, htracks⟩ := combine_layout h
  refine ⟨pieces, hflatten, hlayout, fun hkept => ⟨fun M s k => ?_, fun M s k instr hk =>
    ((htracks hkept M s).take k).1 instr hk, fun M s => ?_⟩⟩
  · obtain ⟨hpoint, hend⟩ := (htracks hkept M s).take k
    cases hk : body[k]? with
    | none => rw [hend (List.getElem?_eq_none_iff.1 hk)]
    | some instr => exact (hpoint instr hk).regs
  have hend := ((htracks hkept M s).take (max body.length pieces.length)).2 (le_max_left _ _)
  rw [List.take_of_length_le (le_max_right _ _), List.take_of_length_le (le_max_left _ _)] at hend
  exact hend

section Examples

/-- Two allocations, and a move of the first result between them. -/
def exampleBody : List (Instr ℕ Unit ℕ) :=
  [⟨.op (.alloc 16 [0] .heap), 0, [], [0]⟩, ⟨.op .move, 1, [0], [1]⟩,
    ⟨.op (.alloc 24 [1] .heap), 2, [], [2]⟩]

theorem combine_keeps_example : ∃ body' pieces,
    combine ⟨256, 8⟩ 3 exampleBody = .ok (body', 4) ∧ body' = pieces.flatten ∧
      Layout ⟨256, 8⟩ exampleBody pieces ∧
      Keeps ⟨256, 8⟩ exampleBody pieces ∧
      body' = [⟨.op (.alloc 40 [1, 0] .heap), 0, [], [0]⟩, ⟨.op (.intopImm .iadd 24), 3, [0], [0]⟩,
        ⟨.op .move, 1, [0], [1]⟩, ⟨.op (.intopImm .iadd (-24)), 2, [0], [2]⟩] := by
  have hnil : combine ⟨256, 8⟩ 4 ([] : List (Instr ℕ Unit ℕ)) = .ok ([], 4) := by
    rw [combine]
    rfl
  have hcombine : combine ⟨256, 8⟩ 3 exampleBody = .ok
      ([⟨.op (.alloc 40 [1, 0] .heap), 0, [], [0]⟩, ⟨.op (.intopImm .iadd 24), 3, [0], [0]⟩,
        ⟨.op .move, 1, [0], [1]⟩, ⟨.op (.intopImm .iadd (-24)), 2, [0], [2]⟩], 4) := by
    rw [combine]
    split
    · rename_i hnone
      cases hnone
    rename_i first hfirst
    cases hfirst
    show (combine _ 4 [] >>= _) = _
    rw [hnil]
    rfl
  obtain ⟨pieces, hflatten, hlayout, hkeeps⟩ := combine_keeps hcombine
  have hkept : ResultsKept ⟨256, 8⟩ exampleBody :=
    .group rfl ⟨fun _ r hr => by cases hr; decide, trivial⟩ (.done rfl)
  exact ⟨_, pieces, hcombine, hflatten, hlayout, hkeeps hkept, rfl⟩

end Examples

end Oxcaml.Backend.Cfg.Comballoc
