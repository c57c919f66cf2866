/-
Oxcaml.Utils.StructuredManglingTheorems — symbols are read back.

An escaped identifier is a stream of insertion positions and hexadecimal bytes,
an underscore, and the raw characters. The three alphabets are disjoint: the
positions are upper-case, the bytes are digits and lower-case, and the
underscore is neither. So each scanner of the parser stops where the next piece
starts (§1), and the decoder puts each escaped chunk back behind the raw
characters that preceded it (§2). Lengths are decimal and no payload starts with
a digit (§3). §4 reads whole paths.
-/
import Oxcaml.Utils.StructuredMangling
import Oxcaml.Runtime.IntsTheorems

set_option linter.all false

namespace Oxcaml.Utils.StructuredMangling

open List (append_assoc drop_drop drop_left length length_append length_drop mem_cons)
open BitVec (ofNat ofNat_add)

open Runtime.Ints

namespace Parse

/-! ## §1 Numbers -/

theorem upper_facts {r : Nat} (h : r < 26) :
    inRange 'A' 'Z' (upper r) = true ∧ (upper r).toNat - (byte 'A').toNat = r ∧
      upper r ≠ byte '_' := by
  interval_cases r <;> decide

theorem hexChar_facts {d : Nat} (h : d < 16) :
    hexValue (hexChar d) = some d ∧ hexChar d ≠ byte '_' := by
  interval_cases d <;> decide

theorem base26_eq (n : Nat) :
    base26 n = if n < 26 then [upper n] else base26 (n / 26) ++ [upper (n % 26)] := by
  rw [base26]
  by_cases h : n < 26
  · rw [if_neg (by omega), if_pos h, Nat.mod_eq_of_lt h]
  · rw [if_pos (by omega), if_neg h]

variable {c stop : UInt8} {n pos : Nat}

/-- The upper-case digits of a position. -/
theorem base26_upper (hc : c ∈ base26 n) : inRange 'A' 'Z' c = true ∧ c ≠ byte '_' := by
  induction n using Nat.strongRecOn with | ind n ih =>
rw [base26_eq] at hc
split at hc
· rename_i hlt
  rw [List.mem_singleton.1 hc]
  exact ⟨(upper_facts hlt).1, (upper_facts hlt).2.2⟩
rcases List.mem_append.1 hc with hc | hc
· exact ih (n / 26) (by omega) hc
have hfacts := upper_facts (Nat.mod_lt n (by omega : 26 > 0))
rw [List.mem_singleton.1 hc]
exact ⟨hfacts.1, hfacts.2.2⟩

/-- The number that upper-case digits denote after `n`. -/
def denote26 (n : OcamlInt) (ds : Bytes) : OcamlInt :=
  ds.foldl (fun n c => n * 26 + ofNat 63 (c.toNat - (byte 'A').toNat)) n

theorem denote26_base26 (n : Nat) : denote26 0 (base26 n) = ofNat 63 n := by
  induction n using Nat.strongRecOn with | ind n ih =>
rw [base26_eq]
split
· rename_i hlt
  simp [denote26, (upper_facts hlt).2.1]
have hr := (upper_facts (Nat.mod_lt n (by omega : 26 > 0))).2.1
have hq := ih (n / 26) (by omega)
have hn : n = n / 26 * 26 + n % 26 := by omega
simp only [denote26, List.foldl_append, List.foldl_cons, hr] at hq ⊢
rw [hq]
conv_rhs => rw [hn]
rw [ofNat_add, BitVec.ofNat_mul]
rfl

/-- A byte at which a scanner of upper-case digits stops. -/
theorem unbase26Digits_append {ds : Bytes} (hds : ∀ c ∈ ds, inRange 'A' 'Z' c = true)
    (hstop : inRange 'A' 'Z' stop = false) (str : Bytes) (n : OcamlInt) :
    unbase26Digits n (ds ++ stop :: str) = .ok (denote26 n ds, ds.length) := by
  induction ds generalizing n with
  | nil => simp [unbase26Digits, hstop, denote26]
  | cons c ds ih =>
    have hc := hds c (by simp)
    have hrest := ih (fun c hc => hds c (by simp [hc]))
      (n * 26 + ofNat 63 (c.toNat - (byte 'A').toNat))
    simp only [List.cons_append, unbase26Digits, if_pos hc, hrest]
    rfl

theorem unbase26_base26 (n : Nat) (hstop : inRange 'A' 'Z' stop = false) (str : Bytes) :
    unbase26 (base26 n ++ stop :: str) = .ok (some (ofNat 63 n, (base26 n).length)) := by
  have hdigits := unbase26Digits_append (fun c (hc : c ∈ base26 n) => (base26_upper hc).1) hstop
    str 0
  rw [denote26_base26] at hdigits
  cases hcons : base26 n with
  | nil =>
    rw [base26_eq] at hcons
    split at hcons
    · cases hcons
    · simp at hcons
  | cons c ds =>
    have hc := base26_upper (n := n) (c := c) (by simp [hcons])
    rw [hcons] at hdigits
    rw [List.cons_append] at hdigits ⊢
    simp only [unbase26, if_neg hc.2, if_pos hc.1, hdigits]
    rfl

/-- A byte at which a scanner of hexadecimal bytes stops. -/
theorem unhexes_append (chunk : Bytes) (hstop : hexValue stop = none) (str : Bytes) :
    unhexes (chunk.flatMap hex ++ stop :: str) = .ok (chunk, 2 * chunk.length) := by
  induction chunk with
  | nil =>
    cases str with
    | nil | cons c str => simp [unhexes, hstop]
  | cons c chunk ih =>
    have hlt : c.toNat < 256 := c.toNat_lt_size
    have h1 := (hexChar_facts (show c.toNat / 16 < 16 by omega)).1
    have h2 := (hexChar_facts (show c.toNat % 16 < 16 by omega)).1
    have hc : UInt8.ofNat (c.toNat / 16 * 16 + c.toNat % 16) = c := by
      rw [Nat.div_add_mod']
      exact UInt8.ofNat_toNat
    simp only [List.flatMap_cons, hex, List.cons_append, List.nil_append, unhexes, h1, h2, ih, hc]
    congr 2

theorem toNat_ofNat (h : n < 2 ^ 62) : (ofNat 63 n).toNat = n := by
  rw [BitVec.toNat_ofNat, Nat.mod_eq_of_lt (by omega)]

theorem toInt_ofNat (h : n < 2 ^ 62) : (ofNat 63 n).toInt = n := by
  rw [BitVec.toInt_eq_toNat_cond, toNat_ofNat h, if_pos (by omega)]

theorem length_hex (chunk : Bytes) : (chunk.flatMap hex).length = 2 * chunk.length := by
  induction chunk with
  | nil => rfl
  | cons c chunk ih =>
    have hc : (hex c).length = 2 := rfl
    rw [List.flatMap_cons, length_append, List.length_cons]
    omega

/-! ## §2 Escaped identifiers -/

/-- What `encode_split_parts` adds to `escaped`. -/
def escapedPart : Bytes → EncodeState → Nat → Bytes
  | [], _, _ => []
  | c :: str, .raw, insPos =>
    if isOutChar c then escapedPart str .raw (insPos + 1)
    else base26 insPos ++ hex c ++ escapedPart str .esc insPos
  | c :: str, .esc, insPos =>
    if isOutChar c then escapedPart str .raw 1 else hex c ++ escapedPart str .esc insPos

theorem encodeSplitParts_eq (str : Bytes) (state : EncodeState) (insPos : Nat)
    (raw escaped : Bytes) :
    encodeSplitParts str state insPos (raw, escaped) =
      (raw ++ str.filter isOutChar, escaped ++ escapedPart str state insPos) := by
  induction str generalizing state insPos raw escaped with
  | nil => simp [encodeSplitParts, escapedPart]
  | cons c str ih =>
    cases state <;> by_cases hc : isOutChar c = true <;>
      simp [encodeSplitParts, escapedPart, hc, ih]

theorem hexValue_upper (h : inRange 'A' 'Z' c = true) : hexValue c = none := by
  simp only [inRange, Bool.and_eq_true, decide_eq_true_eq] at h
  have h1 : 65 ≤ c.toNat := h.1
  have h2 : c.toNat ≤ 90 := h.2
  have hnot : ∀ lo hi, (90 < (byte lo).toNat ∨ (byte hi).toNat < 65) → inRange lo hi c = false := by
    intro lo hi hrange
    simp only [inRange, Bool.and_eq_false_iff, decide_eq_false_iff_not, UInt8.le_iff_toNat_le]
    omega
  simp [hexValue, hnot '0' '9' (by decide), hnot 'a' 'f' (by decide)]

/-- What follows an escaped chunk: a position, or the underscore. -/
theorem escapedPart_raw_head (str : Bytes) (insPos : Nat) (tail : Bytes) :
    ∃ stop rest, escapedPart str .raw insPos ++ byte '_' :: tail = stop :: rest ∧
      hexValue stop = none := by
  induction str generalizing insPos with
  | nil => exact ⟨byte '_', tail, rfl, rfl⟩
  | cons c str ih =>
    by_cases hc : isOutChar c = true
    · simp only [escapedPart, if_pos hc]; exact ih (insPos + 1)
    simp only [escapedPart, if_neg hc]
    cases hcons : base26 insPos with
    | nil =>
      rw [base26_eq] at hcons
      split at hcons
      · cases hcons
      · simp at hcons
    | cons d ds =>
      refine ⟨d, _, rfl, hexValue_upper (base26_upper (n := insPos) (c := d) ?_).1⟩
      simp [hcons]

/-- The maximal chunk of characters to escape, and what remains. -/
theorem escapedPart_esc (str : Bytes) (insPos : Nat) : ∃ chunk, (∀ c ∈ chunk, isOutChar c = false) ∧
      (str = chunk ∧ escapedPart str .esc insPos = chunk.flatMap hex ∨
        ∃ d rest, isOutChar d = true ∧ str = chunk ++ d :: rest ∧
          escapedPart str .esc insPos = chunk.flatMap hex ++ escapedPart rest .raw 1) := by
  induction str with
  | nil => exact ⟨[], by simp, .inl ⟨rfl, rfl⟩⟩
  | cons c str ih =>
    by_cases hc : isOutChar c = true
    · exact ⟨[], by simp, .inr ⟨c, str, hc, rfl, by simp [escapedPart, hc]⟩⟩
    obtain ⟨chunk, hchunk, h⟩ := ih
    have hc' : isOutChar c = false := Bool.eq_false_iff.2 hc
    refine ⟨c :: chunk, by simpa [hc'] using hchunk, ?_⟩
    rcases h with ⟨rfl, h⟩ | ⟨d, rest, hd, rfl, h⟩
    · exact .inl ⟨rfl, by simp [escapedPart, hc', h]⟩
    · exact .inr ⟨d, rest, hd, rfl, by simp [escapedPart, hc', h]⟩

theorem filter_chunk {chunk : Bytes} (h : ∀ c ∈ chunk, isOutChar c = false) :
    chunk.filter isOutChar = [] := by
  rw [List.filter_eq_nil_iff]
  intro c hc
  simp [h c hc]

variable {sym str rest post : Bytes}

/-- One round of the decoder: the pending raw characters, then an escaped chunk. -/
theorem decodeLoop_round {pending raw : Bytes} {rawPos : Nat}
    (hlen : sym.length < 2 ^ 62) (hraw : sym.drop rawPos = pending ++ raw)
    (hpos : rawPos ≤ sym.length) (c : UInt8) (chunk : Bytes) (hstop : hexValue stop = none)
    (str res : Bytes) :
    decodeLoop sym (base26 pending.length ++ (c :: chunk).flatMap hex ++ stop :: str) rawPos res =
      decodeLoop sym (stop :: str) (rawPos + pending.length) (res ++ pending ++ c :: chunk) := by
  have hsum : rawPos + (pending.length + raw.length) = sym.length := by
    have h := congrArg length hraw
    rw [length_drop, length_append] at h
    omega
  have hhex : inRange 'A' 'Z' (hexChar (c.toNat / 16)) = false := by
    have hlt : c.toNat < 256 := c.toNat_lt_size
    by_contra h
    have hnone := hexValue_upper (Bool.of_not_eq_false h)
    rw [(hexChar_facts (show c.toNat / 16 < 16 by omega)).1] at hnone
    cases hnone
  have hbase := unbase26_base26 pending.length hhex
    (hexChar (c.toNat % 16) :: chunk.flatMap hex ++ stop :: str)
  have heq : base26 pending.length ++ (c :: chunk).flatMap hex ++ stop :: str =
      base26 pending.length ++ hexChar (c.toNat / 16) ::
        (hexChar (c.toNat % 16) :: chunk.flatMap hex ++ stop :: str) := by
    simp [hex]
  have hnb := toInt_ofNat (show pending.length < 2 ^ 62 by omega)
  have hnb' := toNat_ofNat (show pending.length < 2 ^ 62 by omega)
  have hadd : (ofNat 63 rawPos + ofNat 63 pending.length).toInt =
      (rawPos + pending.length : Nat) := by
    rw [← ofNat_add, toInt_ofNat (by omega)]
  have hdrop : ∀ n, (base26 pending.length ++ (c :: chunk).flatMap hex ++ stop :: str).drop
      ((base26 pending.length).length + n) = ((c :: chunk).flatMap hex ++ stop :: str).drop n := by
    intro n
    simp
  have hlenif : (if 0 < (ofNat 63 pending.length).toInt then
      (ofNat 63 pending.length).toNat else 0) = pending.length := by
    split <;> lia
  rw [decodeLoop, heq, hbase, ← heq]
  dsimp only
  rw [if_neg (by omega), hnb, if_neg (by omega)]
  have hd0 := hdrop 0
  rw [Nat.add_zero, List.drop_zero] at hd0
  rw [hd0, unhexes_append _ hstop]
  dsimp only
  rw [hdrop, ← length_hex, drop_left]
  rw [hnb] at hlenif
  rw [hlenif, hraw, List.take_left]

theorem decodeLoop_underscore (sym tail : Bytes) (rawPos : Nat) (res : Bytes) :
    decodeLoop sym (byte '_' :: tail) rawPos res = .ok (some (res ++ sym.drop rawPos)) := by
  rw [decodeLoop]
  rfl

/-- `pending` holds the raw characters that wait for the next chunk, or the end. -/
theorem decodeLoop_escapedPart (hlen : sym.length < 2 ^ 62) (tail : Bytes)
    (str pending : Bytes) (rawPos : Nat) (res : Bytes) (hpos : rawPos ≤ sym.length)
    (hraw : sym.drop rawPos = pending ++ str.filter isOutChar) :
    decodeLoop sym (escapedPart str .raw pending.length ++ byte '_' :: tail) rawPos res =
      .ok (some (res ++ pending ++ str)) := by
  induction hn : str.length using Nat.strongRecOn generalizing str pending rawPos res with
  | ind n ih =>
    cases str with
    | nil => rw [escapedPart, List.nil_append, decodeLoop_underscore, hraw]; simp
    | cons c str =>
      rw [List.length_cons] at hn
      by_cases hc : isOutChar c = true
      · have hraw' : sym.drop rawPos = (pending ++ [c]) ++ str.filter isOutChar := by
          rw [hraw, List.filter_cons_of_pos hc]
          simp
        have h := ih str.length (by omega) str (pending ++ [c]) rawPos res hpos hraw' rfl
        rw [length_append] at h
        rw [escapedPart, if_pos hc]
        refine h.trans ?_
        simp
      rw [List.filter_cons_of_neg hc] at hraw
      have hsum : rawPos + (pending.length + (str.filter isOutChar).length) = sym.length := by
        have h := congrArg length hraw
        rw [length_drop, length_append] at h
        omega
      have hdrop : sym.drop (rawPos + pending.length) = str.filter isOutChar := by
        rw [← drop_drop, hraw, drop_left]
      obtain ⟨chunk, hchunk, ⟨rfl, hesc⟩ | ⟨d, rest, hd, rfl, hesc⟩⟩ :=
        escapedPart_esc str pending.length
      · have hround := decodeLoop_round hlen hraw hpos c str
          (show hexValue (byte '_') = none from rfl) tail res
        have heq : escapedPart (c :: str) .raw pending.length ++ byte '_' :: tail =
            base26 pending.length ++ (c :: str).flatMap hex ++ byte '_' :: tail := by
          simp [escapedPart, hc, hesc]
        rw [heq, hround, decodeLoop_underscore, hdrop, filter_chunk hchunk]
        simp
      obtain ⟨stop, next, hnext, hstop⟩ := escapedPart_raw_head rest 1 tail
      have hround := decodeLoop_round hlen hraw hpos c chunk hstop next res
      have heq : escapedPart (c :: (chunk ++ d :: rest)) .raw pending.length ++
          byte '_' :: tail =
            base26 pending.length ++ (c :: chunk).flatMap hex ++ stop :: next := by
        rw [← hnext]
        simp [escapedPart, hc, hesc]
      have hraw' : sym.drop (rawPos + pending.length) = [d] ++ rest.filter isOutChar := by
        rw [hdrop, List.filter_append, filter_chunk hchunk, List.filter_cons_of_pos hd]
        rfl
      have hlt : rest.length < n := by
        rw [← hn, length_append, List.length_cons]
        omega
      have h := ih rest.length hlt rest [d] (rawPos + pending.length)
        (res ++ pending ++ c :: chunk) (by omega) hraw' rfl
      rw [heq, hround, ← hnext]
      refine h.trans ?_
      simp

theorem hex_ne_underscore {b : UInt8} (hc : c ∈ hex b) : c ≠ byte '_' := by
  have hlt : b.toNat < 256 := b.toNat_lt_size
  have h1 := (hexChar_facts (show b.toNat / 16 < 16 by omega)).2
  have h2 := (hexChar_facts (show b.toNat % 16 < 16 by omega)).2
  simp only [hex, mem_cons, List.not_mem_nil, or_false] at hc
  rcases hc with rfl | rfl
  · exact h1
  · exact h2

theorem escapedPart_ne_underscore {state : EncodeState} {insPos : Nat}
    (hc : c ∈ escapedPart str state insPos) : c ≠ byte '_' := by
  induction str generalizing state insPos with
  | nil => cases hc
  | cons a str ih =>
    cases state with
    | raw =>
      rw [escapedPart] at hc
      split at hc
      · exact ih hc
      simp only [List.mem_append] at hc
      rcases hc with (hc | hc) | hc
      · exact (base26_upper hc).2
      · exact hex_ne_underscore hc
      · exact ih hc
    | esc =>
      rw [escapedPart] at hc
      split at hc
      · exact ih hc
      rcases List.mem_append.1 hc with hc | hc
      · exact hex_ne_underscore hc
      · exact ih hc

theorem idxOf?_append_cons {l : Bytes} {a : UInt8} (h : ∀ c ∈ l, c ≠ a) (t : Bytes) :
    (l ++ a :: t).idxOf? a = some l.length := by
  induction l with
  | nil => simp [List.idxOf?_cons]
  | cons c l ih =>
    have hc : (c == a) = false := beq_false_of_ne (h c (by simp))
    simp [List.idxOf?_cons, hc, ih fun c hc => h c (by simp [hc])]

/-- The payload of an escaped identifier. -/
theorem decodeSplitParts_encode (str : Bytes)
    (hlen : (escapedPart str .raw 0).length + (str.filter isOutChar).length + 1 < 2 ^ 62) :
    decodeSplitParts (escapedPart str .raw 0 ++ byte '_' :: str.filter isOutChar) =
      .ok (some str) := by
  have hidx := idxOf?_append_cons (l := escapedPart str .raw 0)
    (fun c hc => escapedPart_ne_underscore hc) (str.filter isOutChar)
  rw [decodeSplitParts, hidx]
  have hdrop : (escapedPart str .raw 0 ++ byte '_' :: str.filter isOutChar).drop
      ((escapedPart str .raw 0).length + 1) = [] ++ str.filter isOutChar := by
    simp
  have hsym : (escapedPart str .raw 0 ++ byte '_' :: str.filter isOutChar).length =
      (escapedPart str .raw 0).length + (str.filter isOutChar).length + 1 := by
    simp
    omega
  exact decodeLoop_escapedPart (by omega) _ str [] _ [] (by omega) hdrop

/-! ## §3 Length-prefixed identifiers -/

theorem takeWhile_digits (n : Nat) (hrest : ∀ c ∈ rest.head?, inRange '0' '9' c = false) :
    (digits n ++ rest).takeWhile (inRange '0' '9') = digits n := by
  have hdigits : ∀ c ∈ digits n, inRange '0' '9' c = true := fun c hc => digits_isDigit hc
  rw [List.takeWhile_append_of_pos hdigits]
  cases rest with
  | nil => simp
  | cons c rest => simp [hrest c rfl]

theorem undecimal_digits (h : n < 2 ^ 62) (hrest : ∀ c ∈ rest.head?, inRange '0' '9' c = false) :
    undecimal (digits n ++ rest) = some (ofNat 63 n, (digits n).length) := by
  have hne := List.length_pos_of_ne_nil (digits_ne_nil n)
  rw [undecimal, takeWhile_digits n hrest, if_neg (by omega), List.take_left,
    intOfStringOpt_digits h, Option.map_some]

/-- An identifier with its flag and its length, anywhere in a symbol. -/
theorem decode_eq {payload : Bytes} (escaped : Bool)
    (hlen : sym.length < 2 ^ 62) (hpos : pos ≤ sym.length) (hpayload : payload ≠ [])
    (hhead : ∀ c ∈ payload.head?, inRange '0' '9' c = false)
    (hsym : sym.drop pos =
      (if escaped then [byte 'u'] else []) ++ digits payload.length ++ payload ++ post) :
    decode sym pos =
      let fullLen := (if escaped then 1 else 0) + (digits payload.length).length + payload.length
      if escaped then
        match decodeSplitParts payload with
        | .ok p => .ok (p.map fun p => (p, fullLen))
        | .error e => .error e
      else .ok (some (payload, fullLen)) := by
  obtain ⟨flag, hflag⟩ : ∃ flag : Bytes, flag = if escaped then [byte 'u'] else [] := ⟨_, rfl⟩
  obtain ⟨flagLen, hflagLen⟩ : ∃ n : Nat, n = if escaped then 1 else 0 := ⟨_, rfl⟩
  have hflagLen' : flag.length = flagLen := by cases escaped <;> simp [hflag, hflagLen]
  rw [← hflag] at hsym
  have hsum : pos + (flagLen + (digits payload.length).length + payload.length + post.length) =
      sym.length := by
    have h := congrArg length hsym
    simp only [length_drop, length_append] at h
    omega
  have hposlen := List.length_pos_of_ne_nil hpayload
  have hdrop : sym.drop (pos + flagLen) = digits payload.length ++ (payload ++ post) := by
    rw [← drop_drop, hsym, ← hflagLen', append_assoc, append_assoc, drop_left]
  have hdrop' : sym.drop (pos + flagLen + (digits payload.length).length) = payload ++ post := by
    rw [← drop_drop, hdrop, drop_left]
  have hisEscaped : ((sym.drop pos).head? == some (byte 'u')) = escaped := by
    rw [hsym, hflag]
    cases escaped with
    | true => rfl
    | false =>
      obtain ⟨d, ds, hds⟩ := List.exists_cons_of_ne_nil (digits_ne_nil payload.length)
      have hd : d ≠ byte 'u' := by
        rintro rfl
        exact absurd (digits_isDigit (n := payload.length) (c := byte 'u') (by simp [hds]))
          (by decide)
      simp [hds, hd]
  have hheadPost : ∀ c ∈ (payload ++ post).head?, inRange '0' '9' c = false := by
    intro c hc
    obtain ⟨d, ds, rfl⟩ := List.exists_cons_of_ne_nil hpayload
    exact hhead c hc
  have hadd : (ofNat 63 pos + (ofNat 63 (flagLen + (digits payload.length).length) +
      ofNat 63 payload.length)).toInt =
        (pos + (flagLen + (digits payload.length).length + payload.length) : Nat) := by
    rw [← ofNat_add, ← ofNat_add, toInt_ofNat (by omega)]
  rw [decode, hisEscaped]
  rw [← hflagLen, hdrop, undecimal_digits (by omega) hheadPost]
  dsimp only
  rw [toInt_ofNat (by omega), toNat_ofNat (by omega), if_neg (by omega), if_neg (by omega),
    hdrop', List.take_left]
  all_goals rfl

theorem decode_encode (hlen : sym.length < 2 ^ 62)
    (hpos : pos ≤ sym.length) (hne : str ≠ []) (hsym : sym.drop pos = encode str ++ post) :
    decode sym pos = .ok (some (str, (encode str).length)) := by
  have hlenle : (encode str).length ≤ sym.length := by
    have h := congrArg length hsym
    rw [length_drop, length_append] at h
    omega
  by_cases hesc : requireEscaping str = true
  · have hencode : encode str = byte 'u' ::
        digits ((escapedPart str .raw 0).length + (str.filter isOutChar).length + 1) ++
          escapedPart str .raw 0 ++ byte '_' :: str.filter isOutChar := by
      simp [encode, hesc, encodeSplitParts_eq]
    obtain ⟨payload, hpayload⟩ : ∃ payload, payload =
      escapedPart str .raw 0 ++ byte '_' :: str.filter isOutChar := ⟨_, rfl⟩
    have hplen : payload.length =
        (escapedPart str .raw 0).length + (str.filter isOutChar).length + 1 := by
      rw [hpayload, length_append, List.length_cons, Nat.add_assoc]
    have hencode' : encode str = [byte 'u'] ++ digits payload.length ++ payload := by
      rw [hencode, hplen, hpayload]
      simp
    have hpne : payload ≠ [] := by
      rw [hpayload]
      simp
    have hhead : ∀ c ∈ payload.head?, inRange '0' '9' c = false := by
      obtain ⟨stop, rest, hstop, hnone⟩ := escapedPart_raw_head str 0 (str.filter isOutChar)
      rw [hpayload, hstop]
      rintro c hc
      rw [← Option.some.inj hc]
      by_contra h
      simp [hexValue, Bool.of_not_eq_false h] at hnone
    have hsym' : sym.drop pos = (if true then [byte 'u'] else []) ++ digits payload.length ++
        payload ++ post := by
      rw [hsym, hencode']
      rfl
    have heq := decode_eq true hlen hpos hpne hhead hsym'
    have hlt : payload.length < 2 ^ 62 := by
      rw [hencode'] at hlenle
      simp only [length_append] at hlenle
      omega
    have hdecode := decodeSplitParts_encode str (by omega)
    rw [← hpayload] at hdecode
    rw [heq]
    rw [hdecode, hencode']
    simp only [Option.map_some, length_append, List.length_singleton, if_true]
  have hencode : encode str = digits str.length ++ str := by simp [encode, hesc]
  have hhead : ∀ c ∈ str.head?, inRange '0' '9' c = false := by
    cases str with
    | nil => simp
    | cons d str =>
      rintro c hc
      rw [← Option.some.inj hc]
      simp only [requireEscaping, Bool.or_eq_true, not_or, Bool.not_eq_true] at hesc
      exact hesc.1
  have hsym' : sym.drop pos = (if false then [byte 'u'] else []) ++ digits str.length ++
      str ++ post := by
    rw [hsym, hencode]
    rfl
  have heq := decode_eq false hlen hpos hne hhead hsym'
  rw [heq, hencode]
  simp

/-! ## §4 Paths -/

theorem rsplit_eq_none {loc : Bytes} (h : ∀ c ∈ loc, c ≠ byte '_') : rsplit loc = none := by
  induction loc with
  | nil => rfl
  | cons c loc ih =>
    have hc := h c (by simp)
    simp [rsplit, ih fun c hc => h c (by simp [hc]), hc]

theorem rsplit_append (before : Bytes) {after : Bytes} (h : ∀ c ∈ after, c ≠ byte '_') :
    rsplit (before ++ byte '_' :: after) = some (before, after) := by
  induction before with
  | nil => simp [rsplit, rsplit_eq_none h]
  | cons c before ih => simp [rsplit, ih]

theorem formatInt_ne_underscore (n : OcamlInt) : ∀ c ∈ formatInt n, c ≠ byte '_' := by
  have hdigits : ∀ m, ∀ c ∈ digits m, c ≠ byte '_' := by
    rintro m c hc rfl
    exact absurd (digits_isDigit hc) (by decide)
  intro c hc
  rw [formatInt] at hc
  split at hc
  · rcases mem_cons.1 hc with rfl | hc
    · decide
    · exact hdigits _ c hc
  · exact hdigits _ c hc

theorem parseLocation_location (line col : OcamlInt) {fileOpt : Option Bytes}
    (h : fileOpt ≠ some []) :
    parseLocation (location line col fileOpt) = some (line, col, fileOpt) := by
  have hfile : (if fileOpt.getD [] = [] then none else some (fileOpt.getD [])) = fileOpt := by
    cases fileOpt with
    | none => rfl
    | some file => have hne : file ≠ [] := fun h' => h (congrArg some h'); simp [hne]
  rw [parseLocation, location, rsplit_append _ (formatInt_ne_underscore col)]
  simp only [Option.bind_eq_bind, Option.bind_some]
  rw [rsplit_append _ (formatInt_ne_underscore line)]
  simp only [Option.bind_some, intOfStringOpt_formatInt, hfile]
  rfl

end Parse

/-- The item with another description of its compilation unit. -/
def PathItem.map {α β : Type} (f : α → β) : PathItem α → PathItem β
  | .compilationUnit cu => .compilationUnit (f cu)
  | .inlineMarker => .inlineMarker
  | .module sym => .module sym
  | .anonymousModule line col fileOpt => .anonymousModule line col fileOpt
  | .class sym => .class sym
  | .function sym => .function sym
  | .anonymousFunction line col fileOpt => .anonymousFunction line col fileOpt
  | .partialFunction line col fileOpt => .partialFunction line col fileOpt

/-- Names and file names are not empty. -/
def PathItem.WellFormed {cu : Type} (linkageName : cu → Bytes) : PathItem cu → Prop
  | .compilationUnit cu => linkageName cu ≠ []
  | .inlineMarker => True
  | .module sym => sym ≠ []
  | .class sym => sym ≠ []
  | .function sym => sym ≠ []
  | .anonymousModule _ _ fileOpt => fileOpt ≠ some []
  | .anonymousFunction _ _ fileOpt => fileOpt ≠ some []
  | .partialFunction _ _ fileOpt => fileOpt ≠ some []

namespace Parse

section

variable {cu : Type} {linkageName : cu → Bytes} {sym : Bytes} (hlen : sym.length < 2 ^ 62)

include hlen

theorem parseNamed_encode {pos : Nat} {str post : Bytes} (hpos : pos ≤ sym.length)
    (hne : str ≠ []) (hsym : sym.drop pos = encode str ++ post)
    (tagConstructor : Bytes → PathItem Bytes) :
    parseNamed sym pos tagConstructor = .ok (some (tagConstructor str, (encode str).length)) := by
  rw [parseNamed, decode_encode hlen hpos hne hsym]
  rfl

theorem parseLoc_encode {pos : Nat} {line col : OcamlInt} {fileOpt : Option Bytes} {post : Bytes}
    (hpos : pos ≤ sym.length) (hfile : fileOpt ≠ some [])
    (hsym : sym.drop pos = encode (location line col fileOpt) ++ post)
    (tagConstructor : OcamlInt → OcamlInt → Option Bytes → PathItem Bytes) :
    parseLoc sym pos tagConstructor = .ok (some (tagConstructor line col fileOpt,
        (encode (location line col fileOpt)).length)) := by
  have hne : location line col fileOpt ≠ [] := by simp [location]
  rw [parseLoc, decode_encode hlen hpos hne hsym]
  dsimp only
  rw [parseLocation_location line col hfile]
  rfl

/-- Each item is read back, with its length. -/
theorem parseItem_mangle {pos : Nat} {item : PathItem cu} {post : Bytes} (hpos : pos < sym.length)
    (hitem : item.WellFormed linkageName)
    (hsym : sym.drop pos = manglePathItem linkageName item ++ post) :
    ∃ l, (manglePathItem linkageName item).length = 1 + l ∧
      parseItem sym pos sym[pos] = some (.ok (some (item.map linkageName, l))) := by
  have hcons := List.drop_eq_getElem_cons hpos
  rw [hcons] at hsym
  cases item with
  | inlineMarker =>
    refine ⟨0, rfl, ?_⟩
    rw [(List.cons.inj hsym).1]
    rfl
  | compilationUnit cu =>
    obtain ⟨htag, hrest⟩ := List.cons.inj hsym
    refine ⟨(encode (linkageName cu)).length, Nat.add_comm _ 1, ?_⟩
    rw [htag]
    exact congrArg some (parseNamed_encode hlen hpos hitem hrest .compilationUnit)
  | module str =>
    obtain ⟨htag, hrest⟩ := List.cons.inj hsym
    refine ⟨(encode str).length, Nat.add_comm _ 1, ?_⟩
    rw [htag]
    exact congrArg some (parseNamed_encode hlen hpos hitem hrest .module)
  | «class» str =>
    obtain ⟨htag, hrest⟩ := List.cons.inj hsym
    refine ⟨(encode str).length, Nat.add_comm _ 1, ?_⟩
    rw [htag]
    exact congrArg some (parseNamed_encode hlen hpos hitem hrest .class)
  | function str =>
    obtain ⟨htag, hrest⟩ := List.cons.inj hsym
    refine ⟨(encode str).length, Nat.add_comm _ 1, ?_⟩
    rw [htag]
    exact congrArg some (parseNamed_encode hlen hpos hitem hrest .function)
  | anonymousModule line col fileOpt =>
    obtain ⟨htag, hrest⟩ := List.cons.inj hsym
    refine ⟨(encode (location line col fileOpt)).length, Nat.add_comm _ 1, ?_⟩
    rw [htag]
    exact congrArg some (parseLoc_encode hlen hpos hitem hrest .anonymousModule)
  | anonymousFunction line col fileOpt =>
    obtain ⟨htag, hrest⟩ := List.cons.inj hsym
    refine ⟨(encode (location line col fileOpt)).length, Nat.add_comm _ 1, ?_⟩
    rw [htag]
    exact congrArg some (parseLoc_encode hlen hpos hitem hrest .anonymousFunction)
  | partialFunction line col fileOpt =>
    obtain ⟨htag, hrest⟩ := List.cons.inj hsym
    refine ⟨(encode (location line col fileOpt)).length, Nat.add_comm _ 1, ?_⟩
    rw [htag]
    exact congrArg some (parseLoc_encode hlen hpos hitem hrest .partialFunction)

theorem parseLoop_mangle {suffix : Bytes} (hsuffix : ∀ c ∈ suffix.head?, c = byte '_')
    {startPos : Nat} (path : List (PathItem cu)) (acc : List (PathItem Bytes)) (pos : Nat)
    (hpath : ∀ item ∈ path, item.WellFormed linkageName) (hpos : pos ≤ sym.length)
    (hstart : startPos < pos ∨ startPos = pos ∧ path ≠ [])
    (hsym : sym.drop pos = manglePath linkageName path ++ suffix) :
    parseLoop sym startPos acc pos =
      .ok (some (acc.reverse ++ path.map (PathItem.map linkageName), suffix)) := by
  induction path generalizing acc pos with
  | nil =>
    have hne : pos ≠ startPos := by
      rcases hstart with h | h
      · omega
      · exact absurd rfl h.2
    have hsym' : sym.drop pos = suffix := hsym
    rw [parseLoop]
    split
    · rename_i hlt
      have htag : sym[pos] = byte '_' := by
        rw [List.drop_eq_getElem_cons hlt] at hsym'
        exact hsuffix _ (by rw [← hsym']; rfl)
      have hitem : parseItem sym pos sym[pos] = none := by
        rw [htag]
        rfl
      simp [hitem, if_pos htag, hsym']
    · simp [hsym']
  | cons item path ih =>
    have hsym' : sym.drop pos = manglePathItem linkageName item ++
        (manglePath linkageName path ++ suffix) := by
      rw [hsym, manglePath, List.flatMap_cons, append_assoc]
      rfl
    have hlength : (manglePathItem linkageName item).length ≤ sym.length - pos := by
      have h := congrArg length hsym'
      rw [length_drop, length_append] at h
      omega
    have hitemne : 0 < (manglePathItem linkageName item).length := by
      cases item <;> exact Nat.succ_pos _
    have hlt : pos < sym.length := by omega
    obtain ⟨l, hl, hitem⟩ := parseItem_mangle hlen hlt (hpath item (by simp)) hsym'
    have hdrop : sym.drop (pos + 1 + l) = manglePath linkageName path ++ suffix := by
      rw [Nat.add_assoc, ← hl, ← drop_drop, hsym', drop_left]
    have hrest := ih (item.map linkageName :: acc) (pos + 1 + l)
      (fun item hitem => hpath item (by simp [hitem])) (by omega) (by omega) hdrop
    rw [parseLoop, dif_pos hlt]
    simp only [hitem]
    rw [hrest]
    simp

end

theorem matchedPrefixLen_append {start : Bytes}
    (hstart : start = ocamlPrefix ∨ start = alternatePrefix) (rest : Bytes) :
    matchedPrefixLen (start ++ rest) = some start.length := by
  rcases hstart with rfl | rfl <;> rfl

/-- A symbol is parsed to the items and the suffix it was made from. -/
theorem parse_mangle {cu : Type} {linkageName : cu → Bytes} {start : Bytes}
    (hstart : start = ocamlPrefix ∨ start = alternatePrefix) {path : List (PathItem cu)}
    (hne : path ≠ []) (hpath : ∀ item ∈ path, item.WellFormed linkageName) {suffix : Bytes}
    (hsuffix : ∀ c ∈ suffix.head?, c = byte '_')
    (hlen : (start ++ manglePath linkageName path ++ suffix).length ≤ maxStringLength) :
    parse (start ++ manglePath linkageName path ++ suffix) =
      .ok (some (path.map (PathItem.map linkageName), suffix)) := by
  have hlen' : (start ++ manglePath linkageName path ++ suffix).length < 2 ^ 62 :=
    Nat.lt_of_le_of_lt hlen (by decide)
  have hdrop : (start ++ manglePath linkageName path ++ suffix).drop start.length =
      manglePath linkageName path ++ suffix := by
    rw [append_assoc, drop_left]
  have hpos : start.length ≤ (start ++ manglePath linkageName path ++ suffix).length := by
    rw [append_assoc, length_append]
    omega
  rw [parse, append_assoc, matchedPrefixLen_append hstart, ← append_assoc]
  exact parseLoop_mangle hlen' hsuffix path [] start.length hpath hpos (.inr ⟨rfl, hne⟩) hdrop

theorem parse_mangleIdent {cu : Type} [DecidableEq cu] {linkageName : cu → Bytes} {unit : cu}
    {path : List (PathItem cu)} (hunit : linkageName unit ≠ [])
    (hpath : ∀ item ∈ path, item.WellFormed linkageName)
    (hlen : (mangleIdent linkageName unit path).length ≤ maxStringLength) :
    parse (mangleIdent linkageName unit path) =
      .ok (some ((identPath unit path).map (PathItem.map linkageName), [])) := by
  have hident : ∀ item ∈ identPath unit path, item.WellFormed linkageName := by
    intro item hitem
    rcases mem_cons.1 hitem with rfl | hitem
    · exact hunit
    split at hitem
    · split at hitem
      · exact hpath item (List.mem_cons_of_mem _ hitem)
      rcases mem_cons.1 hitem with rfl | hitem
      · trivial
      · exact hpath item hitem
    · exact hpath item hitem
  rw [mangleIdent, ← List.append_nil (ocamlPrefix ++ _)] at hlen ⊢
  exact parse_mangle (.inl rfl) (List.cons_ne_nil _ _) hident (by simp) hlen

end Parse

/-- Structured symbols round-trip: parsing returns the items and the suffix, and so
mangling is injective. -/
theorem manglePath_roundTrip {cu : Type} (linkageName : cu → Bytes) (start : Bytes)
    (hstart : start = ocamlPrefix ∨ start = Parse.alternatePrefix) (path : List (PathItem cu))
    (hne : path ≠ []) (hpath : ∀ item ∈ path, item.WellFormed linkageName) (suffix : Bytes)
    (hsuffix : suffix = [] ∨ suffix.head? = some (byte '_'))
    (hlen : (start ++ manglePath linkageName path ++ suffix).length ≤ maxStringLength) :
    Parse.parse (start ++ manglePath linkageName path ++ suffix) =
      .ok (some (path.map (PathItem.map linkageName), suffix)) ∧
    ∀ path', path' ≠ [] → (∀ item ∈ path', item.WellFormed linkageName) →
      manglePath linkageName path' = manglePath linkageName path →
      path'.map (PathItem.map linkageName) = path.map (PathItem.map linkageName) := by
  have hsuffix' : ∀ c ∈ suffix.head?, c = byte '_' := by
    rintro c hc
    rcases hsuffix with rfl | h
    · cases hc
    · exact (Option.some.inj (h.symm.trans hc)).symm
  have hparse := Parse.parse_mangle hstart hne hpath hsuffix' hlen
  refine ⟨hparse, fun path' hne' hpath' heq => ?_⟩
  rw [← heq] at hlen hparse
  have hparse' := Parse.parse_mangle hstart hne' hpath' hsuffix' hlen
  rw [hparse] at hparse'
  injection hparse' with hsome
  injection hsome with hpair
  exact (congrArg Prod.fst hpair).symm

theorem manglePath_roundTrip_operator :
    Parse.parse (ocamlPrefix ++ manglePath id [.compilationUnit (literal "M"),
        .function (literal ">>=")] ++ literal "_1") =
      .ok (some ([.compilationUnit (literal "M"), .function (literal ">>=")], literal "_1")) :=
  (manglePath_roundTrip id ocamlPrefix (.inl rfl)
    [.compilationUnit (literal "M"), .function (literal ">>=")] (by simp)
    (by simp [PathItem.WellFormed, literal]) (literal "_1") (.inr rfl) (by decide +kernel)).1

end Oxcaml.Utils.StructuredMangling
