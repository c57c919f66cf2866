/-
Oxcaml.Backend.ListTablesTheorems — where the indices of a table of lists lead.

The lists of a table are kept, and emitted, with the last one first, whereas the offset of
a list counts the lists that were added before it. So the entry at index `i` of the offset
array is the sum of the sizes of the first lists, and the list whose addition returned `i`
stands behind as many of the last ones: the two agree for every index if and only if the
sizes of the lists are the same in both orders.
-/
import Oxcaml.Backend.ListTables
import Oxcaml.Backend.DwarfSizes

set_option linter.all false

namespace Oxcaml.Backend.ListTables

open List (getElem?_eq_getElem getElem?_map map_cons mem_cons)
open DwarfInt (num)

open AsmDirectives DwarfSizes
open Lib (bind_eq_ok)

variable {π : Type} {env : Env} {kind : ListKind π} {dwarfSection : DwarfSection}

/-! ## §1 Labels in what is emitted -/

/-- The number of bytes in front of the definition of a label. -/
def positionOf (lbl : AsmLabel) : Block → Option ℕ
  | [] => none
  | .newLabel l :: block => if l = lbl then some 0 else positionOf lbl block
  | d :: block => (positionOf lbl block).map (d.numBytes + ·)

/-- What follows the definition of a label. -/
def afterLabel (lbl : AsmLabel) : Block → Block
  | [] => []
  | .newLabel l :: block => if l = lbl then block else afterLabel lbl block
  | _ :: block => afterLabel lbl block

/-- The number at an index of the offset array, which follows the base label. -/
def offsetEntry (baseAddr : AsmLabel) (i : ℕ) (block : Block) : Option ℤ :=
  match (afterLabel baseAddr block)[i]? with
  | some (.const (.signedInt offset) _) => some offset
  | _ => none

variable (env kind) in
/-- The index leads to the list: relative to the base label, the entry of the offset array
is the distance of the first byte of the list, where the label is defined too. -/
def Resolves (baseAddr : AsmLabel) (list : List (LocatedEntry π)) (index : Index)
    (block : Block) : Prop :=
  ∃ base offset before listBlock rest, positionOf baseAddr block = some base ∧
    offsetEntry baseAddr index.index block = some offset ∧
    block = before ++ .newLabel index.label :: (listBlock ++ rest) ∧
    positionOf index.label block = some (numBytes before) ∧
    (locationOrRangeList env kind).emit list = .ok listBlock ∧
    (base : ℤ) + offset = numBytes before

def labelsOf : Block → List AsmLabel
  | [] => []
  | .newLabel l :: block => l :: labelsOf block
  | _ :: block => labelsOf block

@[simp] theorem labelsOf_append (a b : Block) : labelsOf (a ++ b) = labelsOf a ++ labelsOf b := by
  induction a with
  | nil => rfl
  | cons d a ih => cases d <;> simp [labelsOf, ih]

@[simp] theorem numBytes_append (a b : Block) : numBytes (a ++ b) = numBytes a + numBytes b := by
  simp [numBytes]

@[simp] theorem numBytes_cons (d : Directive) (b : Block) :
    numBytes (d :: b) = d.numBytes + numBytes b := by
  simp [numBytes]

variable {lbl : AsmLabel}

theorem positionOf_append {a : Block} (h : lbl ∉ labelsOf a) (b : Block) :
    positionOf lbl (a ++ .newLabel lbl :: b) = some (numBytes a) := by
  induction a with
  | nil => simp [positionOf, numBytes]
  | cons d a ih =>
    cases d with
    | newLabel l =>
      simp only [labelsOf, mem_cons, not_or] at h
      rw [List.cons_append, positionOf, if_neg (Ne.symm h.1), ih h.2]
      simp [Directive.numBytes]
    | _ => simp [positionOf, ih h]

theorem afterLabel_append {a : Block} (h : lbl ∉ labelsOf a) (b : Block) :
    afterLabel lbl (a ++ .newLabel lbl :: b) = b := by
  induction a with
  | nil => simp [afterLabel]
  | cons d a ih =>
    cases d with
    | newLabel l =>
      simp only [labelsOf, mem_cons, not_or] at h
      rw [List.cons_append, afterLabel, if_neg (Ne.symm h.1), ih h.2]
    | _ => simp [afterLabel, ih h]

/-! ## §2 The emission of a table -/

variable {block : Block}

theorem emitSeq_cons_eq_ok {emission : Emission} {emissions : List Emission} :
    emitSeq (emission :: emissions) = .ok block ↔
      ∃ first rest, emission = .ok first ∧ emitSeq emissions = .ok rest ∧
        block = first ++ rest := by
  constructor
  · intro h
    obtain ⟨first, hfirst, h⟩ := bind_eq_ok.1 h
    obtain ⟨rest, hrest, h⟩ := bind_eq_ok.1 h
    cases h
    exact ⟨first, rest, hfirst, hrest, rfl⟩
  intro h
  obtain ⟨first, rest, hfirst, hrest, rfl⟩ := h
  rw [emitSeq, hfirst]
  rw [hrest]
  rfl

theorem emitIter_append_eq_ok {α : Type} {f : α → Emission} {l l' : List α}
    (h : emitIter f (l ++ l') = .ok block) :
    ∃ b b', emitIter f l = .ok b ∧ emitIter f l' = .ok b' ∧ block = b ++ b' := by
  induction l generalizing block with
  | nil => exact ⟨[], block, rfl, h, rfl⟩
  | cons x l ih =>
    obtain ⟨first, rest, hfirst, hrest, rfl⟩ := emitSeq_cons_eq_ok.1 h
    obtain ⟨b, b', hb, hb', rfl⟩ := ih hrest
    exact ⟨first ++ b, b', emitSeq_cons_eq_ok.2 ⟨first, b, hfirst, hb, rfl⟩, hb',
      (List.append_assoc _ _ _).symm⟩

theorem defineLabel_eq_ok (h : defineLabel env lbl = .ok block) : block = [.newLabel lbl] := by
  unfold defineLabel at h
  split_ifs at h
  cases h
  rfl

theorem const_eq_ok {e : Expr} {width : WidthInBytes}
    (h : const e width = .ok block) : block = [.const e width] := by
  cases h
  rfl

theorem num_emit (i : ℤ) :
    (num env i).emit = .ok [.const (.signedInt i) env.gdwarfFormat.width] := by
  unfold num
  cases env.gdwarfFormat <;> rfl

theorem initialLength_labelless {t : DwarfInt}
    (h : (initialLength env).emit t = .ok block) : labelsOf block = [] := by
  have hemit : ∀ b, t.emit = .ok b → labelsOf b = [] := by
    intro b hb
    cases t <;> cases hb <;> rfl
  unfold initialLength at h
  cases hformat : env.gdwarfFormat with
  | thirtyTwo => simp only [hformat] at h; exact hemit block h
  | sixtyFour =>
    simp only [hformat] at h
    obtain ⟨first, rest, hfirst, hrest, rfl⟩ := emitSeq_cons_eq_ok.1 h
    obtain ⟨b, rest, hb, hnil, rfl⟩ := emitSeq_cons_eq_ok.1 hrest
    cases hfirst
    cases hnil
    simp [labelsOf, hemit b hb]

/-- The emission of one list with its label. -/
def emitLabelled (env : Env) (kind : ListKind π) (one : OneList π) : Emission :=
  emitSeq [defineLabel env one.label, (locationOrRangeList env kind).emit one.list]

variable {t : ListTable π}

theorem emit_eq_ok (hoffsets : env.gdwarfOffsets = true)
    (h : (listTable env kind).emit t = .ok block) :
    ∃ header offsets body, block = header ++ .newLabel t.baseAddr :: (offsets ++ body) ∧
      labelsOf header = [] ∧ emitOffsets env t = .ok offsets ∧
        emitIter (emitLabelled env kind) t.lists = .ok body := by
  obtain ⟨length, -, h⟩ := bind_eq_ok.1 h
  obtain ⟨b0, rest, hb0, hrest, rfl⟩ := emitSeq_cons_eq_ok.1 h
  obtain ⟨b, rest, hb, hnil, rfl⟩ := emitSeq_cons_eq_ok.1 hrest
  cases hnil
  obtain ⟨count, -, hb⟩ := bind_eq_ok.1 hb
  rw [if_pos hoffsets] at hb
  obtain ⟨b1, r1, hb1, hr1, rfl⟩ := emitSeq_cons_eq_ok.1 hb
  obtain ⟨b2, r2, hb2, hr2, rfl⟩ := emitSeq_cons_eq_ok.1 hr1
  obtain ⟨b3, r3, hb3, hr3, rfl⟩ := emitSeq_cons_eq_ok.1 hr2
  obtain ⟨b4, r4, hb4, hr4, rfl⟩ := emitSeq_cons_eq_ok.1 hr3
  obtain ⟨b5, r5, hb5, hr5, rfl⟩ := emitSeq_cons_eq_ok.1 hr4
  obtain ⟨offsets, r6, hoff, hr6, rfl⟩ := emitSeq_cons_eq_ok.1 hr5
  obtain ⟨body, r7, hbody, hr7, rfl⟩ := emitSeq_cons_eq_ok.1 hr6
  cases hr7
  cases const_eq_ok hb1
  cases const_eq_ok hb2
  cases const_eq_ok hb3
  cases const_eq_ok hb4
  cases defineLabel_eq_ok hb5
  refine ⟨b0 ++ ([.const (.signedInt 5) .sixteen,
    .const (.unsignedInt DwarfOperator.sizeAddr) .eight, .const (.unsignedInt 0) .eight,
    .const (.unsignedInt count) .thirtyTwo] : List Directive), offsets, body, ?_, ?_, hoff, hbody⟩
  · simp [DwarfVersion.code]
  · simp [labelsOf, initialLength_labelless hb0]

/-! ## §3 The offset array and the lists -/

/-- The number of bytes of a list, by its size function. -/
def bytesOf (env : Env) (kind : ListKind π) (list : List (LocatedEntry π)) : ℤ :=
  match (locationOrRangeList env kind).size list with
  | .ok n => n.toInt64
  | .error _ => 0

theorem offsetIter_eq_ok {size : DwarfInt} {lists : List (OneList π)}
    (h : emitIter (fun (one : OneList π) => do
      let offset ← DwarfInt.add env size one.offsetFromFirstList
      offset.emit) lists = .ok block) :
    block = lists.map fun one => .const
      (.signedInt (size.toInt64 + one.offsetFromFirstList.toInt64)) env.gdwarfFormat.width := by
  induction lists generalizing block with
  | nil => cases h; rfl
  | cons one lists ih =>
    obtain ⟨first, rest, hfirst, hrest, rfl⟩ := emitSeq_cons_eq_ok.1 h
    obtain ⟨offset, hadd, hemit⟩ := bind_eq_ok.1 hfirst
    rw [add_eq_ok hadd, num_emit] at hemit
    cases hemit
    rw [ih hrest]
    rfl

theorem emitOffsets_eq_ok {offsets : Block} (hoffsets : env.gdwarfOffsets = true)
    (h : emitOffsets env t = .ok offsets) :
    offsets = t.lists.map fun one => .const
      (.signedInt (numBytes offsets + one.offsetFromFirstList.toInt64)) env.gdwarfFormat.width := by
  obtain ⟨size, hsize, hiter⟩ := bind_eq_ok.1 h
  have hbytes : size.toInt64 = numBytes offsets :=
    takes_offsets hoffsets ⟨offsets, h, rfl⟩ ⟨size, hsize, rfl⟩
  rw [← hbytes]
  exact offsetIter_eq_ok hiter

theorem labelsOf_consts {α : Type} (l : List α) (e : α → Expr) (width : WidthInBytes) :
    labelsOf (l.map fun x => .const (e x) width) = [] := by
  induction l with
  | nil => rfl
  | cons x l ih => exact ih

variable {lists : List (OneList π)} {body : Block}

/-- The emission of no list defines a label. -/
def Labelless (env : Env) (kind : ListKind π) (list : List (LocatedEntry π)) : Prop :=
  ∀ block, (locationOrRangeList env kind).emit list = .ok block → labelsOf block = []

/-- The lists are emitted with the sizes that their size function gives. -/
def Sizeable (env : Env) (kind : ListKind π) (list : List (LocatedEntry π)) : Prop :=
  Agrees 0 0 ((locationOrRangeList env kind).size list) ((locationOrRangeList env kind).emit list)

variable {one : OneList π}

theorem emitLabelled_eq_ok (h : emitLabelled env kind one = .ok block) :
    ∃ listBlock, (locationOrRangeList env kind).emit one.list = .ok listBlock ∧
      block = .newLabel one.label :: listBlock := by
  obtain ⟨first, rest, hfirst, hrest, rfl⟩ := emitSeq_cons_eq_ok.1 h
  obtain ⟨listBlock, rest, hlist, hnil, rfl⟩ := emitSeq_cons_eq_ok.1 hrest
  cases hnil
  cases defineLabel_eq_ok hfirst
  exact ⟨listBlock, hlist, by simp⟩

section

variable (h : emitIter (emitLabelled env kind) lists = .ok body)
include h

theorem labelsOf_body
    (hlabelless : ∀ one ∈ lists, Labelless env kind one.list) :
    labelsOf body = lists.map (·.label) := by
  induction lists generalizing body with
  | nil => cases h; rfl
  | cons one lists ih =>
    obtain ⟨first, rest, hfirst, hrest, rfl⟩ := emitSeq_cons_eq_ok.1 h
    obtain ⟨listBlock, hlist, rfl⟩ := emitLabelled_eq_ok hfirst
    have htail := ih hrest fun one' hmem => hlabelless one' (List.mem_cons_of_mem _ hmem)
    simp [labelsOf, hlabelless one List.mem_cons_self listBlock hlist, htail]

theorem numBytes_body
    (hsized : ∀ one ∈ lists, Sizeable env kind one.list ∧
      ∃ n, (locationOrRangeList env kind).size one.list = .ok n) :
    (numBytes body : ℤ) = (lists.map fun one => bytesOf env kind one.list).sum := by
  induction lists generalizing body with
  | nil => cases h; rfl
  | cons one lists ih =>
    obtain ⟨first, rest, hfirst, hrest, rfl⟩ := emitSeq_cons_eq_ok.1 h
    obtain ⟨listBlock, hlist, rfl⟩ := emitLabelled_eq_ok hfirst
    obtain ⟨hagrees, n, hn⟩ := hsized one List.mem_cons_self
    have hone := hagrees n.toInt64 (numBytes listBlock) ⟨n, hn, rfl⟩ ⟨listBlock, hlist, rfl⟩
    have htail := ih hrest fun one' hmem => hsized one' (List.mem_cons_of_mem _ hmem)
    simp only [map_cons, List.sum_cons, bytesOf, hn, numBytes_append, numBytes_cons,
      Directive.numBytes]
    push_cast
    rw [htail]
    simp only [bytesOf]
    omega

end

/-! ## §4 Additions -/

variable {c : ℤ}

theorem eq_num_of_add {n next : DwarfInt} (h : DwarfInt.add env n (num env c) = .ok next) :
    n = num env n.toInt64 := by
  unfold num at h ⊢
  cases hformat : env.gdwarfFormat with
  | thirtyTwo =>
    cases n with
    | thirtyTwo i => rfl
    | sixtyFour i => rw [hformat] at h; cases h
  | sixtyFour =>
    cases n with
    | thirtyTwo i => rw [hformat] at h; cases h
    | sixtyFour i => rfl

theorem add_step {t t' : Table π} {list : List (LocatedEntry π)} {counter counter' : ℕ}
    {index : Index} (hc : t.currentOffsetFromFirstList = num env c)
    (h : add env kind dwarfSection t list counter = .ok (t', index, counter')) :
    ∃ z, (locationOrRangeList env kind).size list = .ok (num env z) ∧
      t' = ⟨t.baseAddr, t.numLists + 1, num env (c + z),
        ⟨list, num env c, ⟨.dwarf dwarfSection, counter⟩⟩ :: t.lists⟩ ∧
      index = ⟨⟨.dwarf dwarfSection, counter⟩, t.numLists⟩ ∧ counter' = counter + 1 := by
  obtain ⟨next, hsum, heq⟩ := bind_eq_ok.1 h
  obtain ⟨n, hn, hsum⟩ := bind_eq_ok.1 hsum
  rw [hc] at hsum
  have hadd : DwarfInt.add env n (num env c) = .ok next := hsum
  have hnum := eq_num_of_add hadd
  refine ⟨n.toInt64, by rw [hn, ← hnum], ?_⟩
  have hnext := add_eq_ok hadd
  rw [num_toInt64, add_comm] at hnext
  rw [hc, hnext] at heq
  cases heq
  exact ⟨rfl, rfl, rfl⟩

variable (env kind dwarfSection) in
/-- What additions from a table with `k` lists and `c` bytes have put in front of it. -/
structure Filled (counter k : ℕ) (c : ℤ) (additions : List (ℕ × List (LocatedEntry π)))
    (ones : List (OneList π)) (indexes : List Index) : Prop where
  lists : ones.map (·.list) = additions.map (·.2)
  indexes : indexes = (ones.zipIdx k).map fun p => ⟨p.1.label, p.2⟩
  fresh : ∀ one ∈ ones, ∃ n, one.label = ⟨.dwarf dwarfSection, n⟩ ∧ counter ≤ n
  distinct : (ones.map (·.label)).Nodup
  offsets : ∀ i one, ones[i]? = some one → one.offsetFromFirstList.toInt64 =
    c + ((ones.map fun one => bytesOf env kind one.list).take i).sum
  sizes : ∀ one ∈ ones, ∃ z, (locationOrRangeList env kind).size one.list = .ok (num env z)

theorem addAll_filled {t t' : Table π} {counter : ℕ}
    {additions : List (ℕ × List (LocatedEntry π))} {indexes : List Index}
    (hc : t.currentOffsetFromFirstList = num env c)
    (h : addAll env kind dwarfSection t counter additions = .ok (t', indexes)) :
    ∃ ones, t'.lists = ones.reverse ++ t.lists ∧ t'.baseAddr = t.baseAddr ∧
      Filled env kind dwarfSection counter t.numLists c additions ones indexes := by
  induction additions generalizing t counter c indexes with
  | nil => cases h; exact ⟨[], rfl, rfl, rfl, rfl, by simp, .nil, by simp, by simp⟩
  | cons p rest ih =>
    obtain ⟨otherLabels, list⟩ := p
    obtain ⟨⟨t1, index, counter1⟩, hadd, h⟩ := bind_eq_ok.1 h
    obtain ⟨⟨t2, indexes2⟩, hrest, h⟩ := bind_eq_ok.1 h
    cases h
    obtain ⟨z, hz, rfl, rfl, rfl⟩ := add_step hc hadd
    obtain ⟨ones, hlists, hbase, hfilled⟩ := ih rfl hrest
    have hbytes : bytesOf env kind list = z := by
      rw [bytesOf, hz]
      exact num_toInt64 z
    refine ⟨⟨list, num env c, ⟨.dwarf dwarfSection, counter + otherLabels⟩⟩ :: ones,
      ?_, hbase, ?_, ?_, ?_, ?_, ?_, ?_⟩
    · rw [hlists]; simp
    · rw [map_cons, hfilled.lists, map_cons]
    · rw [hfilled.indexes, List.zipIdx_cons, map_cons]
    · intro one hone
      rcases mem_cons.1 hone with rfl | hone
      · exact ⟨counter + otherLabels, rfl, by omega⟩
      · obtain ⟨n, hn, hle⟩ := hfilled.fresh one hone; exact ⟨n, hn, by omega⟩
    · rw [map_cons, List.nodup_cons]
      refine ⟨fun hmem => ?_, hfilled.distinct⟩
      obtain ⟨one, hone, hlabel⟩ := List.mem_map.1 hmem
      obtain ⟨n, hn, hle⟩ := hfilled.fresh one hone
      rw [hn] at hlabel
      simp only [AsmLabel.mk.injEq] at hlabel
      omega
    · intro i one hone
      cases i with
      | zero =>
        simp only [List.getElem?_cons_zero, Option.some.injEq] at hone
        rw [← hone]
        simp
      | succ i =>
        rw [hfilled.offsets i one hone, map_cons, List.take_succ_cons, List.sum_cons, hbytes]
        ring
    intro one hone
    rcases mem_cons.1 hone with rfl | hone
    · exact ⟨z, hz⟩
    · exact hfilled.sizes one hone

/-! ## §5 Where the indices lead -/

variable {counter : ℕ} {additions : List (ℕ × List (LocatedEntry π))} {ones : List (OneList π)}
  {indexes : List Index}

/-- The entry at index `i` counts the first lists, and the list with index `i` is behind as
many of the last ones. -/
theorem resolves_iff {c i : ℕ}
    (hfilled : Filled env kind dwarfSection counter 0 0 additions ones indexes)
    (hlists : t.lists = ones.reverse) (hbase : t.baseAddr = ⟨.dwarf dwarfSection, c⟩)
    (hc : c < counter) (hoffsets : env.gdwarfOffsets = true)
    (hemit : (listTable env kind).emit t = .ok block)
    (hsizeable : ∀ one ∈ ones, Sizeable env kind one.list)
    (hlabelless : ∀ one ∈ ones, Labelless env kind one.list) (hone : ones[i]? = some one) :
    Resolves env kind t.baseAddr one.list ⟨one.label, i⟩ block ↔
      ((ones.map fun one => bytesOf env kind one.list).take (ones.length - 1 - i)).sum =
        ((ones.map fun one => bytesOf env kind one.list).drop (i + 1)).sum := by
  obtain ⟨header, offsets, body, hblock, hheader, hoff, hbody⟩ := emit_eq_ok hoffsets hemit
  obtain ⟨hi, hget⟩ := List.getElem?_eq_some_iff.1 hone
  -- The list with index `i`, between those that are emitted before and after it.
  have hsplit : ones.reverse = (ones.drop (i + 1)).reverse ++ one :: (ones.take i).reverse := by
    conv_lhs => rw [← List.take_append_drop i ones, List.drop_eq_getElem_cons hi, hget]
    simp
  rw [hlists, hsplit] at hbody
  obtain ⟨b1, rest, hb1, hrest, rfl⟩ := emitIter_append_eq_ok hbody
  obtain ⟨first, b2, hfirst, -, rfl⟩ := emitSeq_cons_eq_ok.1 hrest
  obtain ⟨listBlock, hlist, rfl⟩ := emitLabelled_eq_ok hfirst
  have hsub : ∀ one' ∈ (ones.drop (i + 1)).reverse, one' ∈ ones := fun one' hmem =>
    List.mem_of_mem_drop (List.mem_reverse.1 hmem)
  have hb1Bytes : (numBytes b1 : ℤ) =
      ((ones.map fun one => bytesOf env kind one.list).drop (i + 1)).sum := by
    have hsized : ∀ one' ∈ (ones.drop (i + 1)).reverse, Sizeable env kind one'.list ∧
        ∃ n, (locationOrRangeList env kind).size one'.list = .ok n := by
      intro one' hmem
      obtain ⟨z, hz⟩ := hfilled.sizes one' (hsub one' hmem)
      exact ⟨hsizeable one' (hsub one' hmem), _, hz⟩
    rw [numBytes_body hb1 hsized, List.map_reverse, List.sum_reverse, List.map_drop]
  -- The entry of the offset array.
  have hoffsetsEq := emitOffsets_eq_ok hoffsets hoff
  have hentry : offsetEntry t.baseAddr i block = some (numBytes offsets +
      ((ones.map fun one => bytesOf env kind one.list).take (ones.length - 1 - i)).sum) := by
    have hj : ones.length - 1 - i < ones.length := by omega
    have hrev : ones.reverse[i]? = some ones[ones.length - 1 - i] := by
      rw [List.getElem?_reverse hi, getElem?_eq_getElem hj]
    have hlength : i < offsets.length := by
      rw [hoffsetsEq, List.length_map, hlists, List.length_reverse]
      exact hi
    rw [offsetEntry, hblock, afterLabel_append (by simp [hheader]),
      List.getElem?_append_left hlength, hoffsetsEq, getElem?_map, hlists, hrev]
    simp only [Option.map_some]
    rw [← hlists, ← hoffsetsEq, hfilled.offsets _ _ (getElem?_eq_getElem hj), zero_add]
  -- The label of the list.
  have hposition : positionOf one.label block =
      some (numBytes (header ++ .newLabel t.baseAddr :: (offsets ++ b1))) := by
    have hfresh : one.label ∉ labelsOf (header ++ .newLabel t.baseAddr :: (offsets ++ b1)) := by
      have hoffLabels : labelsOf offsets = [] := by
        rw [hoffsetsEq]
        exact labelsOf_consts _ _ _
      rw [labelsOf_append, hheader, labelsOf, labelsOf_append, hoffLabels,
        labelsOf_body hb1 fun one' hmem => hlabelless one' (hsub one' hmem)]
      simp only [List.nil_append, mem_cons, not_or]
      constructor
      · obtain ⟨n, hn, hle⟩ := hfilled.fresh one (List.mem_of_getElem? hone)
        rw [hn, hbase]
        simp only [AsmLabel.mk.injEq]
        omega
      have hdistinct := List.nodup_reverse.2 hfilled.distinct
      rw [← List.map_reverse, hsplit, List.map_append] at hdistinct
      intro hmem
      exact (List.nodup_append.1 hdistinct).2.2 _ hmem _ List.mem_cons_self rfl
    have hpos := positionOf_append hfresh (listBlock ++ b2)
    rw [hblock]
    simpa using hpos
  have hbasePos : positionOf t.baseAddr block = some (numBytes header) := by
    rw [hblock]
    exact positionOf_append (by simp [hheader]) _
  have hbytes : (numBytes (header ++ .newLabel t.baseAddr :: (offsets ++ b1)) : ℤ) =
      numBytes header + (numBytes offsets + numBytes b1) := by
    simp [Directive.numBytes]
  constructor
  · intro h
    obtain ⟨base, offset, before, listBlock', rest', hbase', hentry', -, hposition', -, heq⟩ := h
    rw [hbasePos] at hbase'
    rw [hentry] at hentry'
    rw [hposition] at hposition'
    cases hbase'
    cases hentry'
    have hsame := Option.some.inj hposition'
    omega
  intro h
  refine ⟨_, _, _, listBlock, b2, hbasePos, hentry, ?_, hposition, hlist, ?_⟩
  · rw [hblock]; simp
  · rw [hbytes, hb1Bytes, h]

/-- Lists of numbers whose beginnings have the same sums. -/
theorem eq_of_take_sums {l l' : List ℤ} (hlength : l.length = l'.length)
    (h : ∀ k ≤ l.length, (l.take k).sum = (l'.take k).sum) : l = l' := by
  refine List.ext_getElem hlength fun k hk hk' => ?_
  have hnext := h (k + 1) hk
  rw [List.take_add_one, List.take_add_one, List.sum_append, List.sum_append, h k (by omega),
    getElem?_eq_getElem hk, getElem?_eq_getElem hk'] at hnext
  simpa using hnext

theorem palindrome_iff (l : List ℤ) :
    (∀ i < l.length, (l.take (l.length - 1 - i)).sum = (l.drop (i + 1)).sum) ↔ l.reverse = l := by
  have hdrop : ∀ i, (l.drop (i + 1)).sum = (l.reverse.take (l.length - (i + 1))).sum := by
    intro i
    rw [← List.sum_reverse, List.reverse_drop]
  constructor
  · intro h
    refine (eq_of_take_sums (List.length_reverse).symm fun k hk => ?_).symm
    rcases Nat.eq_or_lt_of_le hk with rfl | hlt
    · rw [List.take_length, List.take_of_length_le (by simp), List.sum_reverse]
    have hk' := h (l.length - 1 - k) (by omega)
    rw [hdrop, show l.length - 1 - (l.length - 1 - k) = k by omega,
      show l.length - (l.length - 1 - k + 1) = k by omega] at hk'
    exact hk'
  · intro h i hi; rw [hdrop, h, Nat.sub_sub, Nat.add_comm 1]

/-- The sizes of the added lists, as the size function gives them. -/
def sizesOf (env : Env) (kind : ListKind π) (additions : List (ℕ × List (LocatedEntry π))) :
    List (Except Exn DwarfInt) :=
  additions.map fun p => (locationOrRangeList env kind).size p.2

theorem num_injective : Function.Injective (num env) := fun i j h => by
  simpa using congrArg DwarfInt.toInt64 h

theorem sizesOf_reverse_iff
    (hfilled : Filled env kind dwarfSection counter 0 0 additions ones indexes) :
    (sizesOf env kind additions).reverse = sizesOf env kind additions ↔
      (ones.map fun one => bytesOf env kind one.list).reverse =
        ones.map fun one => bytesOf env kind one.list := by
  have hsizes : sizesOf env kind additions =
      (ones.map fun one => bytesOf env kind one.list).map fun z => .ok (num env z) := by
    have hlists : sizesOf env kind additions =
        (ones.map (·.list)).map (locationOrRangeList env kind).size := by
      rw [hfilled.lists, List.map_map]
      rfl
    rw [hlists, List.map_map, List.map_map]
    refine List.map_congr_left fun one hone => ?_
    obtain ⟨z, hz⟩ := hfilled.sizes one hone
    simp [bytesOf, hz]
  have hinjective : Function.Injective fun z => (.ok (num env z) : Except Exn DwarfInt) :=
    fun i j h => num_injective (Except.ok.inj h)
  rw [hsizes, ← List.map_reverse]
  exact (List.map_injective_iff.2 hinjective).eq_iff

/-- **Indices lead to their lists** if and only if the sizes of the lists are the same in
both orders. -/
theorem build_resolves_iff {t : Table π} {block : Block} (hoffsets : env.gdwarfOffsets = true)
    (hbuild : build env kind dwarfSection counter additions = .ok (t, indexes))
    (hemit : (listTable env kind).emit t.toListTable = .ok block)
    (hsizeable : ∀ p ∈ additions, Sizeable env kind p.2)
    (hlabelless : ∀ p ∈ additions, Labelless env kind p.2) :
    indexes.map (·.index) = List.range additions.length ∧
      ((∀ (i : ℕ) (p : ℕ × List (LocatedEntry π)) (index : Index),
          additions[i]? = some p → indexes[i]? = some index →
            Resolves env kind t.baseAddr p.2 index block) ↔
        (sizesOf env kind additions).reverse = sizesOf env kind additions) := by
  obtain ⟨ones, hlists, hbase, hfilled⟩ := addAll_filled rfl hbuild
  rw [List.append_nil] at hlists
  have hlength : ones.length = additions.length := by
    simpa using congrArg List.length hfilled.lists
  have hall : ∀ one ∈ ones, Sizeable env kind one.list ∧ Labelless env kind one.list := by
    intro one hone
    obtain ⟨p, hp, heq⟩ := List.mem_map.1 (hfilled.lists ▸ List.mem_map_of_mem hone)
    rw [← heq]
    exact ⟨hsizeable p hp, hlabelless p hp⟩
  have hindex : ∀ i : ℕ, indexes[i]? = (ones[i]?).map fun one => ⟨one.label, i⟩ := by
    intro i
    rw [hfilled.indexes, getElem?_map, List.getElem?_zipIdx]
    cases ones[i]? with
    | none => rfl
    | some one => simp
  constructor
  · refine List.ext_getElem? fun i => ?_
    rw [getElem?_map, hindex, ← hlength]
    by_cases hi : i < ones.length
    · rw [getElem?_eq_getElem hi, List.getElem?_range hi]; rfl
    · rw [List.getElem?_eq_none (by omega), List.getElem?_eq_none (by simp; omega)]; rfl
  have hone : ∀ {i : ℕ} {one : OneList π}, ones[i]? = some one →
      (Resolves env kind t.baseAddr one.list ⟨one.label, i⟩ block ↔
        ((ones.map fun one => bytesOf env kind one.list).take (ones.length - 1 - i)).sum =
          ((ones.map fun one => bytesOf env kind one.list).drop (i + 1)).sum) := fun hget =>
    resolves_iff (t := t.toListTable) hfilled hlists hbase (Nat.lt_succ_self counter) hoffsets hemit
      (fun one hmem => (hall one hmem).1) (fun one hmem => (hall one hmem).2) hget
  rw [sizesOf_reverse_iff hfilled, ← palindrome_iff, List.length_map]
  constructor
  · intro h i hi
    have hget := getElem?_eq_getElem hi
    have hlist : additions[i]?.map (·.2) = some ones[i].list := by
      rw [← getElem?_map, ← hfilled.lists, getElem?_map, hget]
      rfl
    obtain ⟨p, hp, heq⟩ := Option.map_eq_some_iff.1 hlist
    refine (hone hget).1 ?_
    rw [← heq]
    exact h i p _ hp (by rw [hindex, hget]; rfl)
  intro h i p index hp hindex'
  rw [hindex] at hindex'
  obtain ⟨one, hget, rfl⟩ := Option.map_eq_some_iff.1 hindex'
  have hlist : p.2 = one.list := by
    have hmap := congrArg (fun l => l[i]?) hfilled.lists
    simp only [getElem?_map, hget, hp, Option.map_some, Option.some.injEq] at hmap
    exact hmap.symm
  rw [hlist]
  exact (hone hget).2 (h i (List.getElem?_eq_some_iff.1 hget).1)

/-! ## §6 Two range lists -/

/-- The environment of a DWARF-5 unit in which range lists are emitted. -/
def rangesEnv : Env := ⟨.sixtyFour, .five, true, false, .dwarf .debugRnglists⟩

/-- A range list of one byte. -/
def emptyRanges : List (LocatedEntry Unit) := [⟨.endOfList, "code"⟩]

/-- A range list of ten bytes. -/
def baseRanges : List (LocatedEntry Unit) := [⟨.endOfList, "code"⟩, ⟨.baseAddress "code", "code"⟩]

theorem sizeable_ranges {list : List (LocatedEntry Unit)} {z : ℤ}
    (hsize : (locationOrRangeList rangesEnv (rangeListKind rangesEnv)).size list =
      .ok (.sixtyFour z))
    (hemit : (locationOrRangeList rangesEnv (rangeListKind rangesEnv)).emit list = .ok block)
    (hbytes : z = numBytes block) : Sizeable rangesEnv (rangeListKind rangesEnv) list := by
  intro k k' hk hk'
  obtain ⟨n, hn, rfl⟩ := hk
  obtain ⟨b, hb, rfl⟩ := hk'
  rw [hsize] at hn
  rw [hemit] at hb
  cases hn
  cases hb
  rw [← hbytes]
  rfl

theorem sizeable_emptyRanges : Sizeable rangesEnv (rangeListKind rangesEnv) emptyRanges :=
  sizeable_ranges (z := 1) rfl rfl rfl

theorem sizeable_baseRanges : Sizeable rangesEnv (rangeListKind rangesEnv) baseRanges :=
  sizeable_ranges (z := 10) rfl rfl rfl

theorem labelless_emptyRanges : Labelless rangesEnv (rangeListKind rangesEnv) emptyRanges :=
  fun block h => by
    cases h
    rfl

theorem labelless_baseRanges : Labelless rangesEnv (rangeListKind rangesEnv) baseRanges :=
  fun block h => by
    cases h
    rfl

theorem build_resolves_iff_emptyRanges : ∃ t indexes block,
    build rangesEnv (rangeListKind rangesEnv) .debugRnglists 7 [(0, emptyRanges), (2, emptyRanges)]
      =
      .ok (t, indexes) ∧
    (listTable rangesEnv (rangeListKind rangesEnv)).emit t.toListTable = .ok block ∧
    indexes.map (·.index) = List.range 2 ∧
      ((∀ (i : ℕ) (p : ℕ × List (LocatedEntry Unit)) (index : Index),
          [(0, emptyRanges), (2, emptyRanges)][i]? = some p → indexes[i]? = some index →
            Resolves rangesEnv (rangeListKind rangesEnv) t.baseAddr p.2 index block) ↔
        (sizesOf rangesEnv (rangeListKind rangesEnv) [(0, emptyRanges), (2, emptyRanges)]).reverse =
          sizesOf rangesEnv (rangeListKind rangesEnv) [(0, emptyRanges), (2, emptyRanges)]) := by
  have hall : ∀ p ∈ [(0, emptyRanges), (2, emptyRanges)],
      Sizeable rangesEnv (rangeListKind rangesEnv) p.2 ∧
        Labelless rangesEnv (rangeListKind rangesEnv) p.2 := by
    intro p hp
    simp only [mem_cons, List.not_mem_nil, or_false] at hp
    rcases hp with rfl | rfl <;> exact ⟨sizeable_emptyRanges, labelless_emptyRanges⟩
  exact ⟨_, _, _, rfl, rfl, build_resolves_iff rfl
    (show build rangesEnv (rangeListKind rangesEnv) .debugRnglists 7
      [(0, emptyRanges), (2, emptyRanges)] = .ok (_, _) from rfl)
    rfl (fun p hp => (hall p hp).1) (fun p hp => (hall p hp).2)⟩

/-- Of a list of one byte and one of ten, the index of the first leads into the second. -/
theorem baseRanges_not_resolved : ∃ t indexes block index,
    build rangesEnv (rangeListKind rangesEnv) .debugRnglists 7 [(0, emptyRanges), (0, baseRanges)] =
      .ok (t, indexes) ∧
    (listTable rangesEnv (rangeListKind rangesEnv)).emit t.toListTable = .ok block ∧
    (∀ list ∈ [emptyRanges, baseRanges], Sizeable rangesEnv (rangeListKind rangesEnv) list ∧
      Labelless rangesEnv (rangeListKind rangesEnv) list) ∧
    indexes[0]? = some index ∧
    ¬ Resolves rangesEnv (rangeListKind rangesEnv) t.baseAddr emptyRanges index block := by
  refine ⟨_, _, _, _, rfl, rfl, ?_, rfl, ?_⟩
  · intro list hlist
    simp only [mem_cons, List.not_mem_nil, or_false] at hlist
    rcases hlist with rfl | rfl
    · exact ⟨sizeable_emptyRanges, labelless_emptyRanges⟩
    · exact ⟨sizeable_baseRanges, labelless_baseRanges⟩
  intro h
  obtain ⟨base, offset, before, listBlock, rest, hbase, hoffset, -, hposition, -, heq⟩ := h
  have hbase' : 20 = base := Option.some.inj hbase
  have hoffset' : 17 = offset := Option.some.inj hoffset
  have hposition' : 46 = numBytes before := Option.some.inj hposition
  omega

end Oxcaml.Backend.ListTables
