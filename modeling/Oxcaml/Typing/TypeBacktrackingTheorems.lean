/-
Oxcaml.Typing.TypeBacktrackingTheorems — what the entries of the type log
say of the store.

`Store.next` is the pointer that `repr` follows, so a representative is the
end of a chain (`Oxcaml.Lib.Chains`). `rewind` undoes the entries of a log,
the last first; `expandAll` undoes only its compressions.

A log is a `History` of the present store when at every moment since its
first entry the compressions made until then can be undone without a
change of any representative. It stays one when a node without a pointer is
overwritten, logged or not, since a store that only gains pointers keeps
what compressions rest on. Undoing the compressions of a history and
striking their entries gives a history again, and rewinding that ends in
the same store as before.
-/
import Oxcaml.Lib.Arrays
import Oxcaml.Lib.Chains
import Oxcaml.Typing.TypeBacktracking

set_option linter.all false

namespace Oxcaml.Typing.Types

open Function (update update_comm)

open Oxcaml.Lib

variable {J P A : Type} {σ σ' : Store J P A} {s s' : State J P A}

/-! ## Pointers -/

/-- `field_kind_internal_repr` gives `FKabsent`. -/
inductive Absent (kind : Nat → Option FieldKind) : FieldKind → Prop
  | absent : Absent kind .fkAbsent
  | var {k : Nat} {fk : FieldKind} : kind k = some fk → Absent kind fk → Absent kind (.fkVar k)

variable {kind : Nat → Option FieldKind} {r fuel : Nat}

theorem absent_of_setKind_none {k : FieldKind}
    (h : Absent (update kind r none) k) : Absent kind k := by
  induction h with
  | absent => exact .absent
  | @var k fk hk h ih =>
    by_cases hr : k = r
    · simp [hr] at hk
    · exact .var (by simpa [hr] using hk) ih

theorem absent_setKind {k fk : FieldKind}
    (hr : kind r = none) (h : Absent kind k) : Absent (update kind r (some fk)) k := by
  induction h with
  | absent => exact .absent
  | @var k fk' hk h ih =>
    refine .var ?_ ih
    have hne : k ≠ r := by
      intro heq
      simp [heq, hr] at hk
    simpa [hne] using hk

theorem fieldKindInternalRepr_absent
    {k k' : FieldKind} (h : fieldKindInternalRepr kind fuel k = .ok k') :
    k' = .fkAbsent ↔ Absent kind k := by
  induction fuel generalizing k with
  | zero => simp [fieldKindInternalRepr] at h
  | succ fuel ih =>
    cases k with
    | fkVar k =>
      simp only [fieldKindInternalRepr] at h
      cases hk : kind k with
      | some fk =>
        rw [hk] at h
        rw [ih h]
        constructor
        · exact .var hk
        intro ha
        cases ha with
        | var hk' ha =>
          rw [hk] at hk'
          cases hk'
          exact ha
      | none =>
        rw [hk] at h
        cases h
        constructor
        · intro hc; cases hc
        intro ha
        cases ha with
        | var hk' ha => simp [hk] at hk'
    | fkPublic =>
      cases h
      constructor
      · intro hc; cases hc
      · intro ha; cases ha
    | fkAbsent => cases h; exact ⟨fun _ => .absent, fun _ => rfl⟩

open Classical in
/-- The node that a description sends `repr` to. -/
noncomputable def Desc.leads (kind : Nat → Option FieldKind) (d : Desc J P) : Option TypeExpr :=
  match d.body with
  | .tLink t => some t
  | .tField _ k _ rest => if Absent kind k then some rest else none
  | _ => none

/-- The pointer that `repr` follows. -/
noncomputable def Store.next (σ : Store J P A) (z : TypeExpr) : Option TypeExpr :=
  (σ.desc z).leads σ.kind

variable {d : Desc J P}

theorem followed_eq {o : Option TypeExpr} (h : d.followed fuel σ = .ok o) : d.leads σ.kind = o := by
  unfold Desc.followed at h
  unfold Desc.leads
  cases hb : d.body with
  | tLink t =>
    simp only [hb] at h
    cases h
    rfl
  | tField l k t rest =>
    simp only [hb] at h
    obtain ⟨k', hk, h⟩ := bind_eq_ok.1 h
    cases h
    by_cases ha : Absent σ.kind k
    · simp [ha, (fieldKindInternalRepr_absent hk).2 ha]
    · have hne : k' ≠ .fkAbsent := fun heq => ha ((fieldKindInternalRepr_absent hk).1 heq)
      simp [ha, hne]
  | tVar name jkind =>
    simp only [hb] at h
    cases h
    rfl
  | other p =>
    simp only [hb] at h
    cases h
    rfl

variable {u z t ty : TypeExpr}

theorem leads_of_absent {kind kind' : Nat → Option FieldKind}
    (hk : ∀ k, Absent kind k → Absent kind' k)
    (h : d.leads kind = some u) : d.leads kind' = some u := by
  unfold Desc.leads at h ⊢
  split at h
  case h_1 => simpa using h
  case h_2 l k t rest hb =>
    split at h
    case isTrue ha => simpa [hk k ha] using h
    case isFalse => cases h
  case h_3 => cases h

/-- The nodes that a description points to have been created. -/
def Desc.Known (n : ℤ) (d : Desc J P) : Prop :=
  match d.body with
  | .tLink t => t ≤ n
  | .tField _ _ t rest => t ≤ n ∧ rest ≤ n
  | _ => True

variable {n n' : ℤ}

theorem Desc.Known.mono (h : d.Known n) (hn : n ≤ n') : d.Known n' := by
  unfold Desc.Known at h ⊢
  split at h
  case h_1 => exact h.trans hn
  case h_2 => exact ⟨h.1.trans hn, h.2.trans hn⟩
  case h_3 => trivial

theorem Desc.Known.leads_le (h : d.Known n) (hu : d.leads kind = some u) : u ≤ n := by
  unfold Desc.Known at h
  unfold Desc.leads at hu
  split at hu
  case h_1 t hb =>
    simp only [hb] at h
    cases hu
    exact h
  case h_2 l k t rest hb =>
    simp only [hb] at h
    split at hu
    · cases hu; exact h.2
    · cases hu
  case h_3 => cases hu

/-- Chains from created nodes end in created nodes. -/
theorem le_of_ends (hσ : ∀ z, (σ.desc z).Known n) (hz : z ≤ n) (hu : Ends σ.next z u) : u ≤ n := by
  induction hu with
  | stop => exact hz
  | @step z w u hw hu ih => exact ih ((hσ z).leads_le hw)

/-! ### `repr` -/

/-- The state after a compression. -/
def compress (t : TypeExpr) (d : Desc J P) (s : State J P A) : State J P A :=
  setDesc t d (logChange (.cCompress t (s.store.desc t) d) s)

theorem reprLink_spec {t' : TypeExpr}
    (h : reprLink t fuel d t' s = .ok (u, s')) (hd : d.leads s.store.kind = some t')
    (hrange : ∃ z, d = s.store.desc z) :
    Ends s.store.next t' u ∧ ∃ d', d'.leads s.store.kind = some u ∧
      (∃ z, d' = s.store.desc z) ∧ s' = compress t d' s := by
  induction fuel generalizing d t' with
  | zero => simp [reprLink] at h
  | succ fuel ih =>
    obtain ⟨o, ho, h⟩ := bind_eq_ok.1 h
    have hnext : s.store.next t' = o := followed_eq ho
    cases o with
    | some t'' => obtain ⟨hu, hrest⟩ := ih h hnext ⟨t', rfl⟩; exact ⟨.step hnext hu, hrest⟩
    | none => cases h; exact ⟨.stop hnext, d, hd, hrange, rfl⟩

/-- `repr` returns the end of the chain, and compresses the path to it at
most. -/
theorem repr_spec (h : repr fuel t s = .ok (u, s')) :
    Ends s.store.next t u ∧ (s' = s ∨ ∃ d, s.store.next t ≠ none ∧
      d.leads s.store.kind = some u ∧ (∃ z, d = s.store.desc z) ∧ s' = compress t d s) := by
  obtain ⟨o, ho, h⟩ := bind_eq_ok.1 h
  have hnext : s.store.next t = o := followed_eq ho
  cases o with
  | none => cases h; exact ⟨.stop hnext, .inl rfl⟩
  | some t' =>
    obtain ⟨o, ho, h⟩ := bind_eq_ok.1 h
    have hnext' : s.store.next t' = o := followed_eq ho
    cases o with
    | none => cases h; exact ⟨.step hnext (.stop hnext'), .inl rfl⟩
    | some t'' =>
      obtain ⟨hu, d, hd, hrange, heq⟩ := reprLink_spec h hnext' ⟨t', rfl⟩
      exact ⟨.step hnext (.step hnext' hu), .inr ⟨d, by simp [hnext], hd, hrange, heq⟩⟩

/-! ## Growing -/

/-- Nodes that have a pointer keep their description, and absent kinds stay
absent: the store only gains pointers. -/
structure Store.Grows (σ σ' : Store J P A) : Prop where
  desc : ∀ z, σ.next z ≠ none → σ'.desc z = σ.desc z
  kind : ∀ k, Absent σ.kind k → Absent σ'.kind k

theorem Store.Grows.next (h : σ.Grows σ') : Oxcaml.Lib.Grows σ.next σ'.next := by
  intro z u hz
  have hdesc : σ'.desc z = σ.desc z := h.desc z (by simp [hz])
  rw [Store.next, hdesc]
  exact leads_of_absent h.kind hz

theorem Store.Grows.next_ne (h : σ.Grows σ') (hz : σ.next z ≠ none) : σ'.next z ≠ none := by
  obtain ⟨u, hu⟩ := Option.ne_none_iff_exists'.1 hz
  simp [h.next z u hu]

theorem next_setDesc_self (ty : TypeExpr) (d : Desc J P) :
    (σ.setDesc ty d).next ty = d.leads σ.kind := by
  simp [Store.next, Store.setDesc]

theorem next_setDesc_of_ne (hz : z ≠ ty) (d : Desc J P) : (σ.setDesc ty d).next z = σ.next z := by
  simp [Store.next, Store.setDesc, hz]

/-- Overwriting a node without a pointer. -/
theorem grows_setDesc (hty : σ.next ty = none) (d : Desc J P) : σ.Grows (σ.setDesc ty d) := by
  refine ⟨?_, fun k hk => hk⟩
  intro z hz
  have hne : z ≠ ty := fun heq => hz (heq ▸ hty)
  simp [Store.setDesc, hne]

/-- The same node is overwritten in both stores. -/
theorem Store.Grows.setDesc (h : σ.Grows σ') (t : TypeExpr) (d : Desc J P) :
    (σ.setDesc t d).Grows (σ'.setDesc t d) := by
  refine ⟨?_, h.kind⟩
  intro z hz
  by_cases hne : z = t
  · simp [Store.setDesc, hne]
  · rw [next_setDesc_of_ne hne] at hz; simpa [Store.setDesc, hne] using h.desc z hz

/-! ## Undoing entries -/

/-- The store that `undo_change` leaves. -/
def Change.undo (σ : Store J P A) : Change J P A → Store J P A
  | .cType ty desc => σ.setDesc ty desc
  | .cCompress ty desc _ => σ.setDesc ty desc
  | .cLevel ty level => σ.setLevel ty level
  | .cScope ty scope => σ.setScope ty ((σ.scope ty &&& marksMask) ||| scope)
  | .cName r v => σ.setName r v
  | .cRow r => σ.setExt r none
  | .cKind r => σ.setKind r none
  | .cCommu r => σ.setCommu r none
  | .cUniv r v => σ.setUnivar r v

/-- The nodes that an entry mentions have been created, and a logged scope
has no marks. -/
def Change.Known (n : ℤ) : Change J P A → Prop
  | .cType ty desc => ty ≤ n ∧ desc.Known n
  | .cCompress ty desc _ => ty ≤ n ∧ desc.Known n
  | .cLevel ty _ => ty ≤ n
  | .cScope ty scope => ty ≤ n ∧ scope &&& marksMask = 0
  | _ => True

variable {c : Change J P A}

theorem Change.Known.mono (h : c.Known n) (hn : n ≤ n') : c.Known n' := by
  cases c with
  | cType ty desc | cCompress ty desc d => exact ⟨h.1.trans hn, h.2.mono hn⟩
  | cLevel ty level => exact le_trans (show ty ≤ n from h) hn
  | cScope ty scope => exact ⟨h.1.trans hn, h.2⟩
  | _ => trivial

theorem undoChange_eq (h : c.Known n) : undoChange σ c = .ok (c.undo σ) := by
  cases c with
  | cScope ty scope => simp [undoChange, Transient.setScope, Change.undo, h.2]
  | _ => rfl

/-- All entries undone, the last first. -/
def rewind : List (Change J P A) → Store J P A → Store J P A
  | [], σ => σ
  | c :: es, σ => rewind es (c.undo σ)

@[simp] theorem rewind_nil : rewind [] σ = σ := rfl

@[simp] theorem rewind_cons (c : Change J P A) (es : List (Change J P A)) :
    rewind (c :: es) σ = rewind es (c.undo σ) := rfl

theorem rewind_append (es fs : List (Change J P A)) :
    rewind (es ++ fs) σ = rewind fs (rewind es σ) := by
  induction es generalizing σ with
  | nil => rfl
  | cons c es ih => simp [ih]

variable {es : List (Change J P A)}

theorem foldlM_undoChange (h : ∀ c ∈ es, c.Known n) :
    es.foldlM undoChange σ = .ok (rewind es σ) := by
  induction es generalizing σ with
  | nil => rfl
  | cons c es ih =>
    rw [List.foldlM_cons, undoChange_eq (h c (by simp))]
    exact ih fun c' hc' => h c' (by simp [hc'])

/-- The store after undoing the entry, if it is a compression. -/
def Change.expand (σ : Store J P A) : Change J P A → Store J P A
  | .cCompress ty desc _ => σ.setDesc ty desc
  | _ => σ

/-- The compressions undone, the last first. -/
def expandAll : List (Change J P A) → Store J P A → Store J P A
  | [], σ => σ
  | c :: es, σ => expandAll es (c.expand σ)

@[simp] theorem expandAll_nil : expandAll [] σ = σ := rfl

@[simp] theorem expandAll_cons (c : Change J P A) (es : List (Change J P A)) :
    expandAll (c :: es) σ = expandAll es (c.expand σ) := rfl

theorem expandAll_append (es fs : List (Change J P A)) :
    expandAll (es ++ fs) σ = expandAll fs (expandAll es σ) := by
  induction es generalizing σ with
  | nil => rfl
  | cons c es ih => simp [ih]

/-- Only descriptions change. -/
theorem expandAll_eq (es : List (Change J P A)) :
    expandAll es σ = { σ with desc := (expandAll es σ).desc } := by
  induction es generalizing σ with
  | nil => rfl
  | cons c es ih => rw [expandAll_cons, ih]; cases c <;> rfl

/-! ## Compressions -/

/-- A compression that can be undone without a change of any representative. -/
def Change.Shortens (σ : Store J P A) : Change J P A → Prop
  | .cCompress t desc d =>
    σ.desc t = d ∧ σ.next t ≠ none ∧ SameEnds σ.next (σ.setDesc t desc).next
  | _ => True

/-- The compressions can be undone, the last first. -/
def Compressed : List (Change J P A) → Store J P A → Prop
  | [], _ => True
  | c :: es, σ => c.Shortens σ ∧ Compressed es (c.expand σ)

variable {es fs : List (Change J P A)}

theorem compressed_append :
    Compressed (es ++ fs) σ ↔ Compressed es σ ∧ Compressed fs (expandAll es σ) := by
  induction es generalizing σ with
  | nil => simp [Compressed]
  | cons c es ih => simp [Compressed, ih, and_assoc]

theorem Change.Shortens.sameEnds (h : c.Shortens σ) : SameEnds σ.next (c.expand σ).next := by
  cases c with
  | cCompress t desc d => exact h.2.2
  | _ => exact SameEnds.rfl

theorem Compressed.sameEnds (h : Compressed es σ) : SameEnds σ.next (expandAll es σ).next := by
  induction es generalizing σ with
  | nil => exact SameEnds.rfl
  | cons c es ih => exact h.1.sameEnds.trans (ih h.2)

/-- A compression is never about a node without a pointer. -/
theorem Change.Shortens.ne {desc : Desc J P}
    (h : (Change.cCompress t desc d : Change J P A).Shortens σ) (hz : σ.next z = none) :
    z ≠ t := fun heq => h.2.1 (heq ▸ hz)

theorem Change.Shortens.desc_eq (h : c.Shortens σ)
    (hz : σ.next z = none) : (c.expand σ).desc z = σ.desc z := by
  cases c with
  | cCompress t desc d => simp [Change.expand, Store.setDesc, h.ne hz]
  | _ => rfl

theorem Compressed.desc_eq (h : Compressed es σ)
    (hz : σ.next z = none) : (expandAll es σ).desc z = σ.desc z := by
  induction es generalizing σ with
  | nil => rfl
  | cons c es ih =>
    have hnext : (c.expand σ).next z = none := (h.1.sameEnds.eq_none_iff z).1 hz
    exact (ih h.2 hnext).trans (h.1.desc_eq hz)

theorem Change.Shortens.grows (h : c.Shortens σ) (hσ : σ.Grows σ') :
    c.Shortens σ' ∧ (c.expand σ).Grows (c.expand σ') := by
  cases c with
  | cCompress t desc d =>
    obtain ⟨hd, hnext, hends⟩ := h
    have hexp : (σ.setDesc t desc).Grows (σ'.setDesc t desc) := hσ.setDesc t desc
    refine ⟨⟨(hσ.desc t hnext).trans hd, hσ.next_ne hnext, ?_⟩, hexp⟩
    refine hends.grow hσ.next hexp.next fun z hz => ?_
    have hne : z ≠ t := fun heq => hnext (heq ▸ hz)
    rw [next_setDesc_of_ne hne]
  | _ => exact ⟨trivial, hσ⟩

theorem Compressed.grows (h : Compressed es σ) (hσ : σ.Grows σ') : Compressed es σ' := by
  induction es generalizing σ σ' with
  | nil => trivial
  | cons c es ih => obtain ⟨hc, hexp⟩ := h.1.grows hσ; exact ⟨hc, ih h.2 hexp⟩

/-- Undoing compressions and overwriting a node without a pointer commute. -/
theorem Compressed.expandAll_setDesc (h : Compressed es σ) (hty : σ.next ty = none)
    (D' : Desc J P) :
    expandAll es (σ.setDesc ty D') = (expandAll es σ).setDesc ty D' := by
  induction es generalizing σ with
  | nil => rfl
  | cons c es ih =>
    have hnext : (c.expand σ).next ty = none := (h.1.sameEnds.eq_none_iff ty).1 hty
    rw [expandAll_cons, expandAll_cons, ← ih h.2 hnext]
    congr 1
    cases c with
    | cCompress t desc d =>
      simp only [Change.expand, Store.setDesc]
      rw [update_comm (h.1.ne hty)]
    | _ => rfl

/-! ## Histories -/

/-- A description that was overwritten had no pointer. -/
def Change.Stops (kind : Nat → Option FieldKind) : Change J P A → Prop
  | .cType _ desc => desc.leads kind = none
  | _ => True

/-- The entries, the last first, are a history of the store. -/
def History : List (Change J P A) → Store J P A → Prop
  | [], _ => True
  | c :: es, σ => Compressed (c :: es) σ ∧ c.Stops σ.kind ∧ History es (c.undo σ)

def Change.isCompress : Change J P A → Bool
  | .cCompress _ _ _ => true
  | _ => false

/-- The entries that `undo_compress` leaves. -/
def kept (es : List (Change J P A)) : List (Change J P A) := es.filter fun c => !c.isCompress

theorem History.compressed (h : History es σ) : Compressed es σ := by
  cases es with
  | nil => trivial
  | cons c es => exact h.1

theorem History.of_append (h : History (es ++ fs) σ) : History es σ := by
  induction es generalizing σ with
  | nil => trivial
  | cons c es ih =>
    obtain ⟨hcomp, hstop, hrest⟩ := h
    exact ⟨(compressed_append.1 hcomp).1, hstop, ih hrest⟩

theorem History.rewind (h : History (es ++ fs) σ) : History fs (rewind es σ) := by
  induction es generalizing σ with
  | nil => exact h
  | cons c es ih => exact ih h.2.2

/-! ### Logging -/

/-- A change that can be undone and takes no pointer away. -/
theorem History.log (h : History es σ)
    (hσ : σ.Grows σ') (hundo : c.undo σ' = σ) (hc : c.isCompress = false)
    (hstop : c.Stops σ'.kind) : History (c :: es) σ' := by
  refine ⟨?_, hstop, hundo ▸ h⟩
  cases c with
  | cCompress t desc d => simp [Change.isCompress] at hc
  | _ => exact ⟨trivial, h.compressed.grows hσ⟩

/-- A path compression. -/
theorem History.compress {es : List (Change J P A)} (h : History es σ) {t u : TypeExpr}
    {d : Desc J P} (ht : σ.next t ≠ none) (hu : Ends σ.next t u) (hd : d.leads σ.kind = some u) :
    History (.cCompress t (σ.desc t) d :: es) (σ.setDesc t d) := by
  have hundo : (σ.setDesc t d).setDesc t (σ.desc t) = σ := by simp [Store.setDesc]
  refine ⟨⟨⟨?_, ?_, ?_⟩, ?_⟩, trivial, ?_⟩
  · simp [Store.setDesc]
  · simp [next_setDesc_self, hd]
  · rw [hundo]
    refine (sameEnds_compress hu ht ?_ fun x hx => next_setDesc_of_ne hx d).symm
    rw [next_setDesc_self, hd]
  · simp only [Change.expand, hundo]; exact h.compressed
  · simp only [Change.undo, hundo]; exact h

theorem undo_setDesc (h : c.Shortens σ) (hty : σ.next ty = none) (D : Desc J P) :
    c.undo (σ.setDesc ty D) = c.undo σ ∨
      (c.undo σ).next ty = none ∧ c.undo (σ.setDesc ty D) = (c.undo σ).setDesc ty D := by
  cases c with
  | cType ty' desc =>
    by_cases heq : ty = ty'
    · left; simp [Change.undo, Store.setDesc, heq]
    right
    refine ⟨by rw [← hty]; exact next_setDesc_of_ne heq desc, ?_⟩
    simp only [Change.undo, Store.setDesc]
    rw [update_comm heq]
  | cCompress t desc d =>
    right
    refine ⟨by rw [← hty]; exact next_setDesc_of_ne (h.ne hty) desc, ?_⟩
    simp only [Change.undo, Store.setDesc]
    rw [update_comm (h.ne hty)]
  | cKind r =>
    right
    refine ⟨?_, rfl⟩
    cases hnext : (Change.undo σ (.cKind r)).next ty with
    | none => rfl
    | some u =>
      have hlead : (σ.desc ty).leads (update σ.kind r none) = some u := hnext
      have hsome := leads_of_absent (fun k hk => absent_of_setKind_none hk) hlead
      simp [Store.next, hsome] at hty
  | _ => exact .inr ⟨hty, rfl⟩

/-- Overwriting a node without a pointer. -/
theorem History.setDesc (h : History es σ) (hty : σ.next ty = none) (D : Desc J P) :
    History es (σ.setDesc ty D) ∧ (Types.rewind es (σ.setDesc ty D) = Types.rewind es σ ∨
      (Types.rewind es σ).next ty = none ∧
        Types.rewind es (σ.setDesc ty D) = (Types.rewind es σ).setDesc ty D) := by
  induction es generalizing σ with
  | nil => exact ⟨trivial, .inr ⟨hty, rfl⟩⟩
  | cons c es ih =>
    obtain ⟨hcomp, hstop, hrest⟩ := h
    have hcomp' : Compressed (c :: es) (σ.setDesc ty D) := hcomp.grows (grows_setDesc hty D)
    rcases undo_setDesc hcomp.1 hty D with heq | ⟨hnext, heq⟩
    · refine ⟨⟨hcomp', hstop, ?_⟩, .inl ?_⟩
      · rw [heq]; exact hrest
      · simp [heq]
    obtain ⟨hhist, hrew⟩ := ih hrest hnext
    refine ⟨⟨hcomp', hstop, ?_⟩, ?_⟩
    · rw [heq]; exact hhist
    · simpa [heq] using hrew

/-- Only descriptions and kinds matter. -/
theorem History.congr (h : History es σ) (hdesc : σ'.desc = σ.desc)
    (hkind : σ'.kind = σ.kind) : History es σ' := by
  induction es generalizing σ σ' with
  | nil => trivial
  | cons c es ih =>
    obtain ⟨hcomp, hstop, hrest⟩ := h
    have hgrows : σ.Grows σ' := ⟨fun z _ => by rw [hdesc], fun k hk => hkind ▸ hk⟩
    refine ⟨hcomp.grows hgrows, hkind ▸ hstop, ih hrest ?_ ?_⟩
    · cases c <;> simp [Change.undo, Store.setDesc, Store.setLevel, Store.setScope, Store.setName,
        Store.setExt, Store.setKind, Store.setCommu, Store.setUnivar, hdesc]
    · cases c <;> simp [Change.undo, Store.setDesc, Store.setLevel, Store.setScope, Store.setName,
        Store.setExt, Store.setKind, Store.setCommu, Store.setUnivar, hkind]

/-! ### Striking the compressions -/

theorem expandAll_desc_congr (es : List (Change J P A)) (h : σ'.desc = σ.desc) :
    (expandAll es σ').desc = (expandAll es σ).desc := by
  induction es generalizing σ σ' with
  | nil => exact h
  | cons c es ih => refine ih ?_; cases c <;> simp [Change.expand, Store.setDesc, h]

theorem undo_expandAll
    (hc : c.isCompress = false) (hstop : c.Stops σ.kind) (hcomp : Compressed es (c.undo σ)) :
    c.undo (expandAll es σ) = expandAll es (c.undo σ) := by
  have hcongr : (c.undo σ).desc = σ.desc →
      expandAll es (c.undo σ) = { c.undo σ with desc := (expandAll es σ).desc } := by
    intro hdesc
    rw [expandAll_eq, expandAll_desc_congr es hdesc]
  cases c with
  | cCompress t desc d => simp [Change.isCompress] at hc
  | cType ty desc =>
    obtain ⟨τ, hτ⟩ : ∃ τ, τ = σ.setDesc ty desc := ⟨_, rfl⟩
    have hcomp' : Compressed es τ := hτ ▸ hcomp
    have hnext : τ.next ty = none := by
      rw [hτ, next_setDesc_self]
      exact hstop
    have hback : σ = τ.setDesc ty (σ.desc ty) := by simp [hτ, Store.setDesc]
    have hexp : expandAll es σ = (expandAll es τ).setDesc ty (σ.desc ty) := by
      rw [← hcomp'.expandAll_setDesc hnext, ← hback]
    have hdesc : desc = (expandAll es τ).desc ty := by
      rw [hcomp'.desc_eq hnext]
      simp [hτ, Store.setDesc]
    show (expandAll es σ).setDesc ty desc = expandAll es (σ.setDesc ty desc)
    rw [← hτ, hexp]
    conv_lhs => rw [hdesc]
    simp [Store.setDesc]
  | _ => rw [hcongr rfl, expandAll_eq]; rfl

theorem kept_cons_of_isCompress (hc : c.isCompress = true)
    (es : List (Change J P A)) : kept (c :: es) = kept es := by
  simp [kept, hc]

theorem kept_cons (hc : c.isCompress = false) (es : List (Change J P A)) :
    kept (c :: es) = c :: kept es := by
  simp [kept, hc]

theorem kept_append (es fs : List (Change J P A)) : kept (es ++ fs) = kept es ++ kept fs := by
  simp [kept]

theorem expand_of_isCompress (hc : c.isCompress = true) : c.expand σ = c.undo σ := by
  cases c with
  | cCompress t desc d => rfl
  | _ => simp [Change.isCompress] at hc

theorem expand_of_not_isCompress (hc : c.isCompress = false) : c.expand σ = σ := by
  cases c with
  | cCompress t desc d => simp [Change.isCompress] at hc
  | _ => rfl

theorem shortens_of_not_isCompress (hc : c.isCompress = false) : c.Shortens σ := by
  cases c with
  | cCompress t desc d => simp [Change.isCompress] at hc
  | _ => trivial

theorem compressed_kept_append (h : Compressed fs σ) : Compressed (kept es ++ fs) σ := by
  induction es with
  | nil => exact h
  | cons c es ih =>
    cases hc : c.isCompress with
    | true => rw [kept_cons_of_isCompress hc]; exact ih
    | false =>
      rw [kept_cons hc]
      refine ⟨shortens_of_not_isCompress hc, ?_⟩
      rw [expand_of_not_isCompress hc]
      exact ih

/-- What is left of the log, rewound in the expanded store, ends in the
store that the whole log was rewound to, with the older compressions undone. -/
theorem History.rewind_kept (h : History (es ++ fs) σ) :
    Types.rewind (kept es) (expandAll (es ++ fs) σ) = expandAll fs (Types.rewind es σ) := by
  induction es generalizing σ with
  | nil => rfl
  | cons c es ih =>
    obtain ⟨-, hstop, hrest⟩ := h
    have hrest : History (es ++ fs) (c.undo σ) := hrest
    rw [List.cons_append, expandAll_cons]
    cases hc : c.isCompress with
    | true => rw [kept_cons_of_isCompress hc, expand_of_isCompress hc]; exact ih hrest
    | false =>
      rw [kept_cons hc, expand_of_not_isCompress hc, rewind_cons,
        undo_expandAll hc hstop hrest.compressed]
      exact ih hrest

/-- What is left of the log is a history of the expanded store. -/
theorem History.kept_append (h : History (es ++ fs) σ) :
    History (kept es ++ fs) (expandAll es σ) := by
  induction es generalizing σ with
  | nil => exact h
  | cons c es ih =>
    obtain ⟨hcomp, hstop, hrest⟩ := h
    rw [expandAll_cons]
    cases hc : c.isCompress with
    | true => rw [kept_cons_of_isCompress hc, expand_of_isCompress hc]; exact ih hrest
    | false =>
      have hcomp' : Compressed (es ++ fs) σ := by
        have h2 := hcomp.2
        rwa [expand_of_not_isCompress hc] at h2
      have hcompUndo : Compressed es (c.undo σ) := (compressed_append.1 hrest.compressed).1
      rw [kept_cons hc, expand_of_not_isCompress hc]
      refine ⟨⟨shortens_of_not_isCompress hc, ?_⟩, ?_, ?_⟩
      · rw [expand_of_not_isCompress hc]
        exact compressed_kept_append (compressed_append.1 hcomp').2
      · rw [expandAll_eq]; exact hstop
      · rw [undo_expandAll hc hstop hcompUndo]; exact ih hrest

end Oxcaml.Typing.Types
