/-
Oxcaml.Lib.RoseTree — trees whose nodes have any number of children, with data at the
leaves.

A path lists the indexes of the children on the way down. `leaves` lists the leaves in
order, each with its path; the leaves below a path are a segment of this list, and
`before` and `after` are what stands to its left and to its right.
-/
import Mathlib.Tactic

set_option linter.all false

namespace Oxcaml.Lib

inductive RoseTree (α : Type)
  | leaf (a : α)
  | node (children : List (RoseTree α))

namespace RoseTree

variable {α : Type}

/-- Induction, with the hypothesis for every child. -/
theorem ind {P : RoseTree α → Prop} (hleaf : ∀ a, P (.leaf a))
    (hnode : ∀ children, (∀ c ∈ children, P c) → P (.node children)) (t : RoseTree α) : P t :=
  match t with
  | .leaf a => hleaf a
  | .node children => hnode children (all children)
where
  all : ∀ children : List (RoseTree α), ∀ c ∈ children, P c
    | [] => by simp
    | c :: children => List.forall_mem_cons.2 ⟨ind hleaf hnode c, all children⟩

/-! ## §1 Leaves -/

mutual

def leaves : RoseTree α → List (α × List ℕ)
  | .leaf a => [(a, [])]
  | .node children => leavesFrom 0 children

/-- The leaves of the children from the index `i` on. -/
def leavesFrom (i : ℕ) : List (RoseTree α) → List (α × List ℕ)
  | [] => []
  | c :: children => (leaves c).map (fun (a, p) => (a, i :: p)) ++ leavesFrom (i + 1) children

end

attribute [local grind =] leaves leavesFrom

/-- The leaves with a path in front of theirs. -/
def under (path : List ℕ) (l : List (α × List ℕ)) : List (α × List ℕ) :=
  l.map fun (a, p) => (a, path ++ p)

@[simp] theorem under_nil (path : List ℕ) : under path ([] : List (α × List ℕ)) = [] := rfl

@[simp] theorem nil_under (l : List (α × List ℕ)) : under [] l = l := by simp [under]

@[simp] theorem under_append (path : List ℕ) (l l' : List (α × List ℕ)) :
    under path (l ++ l') = under path l ++ under path l' := List.map_append

@[simp] theorem under_under (p q : List ℕ) (l : List (α × List ℕ)) :
    under p (under q l) = under (p ++ q) l := by
  simp [under, Function.comp_def]

variable {p : List ℕ} {a : α}

theorem mem_under {path : List ℕ} {l : List (α × List ℕ)} :
    (a, p) ∈ under path l ↔ ∃ q, p = path ++ q ∧ (a, q) ∈ l := by
  constructor
  · intro h
    obtain ⟨⟨b, q⟩, hmem, heq⟩ := List.mem_map.1 h
    obtain ⟨rfl, rfl⟩ := heq
    exact ⟨q, rfl, hmem⟩
  intro h
  obtain ⟨q, rfl, hmem⟩ := h
  exact List.mem_map.2 ⟨(a, q), hmem, rfl⟩

theorem leavesFrom_cons (i : ℕ) (c : RoseTree α) (children : List (RoseTree α)) :
    leavesFrom i (c :: children) = under [i] (leaves c) ++ leavesFrom (i + 1) children := by
  rw [leavesFrom]
  rfl

theorem leavesFrom_append (i : ℕ) (children children' : List (RoseTree α)) :
    leavesFrom i (children ++ children') =
      leavesFrom i children ++ leavesFrom (i + children.length) children' := by
  induction children generalizing i with
  | nil => simp [leavesFrom]
  | cons c children ih =>
    rw [List.cons_append, leavesFrom_cons, leavesFrom_cons, ih, List.append_assoc,
      List.length_cons, Nat.add_right_comm, Nat.add_assoc]

/-- A leaf is below one of the children. -/
theorem exists_of_mem_leavesFrom {i : ℕ} {children : List (RoseTree α)}
    (h : (a, p) ∈ leavesFrom i children) :
    ∃ j c q, children[j]? = some c ∧ p = (i + j) :: q ∧ (a, q) ∈ leaves c := by
  induction children generalizing i with
  | nil => simp [leavesFrom] at h
  | cons c children ih =>
    rw [leavesFrom_cons, List.mem_append, mem_under] at h
    rcases h with ⟨q, hp, hmem⟩ | h
    · exact ⟨0, c, q, rfl, hp, hmem⟩
    obtain ⟨j, d, q, hd, hp, hmem⟩ := ih h
    refine ⟨j + 1, d, q, hd, ?_, hmem⟩
    rw [hp, Nat.add_assoc, Nat.add_comm 1 j]

/-- No two leaves have the same path. -/
theorem leaves_nodup (t : RoseTree α) : ((leaves t).map Prod.snd).Nodup := by
  induction t using ind with
  | hleaf a => simp [leaves]
  | hnode children ih =>
    have hfrom : ∀ i, ((leavesFrom i children).map Prod.snd).Nodup := by
      induction children with
      | nil => simp [leavesFrom]
      | cons c children ihChildren =>
        intro i
        have hc : ((under [i] (leaves c)).map Prod.snd).Nodup := by
          have hmap : (under [i] (leaves c)).map Prod.snd =
              ((leaves c).map Prod.snd).map (i :: ·) := by
            simp [under]
          rw [hmap]
          exact (ih c List.mem_cons_self).map (List.cons_injective)
        have hrest := ihChildren (fun d hd => ih d (List.mem_cons_of_mem _ hd)) (i + 1)
        rw [leavesFrom_cons, List.map_append]
        refine List.nodup_append'.2 ⟨hc, hrest, ?_⟩
        intro p hp hp'
        obtain ⟨⟨a, q⟩, hmem, rfl⟩ := List.mem_map.1 hp
        obtain ⟨⟨b, q'⟩, hmem', heq⟩ := List.mem_map.1 hp'
        obtain ⟨r, hr, -⟩ := mem_under.1 hmem
        obtain ⟨j, -, r', -, hr', -⟩ := exists_of_mem_leavesFrom hmem'
        simp only at heq
        rw [heq, hr] at hr'
        simp only [List.cons_append, List.cons.injEq] at hr'
        omega
    exact hfrom 0

/-! ## §2 Paths -/

/-- The tree at the end of a path. -/
def at? : List ℕ → RoseTree α → Option (RoseTree α)
  | [], t => some t
  | _ :: _, .leaf _ => none
  | i :: p, .node children => children[i]?.bind (at? p)

/-- The leaves to the left of a path. -/
def before : List ℕ → RoseTree α → List (α × List ℕ)
  | [], _ => []
  | _ :: _, .leaf _ => []
  | i :: p, .node children =>
    leavesFrom 0 (children.take i) ++ under [i] ((children[i]?.map (before p)).getD [])

/-- The leaves to the right of a path. -/
def after : List ℕ → RoseTree α → List (α × List ℕ)
  | [], _ => []
  | _ :: _, .leaf _ => []
  | i :: p, .node children =>
    under [i] ((children[i]?.map (after p)).getD []) ++ leavesFrom (i + 1) (children.drop (i + 1))

attribute [local grind =] at? before after

theorem at?_append (p q : List ℕ) (t : RoseTree α) : at? (p ++ q) t = (at? p t).bind (at? q) := by
  induction p generalizing t with
  | nil => rfl
  | cons i p ih =>
    cases t with
    | leaf a => rfl
    | node children =>
      rw [List.cons_append, at?, at?]
      cases children[i]? with
      | none => rfl
      | some c => exact ih c

variable {t s : RoseTree α}

theorem before_append (q : List ℕ) (h : at? p t = some s) :
    before (p ++ q) t = before p t ++ under p (before q s) := by
  induction p generalizing t with
  | nil =>
    obtain rfl : t = s := by simpa [at?] using h
    simp [before]
  | cons i p ih =>
    cases t with
    | leaf a => simp [at?] at h
    | node children => obtain ⟨c, hc, h⟩ := Option.bind_eq_some_iff.1 h; simp [before, hc, ih h]

theorem after_append (q : List ℕ) (h : at? p t = some s) :
    after (p ++ q) t = under p (after q s) ++ after p t := by
  induction p generalizing t with
  | nil =>
    obtain rfl : t = s := by simpa [at?] using h
    simp [after]
  | cons i p ih =>
    cases t with
    | leaf a => simp [at?] at h
    | node children => obtain ⟨c, hc, h⟩ := Option.bind_eq_some_iff.1 h; simp [after, hc, ih h]

/-- The leaves below a path are a segment of the leaves. -/
theorem leaves_eq (h : at? p t = some s) :
    leaves t = before p t ++ under p (leaves s) ++ after p t := by
  induction p generalizing t with
  | nil =>
    obtain rfl : t = s := by simpa [at?] using h
    simp [before, after]
  | cons i p ih =>
    cases t with
    | leaf a => simp [at?] at h
    | node children =>
      rw [at?] at h
      cases hc : children[i]? with
      | none => simp [hc] at h
      | some c =>
        obtain ⟨hi, rfl⟩ := List.getElem?_eq_some_iff.1 hc
        have hsplit : children = children.take i ++ children[i] :: children.drop (i + 1) := by
          rw [← List.drop_eq_getElem_cons hi, List.take_append_drop]
        have hbelow := ih (by simpa [hc] using h)
        have hlen : (children.take i).length = i := List.length_take_of_le hi.le
        calc leaves (.node children)
            = leavesFrom 0 (children.take i ++ children[i] :: children.drop (i + 1)) := by
              rw [← hsplit, leaves]
          _ = leavesFrom 0 (children.take i) ++ under [i] (leaves children[i]) ++
                leavesFrom (i + 1) (children.drop (i + 1)) := by
              rw [leavesFrom_append, leavesFrom_cons, hlen, Nat.zero_add, List.append_assoc]
          _ = before (i :: p) (.node children) ++ under (i :: p) (leaves s) ++
                after (i :: p) (.node children) := by
              rw [hbelow]
              simp [before, after, hc]

/-- A leaf beside a path does not have the path in front of its own. -/
theorem not_prefix_of_mem_before {q : List ℕ} (h : (a, q) ∈ before p t) : ¬p <+: q := by
  induction p generalizing t q with
  | nil => simp [before] at h
  | cons i p ih =>
    cases t with
    | leaf a => simp [before] at h
    | node children =>
      rw [before, List.mem_append, mem_under] at h
      rcases h with h | ⟨r, rfl, hr⟩
      · obtain ⟨j, c, r, hc, rfl, -⟩ := exists_of_mem_leavesFrom h
        have hj : j < (children.take i).length := (List.getElem?_eq_some_iff.1 hc).1
        rw [List.length_take] at hj
        simp only [List.cons_prefix_cons]
        omega
      cases hc : children[i]? with
      | none => simp [hc] at hr
      | some c => simp only [hc,  Option.map_some] at hr; simpa using ih hr

theorem not_prefix_of_mem_after {q : List ℕ} (h : (a, q) ∈ after p t) : ¬p <+: q := by
  induction p generalizing t q with
  | nil => simp [after] at h
  | cons i p ih =>
    cases t with
    | leaf a => simp [after] at h
    | node children =>
      rw [after, List.mem_append, mem_under] at h
      rcases h with ⟨r, rfl, hr⟩ | h
      · cases hc : children[i]? with
        | none => simp [hc] at hr
        | some c => simp only [hc,  Option.map_some] at hr; simpa using ih hr
      obtain ⟨j, c, r, -, rfl, -⟩ := exists_of_mem_leavesFrom h
      simp only [List.cons_prefix_cons]
      omega

/-- The leaves below a path are those that have it in front of their own. -/
theorem filter_leaves (h : at? p t = some s) :
    (leaves t).filter (fun l => decide (p <+: l.2)) = under p (leaves s) := by
  have hbefore : (before p t).filter (fun l => decide (p <+: l.2)) = [] :=
    List.filter_eq_nil_iff.2 fun l hl => by simpa using not_prefix_of_mem_before hl
  have hafter : (after p t).filter (fun l => decide (p <+: l.2)) = [] :=
    List.filter_eq_nil_iff.2 fun l hl => by simpa using not_prefix_of_mem_after hl
  have hbelow : (under p (leaves s)).filter (fun l => decide (p <+: l.2)) = under p (leaves s) := by
    refine List.filter_eq_self.2 fun l hl => ?_
    obtain ⟨q, hq, -⟩ := mem_under.1 hl
    simp [hq]
  rw [leaves_eq h, List.filter_append, List.filter_append, hbefore, hafter, hbelow,
    List.nil_append, List.append_nil]

end RoseTree

end Oxcaml.Lib
