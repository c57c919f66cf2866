/-
Oxcaml.Flambda2.DataFlowGraphTheorems — the names and the code that are needed are exact.

`Step` takes any element of any of the three queues, and every step lowers one measure
(§2). Its invariant (§3) says what is below every closed pair of sets, what is done for the
elements that have left a queue, and that a version that is enqueued but not live has one
newer version that is done; so where two chains meet, the meeting point is live (§4). The
three loops are one order of the steps (§6).
-/
import Oxcaml.Flambda2.CodeAgeRelationTheorems
import Oxcaml.Flambda2.DataFlowGraph

set_option linter.all false

namespace Oxcaml.Flambda2.DataFlowGraph

open Finset (mem_insert mem_sdiff)

open CodeAgeRelation (Exn getOlderVersionOf Acyclic IsVersionOf isVersionOf_step)
open Relation (ReflTransGen)
open Oxcaml.Lib (Halts)

variable {ν κ : Type} [LinearOrder ν] [LinearOrder κ] {t : T ν κ} {s s' : State ν κ}

/-! ## §1 What is needed -/

/-- The older version of a code id. -/
def older (t : T ν κ) (id : κ) : Option κ := getOlderVersionOf t.codeAgeRelation id

/-- `c` is an ancestor of `a` and `b`, and every other one is an ancestor of `c`. -/
structure IsNearest (t : T ν κ) (a b c : κ) : Prop where
  left : IsVersionOf (older t) a c
  right : IsVersionOf (older t) b c
  nearest : ∀ d, IsVersionOf (older t) a d → IsVersionOf (older t) b d → IsVersionOf (older t) c d

structure Closed (t : T ν κ) (names : Set ν) (codeIds : Set κ) : Prop where
  used : ∀ n ∈ t.unconditionallyUsed, n ∈ names
  code_used : ∀ c ∈ t.codeIdUnconditionallyUsed, c ∈ codeIds
  name_name : ∀ n ∈ names, ∀ m ∈ neighbours t.nameToName n, m ∈ names
  name_code : ∀ n ∈ names, ∀ c ∈ neighbours t.nameToCodeId n, c ∈ codeIds
  code_name : ∀ c ∈ codeIds, ∀ n ∈ neighbours t.codeIdToName c, n ∈ names
  code_code : ∀ c ∈ codeIds, ∀ d ∈ neighbours t.codeIdToCodeId c, d ∈ codeIds
  nearest : ∀ a ∈ codeIds, ∀ b ∈ codeIds, ∀ c, IsNearest t a b c → c ∈ codeIds

variable {a b d src c : κ}

/-- Two newer versions of `d` on different branches meet in `d`. -/
theorem isNearest_of_fork (hacyclic : Acyclic (older t)) {x y : κ}
    (ha : IsVersionOf (older t) a x) (hb : IsVersionOf (older t) b y) (hx : older t x = some d)
    (hy : older t y = some d) (hne : x ≠ y) : IsNearest t a b d := by
  have hapart : ∀ {x y : κ}, older t x = some d → older t y = some d → x ≠ y →
      ¬IsVersionOf (older t) x y := by
    intro x y hx hy hne hxy
    rcases (isVersionOf_step hx).1 hxy with heq | hdy
    · exact hne heq
    · exact hacyclic.no_cycle y (.head' hy hdy)
  refine ⟨ha.tail hx, hb.tail hy, fun e hae hbe => ?_⟩
  rcases ha.total hae with hxe | hex
  · rcases (isVersionOf_step hx).1 hxe with rfl | hde
    · rcases hb.total hbe with hyx | hxy
      · exact absurd hyx (hapart hy hx hne.symm)
      · exact absurd hxy (hapart hx hy hne)
    · exact hde
  rcases hb.total hbe with hye | hey
  · rcases (isVersionOf_step hy).1 hye with rfl | hde
    · exact absurd hex (hapart hy hx hne.symm)
    · exact hde
  rcases hex.total hey with hxy | hyx
  · exact absurd hxy (hapart hx hy hne)
  · exact absurd hyx (hapart hy hx hne.symm)

/-! ## §2 Steps in any order -/

inductive Step (t : T ν κ) (s : State ν κ) : State ν κ → Prop
  | name {before after : List ν} {src : ν} : s.nameQueue = before ++ src :: after →
      Step t s (takeName t s src (before ++ after))
  | codeId {before after : List κ} {src : κ} : s.codeIdQueue = before ++ src :: after →
      Step t s (takeCodeId t s src (before ++ after))
  | older {before after : List κ} {src : κ} : s.olderQueue = before ++ src :: after →
      Step t s (takeOlder t s src (before ++ after))

/-- All queues are empty. -/
structure Final (s : State ν κ) : Prop where
  nameQueue : s.nameQueue = []
  codeIdQueue : s.codeIdQueue = []
  olderQueue : s.olderQueue = []

theorem final_iff (t : T ν κ) : Final s ↔ ∀ s', ¬Step t s s' := by
  constructor
  · intro h s' hstep
    cases hstep with
    | name hq => simp [h.nameQueue] at hq
    | codeId hq => simp [h.codeIdQueue] at hq
    | older hq => simp [h.olderQueue] at hq
  intro h
  constructor
  · cases hq : s.nameQueue with
    | nil => rfl
    | cons src rest => exact absurd (@Step.name _ _ _ _ t s [] rest src hq) (h _)
  · cases hq : s.codeIdQueue with
    | nil => rfl
    | cons src rest => exact absurd (@Step.codeId _ _ _ _ t s [] rest src hq) (h _)
  cases hq : s.olderQueue with
  | nil => rfl
  | cons src rest => exact absurd (@Step.older _ _ _ _ t s [] rest src hq) (h _)

/-- What can be enqueued. -/
structure Bounds (t : T ν κ) (names : Finset ν) (codeIds : Finset κ) : Prop where
  name_name : ∀ n, neighbours t.nameToName n ⊆ names
  name_code : ∀ n, neighbours t.nameToCodeId n ⊆ codeIds
  code_name : ∀ c, neighbours t.codeIdToName c ⊆ names
  code_code : ∀ c, neighbours t.codeIdToCodeId c ⊆ codeIds
  older : ∀ c d, older t c = some d → d ∈ codeIds
  used : t.unconditionallyUsed ⊆ names
  code_used : t.codeIdUnconditionallyUsed ⊆ codeIds

/-- One queue: what waits, and what is not enqueued yet. -/
def waiting {α : Type} [DecidableEq α] (bound enqueued : Finset α) (queue : List α) : ℕ :=
  (bound \ enqueued).card + queue.length

def measure (names : Finset ν) (codeIds : Finset κ) (s : State ν κ) : ℕ :=
  waiting names s.nameEnqueued s.nameQueue + waiting codeIds s.codeIdEnqueued s.codeIdQueue +
    waiting codeIds s.olderEnqueued s.olderQueue

variable {α β : Type}

theorem waiting_push [LinearOrder α] [LinearOrder β] {bound : Finset β} {src : α}
    {graph : Std.ExtTreeMap α (Finset β)} (h : neighbours graph src ⊆ bound) (enqueued : Finset β)
    (queue : List β) :
    waiting bound (push src enqueued queue graph).1 (push src enqueued queue graph).2 =
      waiting bound enqueued queue := by
  have hcard : (bound \ (enqueued ∪ (neighbours graph src \ enqueued))).card +
      (neighbours graph src \ enqueued).card = (bound \ enqueued).card := by
    rw [← Finset.card_union_of_disjoint]
    · congr 1
      ext x
      simp only [Finset.mem_union, mem_sdiff]
      tauto
    · refine Finset.disjoint_left.2 fun x hx hnew => ?_
      exact (mem_sdiff.1 hx).2 (Finset.mem_union_right _ hnew)
  simp only [push, waiting, List.length_append, Finset.length_sort]
  omega

theorem waiting_insert [DecidableEq α] {bound enqueued : Finset α} {x : α}
    (hx : x ∈ bound) (hnew : x ∉ enqueued) (queue : List α) :
    waiting bound (insert x enqueued) (queue ++ [x]) = waiting bound enqueued queue := by
  have herase : bound \ insert x enqueued = (bound \ enqueued).erase x := by
    ext y
    simp only [mem_sdiff, mem_insert, Finset.mem_erase]
    tauto
  have hmem : x ∈ bound \ enqueued := mem_sdiff.2 ⟨hx, hnew⟩
  have hpos := Finset.card_pos.2 ⟨x, hmem⟩
  rw [waiting, waiting, herase, Finset.card_erase_of_mem hmem, List.length_append]
  simp only [List.length_singleton]
  omega

/-! ## §3 The invariant -/

/-- The elements in a queue are still to be done; the others are done. -/
structure Inv (t : T ν κ) (s : State ν κ) : Prop where
  names_queued : ∀ n ∈ s.nameQueue, n ∈ s.nameEnqueued
  codeIds_queued : ∀ c ∈ s.codeIdQueue, c ∈ s.codeIdEnqueued
  older_queued : ∀ o ∈ s.olderQueue, o ∈ s.olderEnqueued
  nodup : s.olderQueue.Nodup
  used : ∀ n ∈ t.unconditionallyUsed, n ∈ s.nameEnqueued
  code_used : ∀ c ∈ t.codeIdUnconditionallyUsed, c ∈ s.codeIdEnqueued
  name_below : ∀ names codeIds, Closed t names codeIds → ∀ n ∈ s.nameEnqueued, n ∈ names
  code_below : ∀ names codeIds, Closed t names codeIds → ∀ c ∈ s.codeIdEnqueued, c ∈ codeIds
  version : ∀ o ∈ s.olderEnqueued, ∃ a ∈ s.codeIdEnqueued, IsVersionOf (older t) a o
  name_name : ∀ n ∈ s.nameEnqueued, n ∉ s.nameQueue → ∀ m ∈ neighbours t.nameToName n,
    m ∈ s.nameEnqueued
  name_code : ∀ n ∈ s.nameEnqueued, n ∉ s.nameQueue → ∀ c ∈ neighbours t.nameToCodeId n,
    c ∈ s.codeIdEnqueued
  code_name : ∀ c ∈ s.codeIdEnqueued, c ∉ s.codeIdQueue → ∀ n ∈ neighbours t.codeIdToName c,
    n ∈ s.nameEnqueued
  code_code : ∀ c ∈ s.codeIdEnqueued, c ∉ s.codeIdQueue → ∀ d ∈ neighbours t.codeIdToCodeId c,
    d ∈ s.codeIdEnqueued
  code_older : ∀ c ∈ s.codeIdEnqueued, c ∉ s.codeIdQueue → c ∈ s.olderEnqueued
  older_done : ∀ o ∈ s.olderEnqueued, o ∉ s.olderQueue → ∀ d, older t o = some d →
    d ∈ s.olderEnqueued
  /-- Two versions that are done with one older version make it live. -/
  fork : ∀ x ∈ s.olderEnqueued, x ∉ s.olderQueue → ∀ y ∈ s.olderEnqueued, y ∉ s.olderQueue →
    x ≠ y → ∀ d, older t x = some d → older t y = some d → d ∈ s.codeIdEnqueued
  /-- What is enqueued without being live has a newer version that is done. -/
  newer : ∀ d ∈ s.olderEnqueued, d ∉ s.codeIdEnqueued →
    ∃ o ∈ s.olderEnqueued, o ∉ s.olderQueue ∧ older t o = some d

section Push

variable {α β : Type} [LinearOrder α] [LinearOrder β] {src : α} {enqueued : Finset β}
  {queue : List β} {graph : Std.ExtTreeMap α (Finset β)} {x : β}

theorem mem_push_fst : x ∈ (push src enqueued queue graph).1 ↔
    x ∈ enqueued ∨ x ∈ neighbours graph src := by
  simp only [push, Finset.mem_union, mem_sdiff]
  tauto

theorem mem_push_snd : x ∈ (push src enqueued queue graph).2 ↔
    x ∈ queue ∨ x ∈ neighbours graph src ∧ x ∉ enqueued := by
  simp [push]

end Push

theorem mem_of_take {queue before after : List α} {src : α}
    (hq : queue = before ++ src :: after) (x : α) : x ∈ queue ↔ x = src ∨ x ∈ before ++ after := by
  simp [hq]
  tauto

theorem Inv.takeName {before after : List ν} {src : ν} (h : Inv t s)
    (hq : s.nameQueue = before ++ src :: after) : Inv t (takeName t s src (before ++ after)) := by
  have hsrc : src ∈ s.nameEnqueued := h.names_queued src (by simp [hq])
  constructor <;> simp only [DataFlowGraph.takeName, mem_push_fst, mem_push_snd]
  case names_queued => grind [h.names_queued]
  case codeIds_queued => grind [h.codeIds_queued]
  case older_queued => exact h.older_queued
  case nodup => exact h.nodup
  case used => grind [h.used]
  case code_used => grind [h.code_used]
  case name_below =>
    rintro names codeIds hclosed n (hn | hn)
    · exact h.name_below names codeIds hclosed n hn
    · exact hclosed.name_name src (h.name_below names codeIds hclosed src hsrc) n hn
  case code_below =>
    rintro names codeIds hclosed c (hc | hc)
    · exact h.code_below names codeIds hclosed c hc
    · exact hclosed.name_code src (h.name_below names codeIds hclosed src hsrc) c hc
  case version => grind [h.version]
  case name_name => grind [h.name_name]
  case name_code => grind [h.name_code]
  case code_name => grind [h.code_name]
  case code_code => grind [h.code_code]
  case code_older => grind [h.code_older]
  case older_done => exact h.older_done
  case fork => grind [h.fork]
  case newer => grind [h.newer]

variable {before after : List κ}

/-- The code id `src` is taken; its older versions are enqueued unless they are. -/
theorem Inv.takeCodeId (h : Inv t s) (hq : s.codeIdQueue = before ++ src :: after) :
    Inv t (takeCodeId t s src (before ++ after)) := by
  have hsrc : src ∈ s.codeIdEnqueued := h.codeIds_queued src (by simp [hq])
  have hname_below : ∀ names codeIds, Closed t names codeIds → ∀ n ∈ neighbours t.codeIdToName src,
      n ∈ names := fun names codeIds hclosed n =>
    hclosed.code_name src (h.code_below names codeIds hclosed src hsrc) n
  have hcode_below : ∀ names codeIds, Closed t names codeIds →
      ∀ c ∈ neighbours t.codeIdToCodeId src, c ∈ codeIds := fun names codeIds hclosed c =>
    hclosed.code_code src (h.code_below names codeIds hclosed src hsrc) c
  simp only [DataFlowGraph.takeCodeId]
  split
  case isTrue holder =>
    constructor <;> simp only [mem_push_fst, mem_push_snd]
    case names_queued => grind [h.names_queued]
    case codeIds_queued => grind [h.codeIds_queued]
    case older_queued => exact h.older_queued
    case nodup => exact h.nodup
    case used => grind [h.used]
    case code_used => grind [h.code_used]
    case name_below => grind [h.name_below]
    case code_below => grind [h.code_below]
    case version => grind [h.version]
    case name_name => grind [h.name_name]
    case name_code => grind [h.name_code]
    case code_name => grind [h.code_name]
    case code_code => grind [h.code_code]
    case code_older => grind [h.code_older]
    case older_done => exact h.older_done
    case fork => grind [h.fork]
    case newer => grind [h.newer]
  case isFalse holder =>
    have hsrcq : src ∉ s.olderQueue := fun hmem => holder (h.older_queued src hmem)
    constructor <;>
      simp only [mem_push_fst, mem_push_snd, mem_insert, List.mem_append]
    case names_queued => grind [h.names_queued]
    case codeIds_queued => grind [h.codeIds_queued]
    case older_queued => grind [h.older_queued]
    case nodup => grind [h.nodup]
    case used => grind [h.used]
    case code_used => grind [h.code_used]
    case name_below => grind [h.name_below]
    case code_below => grind [h.code_below]
    case version =>
      rintro o (rfl | ho)
      · exact ⟨o, .inl hsrc, .refl⟩
      · grind [h.version]
    case name_name => grind [h.name_name]
    case name_code => grind [h.name_code]
    case code_name => grind [h.code_name]
    case code_code => grind [h.code_code]
    case code_older => grind [h.code_older]
    case older_done => grind [h.older_done]
    case fork => grind [h.fork]
    case newer => grind [h.newer]

/-- The code id `src` leaves the queue of older versions, and nothing is enqueued. -/
theorem Inv.dropOlder (h : Inv t s) (hq : s.olderQueue = before ++ src :: after)
    (hdst : ∀ d, older t src = some d → d ∈ s.olderEnqueued ∧ d ∈ s.codeIdEnqueued) :
    Inv t { s with olderQueue := before ++ after } := by
  have hnodup := h.nodup
  rw [hq, List.nodup_middle, List.nodup_cons] at hnodup
  refine { h with older_queued := ?_, nodup := hnodup.2, older_done := ?_, fork := ?_, newer := ?_ }
  · grind [h.older_queued]
  · grind [h.older_done]
  · grind [h.fork]
  · grind [h.newer]

/-- A code id that two live code ids meet in becomes live. -/
theorem Inv.insertCodeId (h : Inv t s) (hd : d ∈ s.olderEnqueued)
    (hbelow : ∀ names codeIds, Closed t names codeIds → d ∈ codeIds) :
    Inv t { s with
      codeIdEnqueued := insert d s.codeIdEnqueued, codeIdQueue := s.codeIdQueue ++ [d] } := by
  constructor <;> simp only [List.mem_append]
  case names_queued => exact h.names_queued
  case codeIds_queued => grind [h.codeIds_queued]
  case older_queued => exact h.older_queued
  case nodup => exact h.nodup
  case used => exact h.used
  case code_used => grind [h.code_used]
  case name_below => exact h.name_below
  case code_below => grind [h.code_below]
  case version => grind [h.version]
  case name_name => exact h.name_name
  case name_code => grind [h.name_code]
  case code_name => grind [h.code_name]
  case code_code => grind [h.code_code]
  case code_older => grind [h.code_older]
  case older_done => exact h.older_done
  case fork => grind [h.fork]
  case newer => grind [h.newer]

theorem Inv.takeOlder (hacyclic : Acyclic (older t)) (h : Inv t s)
    (hq : s.olderQueue = before ++ src :: after) : Inv t (takeOlder t s src (before ++ after)) := by
  have hsrc : src ∈ s.olderEnqueued := h.older_queued src (by simp [hq])
  have hqueue := mem_of_take hq
  simp only [DataFlowGraph.takeOlder]
  cases hdst : getOlderVersionOf t.codeAgeRelation src with
  | none => refine h.dropOlder hq fun d hd => ?_; cases hdst.symm.trans hd
  | some dst =>
    dsimp only
    split
    case isTrue holder =>
      split
      case isTrue hlive =>
        refine h.dropOlder hq fun d hd => ?_
        cases hdst.symm.trans hd
        exact ⟨holder, hlive⟩
      case isFalse hlive =>
        -- another version that is done leads to `dst`
        obtain ⟨o, ho, hoq, hod⟩ := h.newer dst holder hlive
        have hne : o ≠ src := fun heq => hoq ((hqueue o).2 (.inl heq))
        obtain ⟨a, ha, hao⟩ := h.version o ho
        obtain ⟨b, hb, hbsrc⟩ := h.version src hsrc
        have hbelow : ∀ names codeIds, Closed t names codeIds → dst ∈ codeIds := by
          intro names codeIds hclosed
          exact hclosed.nearest a (h.code_below names codeIds hclosed a ha) b
            (h.code_below names codeIds hclosed b hb) dst
            (isNearest_of_fork hacyclic hao hbsrc hod hdst hne)
        refine (h.insertCodeId holder hbelow).dropOlder hq fun d hd => ?_
        cases hdst.symm.trans hd
        exact ⟨holder, Finset.mem_insert_self dst _⟩
    case isFalse holder =>
      have hnodup := h.nodup
      rw [hq, List.nodup_middle] at hnodup
      have hdstq : dst ∉ s.olderQueue := fun hmem => holder (h.older_queued dst hmem)
      have holderd : older t src = some dst := hdst
      refine { h with
          older_queued := ?_, nodup := ?_, version := ?_, code_older := ?_, older_done := ?_
          fork := ?_, newer := ?_ } <;>
        simp only [mem_insert, List.mem_append]
      · grind [h.older_queued]
      · grind [List.nodup_append]
      · rintro o (rfl | ho)
        · obtain ⟨b, hb, hbsrc⟩ := h.version src hsrc; exact ⟨b, hb, hbsrc.tail hdst⟩
        · exact h.version o ho
      · grind [h.code_older]
      · grind [h.older_done]
      · grind [h.fork, h.older_done]
      · grind [h.newer]

theorem Inv.step (hacyclic : Acyclic (older t)) (h : Inv t s) (hstep : Step t s s') : Inv t s' := by
  cases hstep with
  | name hq => exact h.takeName hq
  | codeId hq => exact h.takeCodeId hq
  | older hq => exact h.takeOlder hacyclic hq

theorem inv_start (htop : t.isToplevel = true) : Inv t (start t) := by
  constructor
  case name_below => exact fun names codeIds hclosed => hclosed.used
  case code_below => exact fun names codeIds hclosed => hclosed.code_used
  all_goals simp +contextual [start, htop]

/-! ## §4 Where all queues are empty -/

section Final

variable (hacyclic : Acyclic (older t)) (h : Inv t s) (hfinal : Final s)
include h hfinal

/-- What is enqueued is closed under older versions. -/
theorem Inv.mem_older (hc : c ∈ s.olderEnqueued) (hcd : IsVersionOf (older t) c d) :
    d ∈ s.olderEnqueued := by
  induction hcd with
  | refl => exact hc
  | tail _ hstep ih => exact h.older_done _ ih (by simp [hfinal.olderQueue]) _ hstep

theorem Inv.mem_olderEnqueued {o : κ} :
    o ∈ s.olderEnqueued ↔ ∃ a ∈ s.codeIdEnqueued, IsVersionOf (older t) a o := by
  constructor
  · exact h.version o
  · rintro ⟨a, ha, hao⟩
    exact h.mem_older hfinal (h.code_older a ha (by simp [hfinal.codeIdQueue])) hao

include hacyclic

/-- Two chains that meet are in a fork, or one starts where they meet. -/
theorem Inv.mem_nearest (ha : a ∈ s.codeIdEnqueued) (hb : b ∈ s.codeIdEnqueued)
    (hc : IsNearest t a b c) : c ∈ s.codeIdEnqueued := by
  have hdone : ∀ x, x ∉ s.olderQueue := by simp [hfinal.olderQueue]
  rcases hc.left.cases_tail with heq | ⟨x, hax, hxc⟩
  · exact heq ▸ ha
  rcases hc.right.cases_tail with heq | ⟨y, hby, hyc⟩
  · exact heq ▸ hb
  have hx : x ∈ s.olderEnqueued := (h.mem_olderEnqueued hfinal).2 ⟨a, ha, hax⟩
  have hy : y ∈ s.olderEnqueued := (h.mem_olderEnqueued hfinal).2 ⟨b, hb, hby⟩
  by_cases hxy : x = y
  · subst hxy; exact absurd (.head' hxc (hc.nearest x hax hby)) (hacyclic.no_cycle x)
  · exact h.fork x hx (hdone x) y hy (hdone y) hxy c hxc hyc

theorem Inv.closed : Closed t ↑s.nameEnqueued ↑s.codeIdEnqueued where
  used := h.used
  code_used := h.code_used
  name_name := fun n hn => h.name_name n hn (by simp [hfinal.nameQueue])
  name_code := fun n hn => h.name_code n hn (by simp [hfinal.nameQueue])
  code_name := fun c hc => h.code_name c hc (by simp [hfinal.codeIdQueue])
  code_code := fun c hc => h.code_code c hc (by simp [hfinal.codeIdQueue])
  nearest := fun _ ha _ hb _ hc => h.mem_nearest hacyclic hfinal ha hb hc

end Final

/-- Two final states with the invariant agree. -/
theorem Inv.unique (hacyclic : Acyclic (older t)) (h : Inv t s) (hfinal : Final s) (h' : Inv t s')
    (hfinal' : Final s') : s' = s := by
  have hclosed := h.closed hacyclic hfinal
  have hclosed' := h'.closed hacyclic hfinal'
  have hnames : s'.nameEnqueued = s.nameEnqueued := by
    ext n
    exact ⟨h'.name_below _ _ hclosed n, h.name_below _ _ hclosed' n⟩
  have hcodeIds : s'.codeIdEnqueued = s.codeIdEnqueued := by
    ext c
    exact ⟨h'.code_below _ _ hclosed c, h.code_below _ _ hclosed' c⟩
  have holder : s'.olderEnqueued = s.olderEnqueued := by
    ext o
    rw [h'.mem_olderEnqueued hfinal', h.mem_olderEnqueued hfinal, hcodeIds]
  obtain ⟨hn, hc, ho⟩ := hfinal
  obtain ⟨hn', hc', ho'⟩ := hfinal'
  cases s
  cases s'
  simp_all

/-! ## §5 Every run ends -/

theorem exists_bound [LinearOrder α] [LinearOrder β]
    (graph : Std.ExtTreeMap α (Finset β)) : ∃ bound, ∀ src, neighbours graph src ⊆ bound := by
  refine ⟨(graph.toList.map Prod.snd).toFinset.sup id, fun src => ?_⟩
  rw [neighbours]
  cases hsrc : graph[src]? with
  | none => exact Finset.empty_subset _
  | some set =>
    have hmem : set ∈ (graph.toList.map Prod.snd).toFinset :=
      List.mem_toFinset.2 (List.mem_map_of_mem (Lib.mem_toList.2 hsrc))
    exact Finset.le_sup (f := id) hmem

theorem exists_bounds (t : T ν κ) : ∃ names codeIds, Bounds t names codeIds := by
  obtain ⟨names, hnames⟩ := exists_bound t.nameToName
  obtain ⟨codeIds, hcodeIds⟩ := exists_bound t.nameToCodeId
  obtain ⟨names', hnames'⟩ := exists_bound t.codeIdToName
  obtain ⟨codeIds', hcodeIds'⟩ := exists_bound t.codeIdToCodeId
  let olderIds := (t.codeAgeRelation.toList.map Prod.snd).toFinset
  have holder : ∀ c d, older t c = some d → d ∈ olderIds := fun c d hd =>
    List.mem_toFinset.2 (List.mem_map_of_mem (Lib.mem_toList.2 hd))
  refine ⟨names ∪ names' ∪ t.unconditionallyUsed,
    codeIds ∪ codeIds' ∪ olderIds ∪ t.codeIdUnconditionallyUsed, ?_⟩
  constructor <;> simp only [Finset.subset_iff] at *
  case name_name => grind
  case name_code => grind
  case code_name => grind
  case code_code => grind
  case older => grind
  case used => grind
  case code_used => grind

variable {codeIds : Finset κ} {names : Finset ν}

/-- Whatever can be enqueued is closed. -/
theorem Bounds.closed (h : Bounds t names codeIds) :
    Closed t ↑names ↑codeIds where
  used := fun n hn => h.used hn
  code_used := fun c hc => h.code_used hc
  name_name := fun n _ m hm => h.name_name n hm
  name_code := fun n _ c hc => h.name_code n hc
  code_name := fun c _ n hn => h.code_name c hn
  code_code := fun c _ d hd => h.code_code c hd
  nearest := by
    intro a ha b _ c hc
    rcases hc.left.cases_tail with heq | ⟨x, -, hxc⟩
    · exact heq ▸ ha
    · exact h.older x c hxc

theorem measure_takeName {names : Finset ν} {codeIds : Finset κ} (h : Bounds t names codeIds)
    {before after : List ν} {src : ν} (hq : s.nameQueue = before ++ src :: after) :
    measure names codeIds (takeName t s src (before ++ after)) < measure names codeIds s := by
  simp only [measure, takeName, waiting_push (h.name_name src), waiting_push (h.name_code src)]
  simp only [waiting, hq, List.length_append, List.length_cons]
  omega

/-- Every step takes an element for good. -/
theorem measure_step (hbounds : Bounds t names codeIds)
    (h : Inv t s) (hstep : Step t s s') : measure names codeIds s' < measure names codeIds s := by
  cases hstep with
  | name hq => exact measure_takeName hbounds hq
  | @codeId before after src hq =>
    have hsrc : src ∈ codeIds :=
      h.code_below _ _ hbounds.closed src (h.codeIds_queued src (by simp [hq]))
    simp only [measure, takeCodeId]
    split
    case isTrue =>
      rw [waiting_push (hbounds.code_name src), waiting_push (hbounds.code_code src)]
      simp only [waiting, hq, List.length_append, List.length_cons]
      omega
    case isFalse holder =>
      rw [waiting_push (hbounds.code_name src), waiting_push (hbounds.code_code src),
        waiting_insert hsrc holder]
      simp only [waiting, hq, List.length_append, List.length_cons]
      omega
  | @older before after src hq =>
    have hdrop : waiting codeIds s.olderEnqueued (before ++ after) <
        waiting codeIds s.olderEnqueued s.olderQueue := by
      simp only [waiting, hq, List.length_append, List.length_cons]
      omega
    simp only [measure, takeOlder]
    cases hdst : getOlderVersionOf t.codeAgeRelation src with
    | none => exact Nat.add_lt_add_left hdrop _
    | some dst =>
      have hmem : dst ∈ codeIds := hbounds.older src dst hdst
      dsimp only
      split
      case isTrue =>
        split
        case isTrue => exact Nat.add_lt_add_left hdrop _
        case isFalse hlive => rw [waiting_insert hmem hlive]; exact Nat.add_lt_add_left hdrop _
      case isFalse holder => rw [waiting_insert hmem holder]; exact Nat.add_lt_add_left hdrop _

/-! ## §6 The loops -/

/-- The result of a state. -/
def State.result (s : State ν κ) : Result ν κ :=
  ⟨s.nameEnqueued, some ⟨s.codeIdEnqueued, s.olderEnqueued⟩⟩

/-- What a loop that starts in `s` returns. -/
def Ends (t : T ν κ) (s : State ν κ) (r : Result ν κ) : Prop :=
  ∃ s', ReflTransGen (Step t) s s' ∧ Final s' ∧ r = s'.result

theorem Ends.head {r : Result ν κ} (hstep : Step t s s') (h : Ends t s' r) : Ends t s r := by
  obtain ⟨s'', hrun, hfinal, hr⟩ := h
  exact ⟨s'', hrun.head hstep, hfinal, hr⟩

theorem loops_halt (hacyclic : Acyclic (older t)) (htop : t.isToplevel = true) (h : Inv t s) :
    (s.olderQueue = [] → Halts (fun fuel => reachableNames fuel t s) (Ends t s)) ∧
      Halts (fun fuel => reachableCodeIds fuel t s) (Ends t s) ∧
      Halts (fun fuel => reachableOlderCodeIds fuel t s) (Ends t s) := by
  obtain ⟨names, codeIds, hbounds⟩ := exists_bounds t
  induction hm : measure names codeIds s using Nat.strongRecOn generalizing s with | ind m ih =>
have ih : ∀ {s'}, Step t s s' →
    (s'.olderQueue = [] → Halts (fun fuel => reachableNames fuel t s') (Ends t s)) ∧
      Halts (fun fuel => reachableCodeIds fuel t s') (Ends t s) ∧
      Halts (fun fuel => reachableOlderCodeIds fuel t s') (Ends t s) := by
  intro s' hstep
  have hlt := measure_step hbounds h hstep
  obtain ⟨hn, hc, ho⟩ := ih _ (hm ▸ hlt) (h.step hacyclic hstep) rfl
  exact ⟨fun hq => (hn hq).mono fun r => .head hstep, hc.mono fun r => .head hstep,
    ho.mono fun r => .head hstep⟩
have hcode : s.codeIdQueue ≠ [] → Halts (fun fuel => reachableCodeIds fuel t s) (Ends t s) := by
  intro hne
  obtain ⟨src, rest, hq⟩ := List.exists_cons_of_ne_nil hne
  apply Halts.of_succ
  simp only [reachableCodeIds, hq]
  exact (ih (@Step.codeId _ _ _ _ t s [] rest src hq)).2.1
have holder : s.olderQueue ≠ [] →
    Halts (fun fuel => reachableOlderCodeIds fuel t s) (Ends t s) := by
  intro hne
  obtain ⟨src, rest, hq⟩ := List.exists_cons_of_ne_nil hne
  apply Halts.of_succ
  simp only [reachableOlderCodeIds, hq]
  exact (ih (@Step.older _ _ _ _ t s [] rest src hq)).2.2
have hnames : s.olderQueue = [] → Halts (fun fuel => reachableNames fuel t s) (Ends t s) := by
  intro hempty
  apply Halts.of_succ
  cases hq : s.nameQueue with
  | cons src rest =>
    simp only [reachableNames, hq]
    exact (ih (@Step.name _ _ _ _ t s [] rest src hq)).1 hempty
  | nil =>
    -- the queue of older versions that it makes is as empty as the one it had
    have hsame : { s with olderQueue := [] } = s := by rw [← hempty]
    simp only [reachableNames, htop, hsame]
    rw [hq]
    by_cases hc : s.codeIdQueue = []
    · simp only [hc, List.isEmpty_nil]; exact .pure ⟨s, .refl, ⟨hq, hc, hempty⟩, rfl⟩
    · simp only [List.isEmpty_iff, hc]; exact hcode hc
have hcode' : Halts (fun fuel => reachableCodeIds fuel t s) (Ends t s) := by
  by_cases hc : s.codeIdQueue = []
  · apply Halts.of_succ
    simp only [reachableCodeIds, hc]
    by_cases ho : s.olderQueue = []
    · simp only [ho, List.isEmpty_nil]; exact hnames ho
    · simp only [List.isEmpty_iff, ho]; exact holder ho
  · exact hcode hc
refine ⟨hnames, hcode', ?_⟩
by_cases ho : s.olderQueue = []
· apply Halts.of_succ
  simp only [reachableOlderCodeIds, ho]
  exact hcode'
· exact holder ho

/-- Without the top level only the names are followed. -/
theorem reachableNames_unknown (htop : t.isToplevel = false) (s : State ν κ) :
    Halts (fun fuel => reachableNames fuel t s) fun r => r.reachableCodeIds = none := by
  obtain ⟨names, codeIds, hbounds⟩ := exists_bounds t
  induction hm : measure names codeIds s using Nat.strongRecOn generalizing s with | ind m ih =>
apply Halts.of_succ
cases hq : s.nameQueue with
| nil => simp only [reachableNames, hq, htop]; exact .pure rfl
| cons src rest =>
  simp only [reachableNames, hq]
  have hlt := @measure_takeName _ _ _ _ t s _ _ hbounds [] _ _ hq
  exact ih _ (hm ▸ hlt) _ rfl

/-! ## §7 Required names -/

/-- The graphs that the operations build from an empty one. -/
inductive Built (codeIdsToNeverDelete : Finset κ) : T ν κ → Prop
  | empty (codeAgeRelation : CodeAgeRelation.T κ) (isToplevel : Bool) :
      Built codeIdsToNeverDelete (empty codeAgeRelation isToplevel codeIdsToNeverDelete)
  | addCodeIdDep {t t' : T ν κ} {src : ν} {dst : Finset κ} : Built codeIdsToNeverDelete t →
      addCodeIdDep src dst t = some t' → Built codeIdsToNeverDelete t'
  | addDependency {t : T ν κ} (src dst : ν) : Built codeIdsToNeverDelete t →
      Built codeIdsToNeverDelete (addDependency src dst t)
  | addCodeIdDependency {t : T ν κ} (src : κ) (dst : ν) : Built codeIdsToNeverDelete t →
      Built codeIdsToNeverDelete (addCodeIdDependency src dst t)
  | addCodeIdToCodeId {t t' : T ν κ} {src : κ} {dst : Finset κ} : Built codeIdsToNeverDelete t →
      addCodeIdToCodeId src dst t = some t' → Built codeIdsToNeverDelete t'
  | addNameOccurrences {t : T ν κ} (names : Finset ν) (codeIds : Finset κ) :
      Built codeIdsToNeverDelete t → Built codeIdsToNeverDelete (addNameOccurrences names codeIds t)

theorem Built.subset {codeIdsToNeverDelete : Finset κ} (h : Built codeIdsToNeverDelete t) :
    codeIdsToNeverDelete ⊆ t.codeIdUnconditionallyUsed := by
  induction h with
  | empty => exact Finset.Subset.refl _
  | addCodeIdDep _ hadd ih =>
    obtain ⟨graph, -, heq⟩ := Option.bind_eq_some_iff.1 hadd
    cases heq
    exact ih
  | addCodeIdToCodeId _ hadd ih =>
    obtain ⟨graph, -, heq⟩ := Option.bind_eq_some_iff.1 hadd
    cases heq
    exact ih
  | addDependency _ _ _ ih | addCodeIdDependency _ _ _ ih => exact ih
  | addNameOccurrences names codeIds _ ih => exact ih.trans Finset.subset_union_right

/-- The relation of a finite map is finite. -/
theorem acyclic_older (hcycle : ∀ id, ¬Relation.TransGen (CodeAgeRelation.Step (older t)) id id) :
    Acyclic (older t) where
  no_cycle := hcycle
  finite := by
    refine Set.Finite.subset (t.codeAgeRelation.toList.map Prod.fst).toFinset.finite_toSet ?_
    intro id hid
    obtain ⟨d, hd⟩ := Option.ne_none_iff_exists'.1 hid
    simp only [List.coe_toFinset, List.mem_map]
    exact ⟨(id, d), Lib.mem_toList.2 hd, rfl⟩

/-- The invariant holds along every run, which ends. -/
theorem Inv.run (hacyclic : Acyclic (older t)) (h : Inv t s) (hrun : ReflTransGen (Step t) s s') :
    Inv t s' := by
  induction hrun with
  | refl => exact h
  | tail _ hstep ih => exact ih.step hacyclic hstep

theorem Inv.acc (hacyclic : Acyclic (older t)) (h : Inv t s) : Acc (fun s' s => Step t s s') s := by
  obtain ⟨names, codeIds, hbounds⟩ := exists_bounds t
  induction hm : measure names codeIds s using Nat.strongRecOn generalizing s with | ind m ih =>
constructor
intro s' hstep
exact ih _ (hm ▸ measure_step hbounds h hstep) (h.step hacyclic hstep) rfl

/-- Without a cycle `required_names` returns. In the top level its names and code ids are the
least closed sets, and its ancestors are theirs. Steps in any order end, with the same sets. -/
theorem requiredNames_exact {codeIdsToNeverDelete : Finset κ}
    (hbuilt : Built codeIdsToNeverDelete t)
    (hcycle : ∀ id, ¬Relation.TransGen (CodeAgeRelation.Step (older t)) id id) :
    (t.isToplevel = false →
      Halts (fun fuel => requiredNames fuel t) fun r => r.reachableCodeIds = none) ∧
    (t.isToplevel = true → ∃ (names : Finset ν) (live ancestors : Finset κ),
      Halts (fun fuel => requiredNames fuel t) (fun r => r = ⟨names, some ⟨live, ancestors⟩⟩) ∧
      codeIdsToNeverDelete ⊆ live ∧ Closed t ↑names ↑live ∧
      (∀ names' live', Closed t names' live' → ↑names ⊆ names' ∧ ↑live ⊆ live') ∧
      (∀ id, id ∈ ancestors ↔ ∃ a ∈ live, IsVersionOf (older t) a id) ∧
      Acc (fun s' s => Step t s s') (start t) ∧
      ∀ s, ReflTransGen (Step t) (start t) s → Final s →
        s.nameEnqueued = names ∧ s.codeIdEnqueued = live ∧ s.olderEnqueued = ancestors) := by
  have hacyclic := acyclic_older hcycle
  refine ⟨fun htop => reachableNames_unknown htop _, fun htop => ?_⟩
  have hstart : Inv t (start t) := inv_start htop
  obtain ⟨fuel, r, ⟨s, hrun, hfinal, rfl⟩, hloop⟩ := (loops_halt hacyclic htop hstart).1 rfl
  have h := hstart.run hacyclic hrun
  have hclosed := h.closed hacyclic hfinal
  refine ⟨s.nameEnqueued, s.codeIdEnqueued, s.olderEnqueued, ⟨fuel, _, rfl, hloop⟩, ?_, hclosed,
    ?_, fun id => h.mem_olderEnqueued hfinal, hstart.acc hacyclic, ?_⟩
  · exact fun id hid => hclosed.code_used id (hbuilt.subset hid)
  · exact fun names' live' hc => ⟨h.name_below names' live' hc, h.code_below names' live' hc⟩
  intro s' hrun' hfinal'
  rw [h.unique hacyclic hfinal (hstart.run hacyclic hrun') hfinal']
  exact ⟨rfl, rfl, rfl⟩

/-- Two live versions of one code id make it live. -/
theorem requiredNames_fork : Halts (fun fuel => requiredNames fuel
      (addNameOccurrences ({5} : Finset ℕ) ({3} : Finset ℕ)
        (empty (((∅ : CodeAgeRelation.T ℕ).insert 2 1).insert 3 1) true {2})))
      fun r => ∃ ids, r.reachableCodeIds = some ids ∧ 1 ∈ ids.liveCodeIds := by
  have holder : ∀ id, older (addNameOccurrences ({5} : Finset ℕ) ({3} : Finset ℕ)
      (empty (((∅ : CodeAgeRelation.T ℕ).insert 2 1).insert 3 1) true {2})) id =
        if 3 = id then some 1 else if 2 = id then some 1 else none := by
    intro id
    simp [older, getOlderVersionOf, addNameOccurrences, empty, Lib.getElem?_insert]
  have hacyclic : Acyclic (older (addNameOccurrences ({5} : Finset ℕ) ({3} : Finset ℕ)
      (empty (((∅ : CodeAgeRelation.T ℕ).insert 2 1).insert 3 1) true {2}))) := by
    refine CodeAgeRelation.acyclic_of_rank id 4 (fun id hid => ?_) fun id older h => ?_
    · rw [holder, if_neg (by omega), if_neg (by omega)]
    · grind
  obtain ⟨names, live, ancestors, hhalts, hkept, hclosed, -⟩ := (requiredNames_exact
    (.addNameOccurrences {5} {3} (.empty _ true)) hacyclic.no_cycle).2 rfl
  refine hhalts.mono fun r hr => ⟨_, congrArg Result.reachableCodeIds hr, ?_⟩
  exact hclosed.nearest 2 (hkept (by simp)) 3 (hclosed.code_used 3 (by decide)) 1
    (isNearest_of_fork hacyclic .refl .refl (holder 2) (holder 3) (by decide))

end Oxcaml.Flambda2.DataFlowGraph
