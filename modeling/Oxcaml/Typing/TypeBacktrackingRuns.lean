/-
Oxcaml.Typing.TypeBacktrackingRuns — programs whose steps meet the condition
may rely on the type log.

The log of a valid snapshot runs from its cell to the open end, is a history
of the present store, and rewinds it to what was saved (`Held.Tracks`). Of two
valid snapshots the older one's log passes the cell of the younger one
(`Held.Above`). Both survive every effect of a call, backtracking and
`undo_compress`, so they hold in all runs (`Config.Inv`), and what the program
expects follows from them (`sound_of_reaches`).

Without the condition `undo_compress` can cut the open end off the log: a run
in which backtracking then restores nothing refutes the promise.
-/
import Oxcaml.Typing.TypeBacktrackingLog

set_option linter.all false

namespace Oxcaml.Typing.Types

open List (append_nil mem_cons mem_map pairwise_cons pairwise_map reverse_reverse)

open Oxcaml.Lib

variable {J P A : Type} {s s' : State J P A} {σ σ' : Store J P A} {saved : State J P A}

/-! ## The invariant -/

/-- The log of a valid snapshot leads to the open end, and back to what
was saved. -/
structure Held.Tracks (h : Held J P A) (s : State J P A) : Prop where
  path : Path s.changes h.snap.changes h.since.reverse s.trail
  history : History h.since s.store
  restored : Restored h.saved (rewind h.since s.store)
  known : ∀ c ∈ h.since, c.Known s.newId
  precedes : Precedes h.saved s
  closed : ∀ z, (h.saved.store.desc z).Known h.saved.newId

structure Held.Inv (h : Held J P A) (s : State J P A) : Prop where
  tracks : h.overtaken = false → h.Tracks s
  lost : h.overtaken = true → s.changes h.snap.changes = .invalid ∧ h.snap.changes < s.fresh

/-- The log of the older snapshot `h` passes the cell of the younger one `k`. -/
def Held.Above (m : Nat → Changes J P A) (k h : Held J P A) : Prop :=
  ∃ es, h.since = k.since ++ es ∧ Path m h.snap.changes es.reverse k.snap.changes

structure Config.Inv (c : Config J P A) : Prop where
  wf : c.state.Wf
  held : ∀ h ∈ c.held, h.Inv c.state
  nested : c.held.Pairwise fun k h =>
    k.overtaken = false → h.overtaken = false → Held.Above c.state.changes k h

variable {V : State J P A → Prop} {cs es : List (Change J P A)} {held : List (Held J P A)}

variable {h : Held J P A}

theorem Held.Tracks.le_trail (ht : h.Tracks s) (hs : s.Wf) :
    h.snap.changes ≤ s.trail := ht.path.le hs.upward

theorem Held.Tracks.lt_fresh (ht : h.Tracks s) (hs : s.Wf) :
    h.snap.changes < s.fresh := (ht.le_trail hs).trans_lt hs.trail_lt

/-! ### Effects -/

variable {r y : Nat}

theorem changes_logChange_of_lt (c : Change J P A) (hr : r < s.fresh)
    (hne : r ≠ s.trail) : (logChange c s).changes r = s.changes r := by
  simp [logChange, hne, hr.ne]

theorem path_logChange (hs : s.Wf) (c : Change J P A) (h : Path s.changes r es y)
    (hy : y ≤ s.trail) : Path (logChange c s).changes r es y := by
  refine h.congr hs.upward fun x _ hx => ?_
  have hlt : x < s.trail := hx.trans_le hy
  exact changes_logChange_of_lt c (hlt.trans hs.trail_lt) hlt.ne

section

variable (he : Effect V s cs s')
include he

theorem Effect.path (hs : s.Wf)
    (h : Path s.changes r es y) (hy : y ≤ s.trail) : Path s'.changes r es y := by
  cases he with
  | log | compress => exact path_logChange hs _ h hy
  | _ => exact h

theorem Effect.path_trail (hs : s.Wf)
    (h : Path s.changes r es s.trail) : Path s'.changes r (es ++ cs.reverse) s'.trail := by
  cases he with
  | log | compress => exact (path_logChange hs _ h le_rfl).snoc (Function.update_self _ _ _)
  | _ => rw [List.reverse_nil, append_nil]; exact h

theorem Effect.lost (hs : s.Wf)
    (h : s.changes r = .invalid ∧ r < s.fresh) : s'.changes r = .invalid ∧ r < s'.fresh := by
  have hne : r ≠ s.trail := by
    intro heq
    rw [heq, hs.trail] at h
    cases h.1
  have hlog : ∀ c, (logChange c s).changes r = .invalid ∧ r < (logChange c s).fresh := fun c =>
    ⟨(changes_logChange_of_lt c h.2 hne).trans h.1, h.2.trans (Nat.lt_succ_self _)⟩
  cases he with
  | log | compress => exact hlog _
  | _ => exact h

theorem Effect.history (h : History es s.store) :
    History (cs ++ es) s'.store := by
  cases he with
  | log hgrows hundo hc hstop => exact h.log hgrows hundo hc hstop
  | compress ht hu hd => exact h.compress ht hu hd
  | overwrite hty hD htn hfree => exact (h.setDesc hty _).1
  | hidden hdesc hkind => exact h.congr hdesc hkind
  | count => exact h

theorem Effect.restored (h : History es s.store)
    (hclosed : ∀ z, (saved.store.desc z).Known saved.newId) (hV : V saved)
    (hr : Restored saved (rewind es s.store)) : Restored saved (rewind (cs ++ es) s'.store) := by
  cases he with
  | log hgrows hundo => rw [List.singleton_append, rewind_cons]; exact hundo.symm ▸ hr
  | compress =>
    rw [List.singleton_append, rewind_cons]
    simp only [Types.compress, Types.setDesc, logChange, Change.undo, Store.setDesc,
      Function.update_idem, Function.update_eq_self]
    exact hr
  | @overwrite ty D hty hD htn hfree =>
    show Restored saved (rewind es (s.store.setDesc ty D))
    rcases (h.setDesc hty D).2 with heq | ⟨hstop, heq⟩
    · rw [heq]; exact hr
    · rw [heq]; exact hr.setDesc hclosed (hfree saved hV) hstop D
  | hidden hdesc hkind hagree => exact hr.agree ((hagree saved hV).rewind es)
  | count => exact hr

theorem Effect.known (hs : s.Wf) : ∀ c ∈ cs, c.Known s'.newId := by
  cases he with
  | log hgrows hundo hc hstop hknown =>
    intro c hc
    rw [List.mem_singleton.1 hc]
    exact hknown
  | @compress t u z ht hu hd htn =>
    intro c hc
    rw [List.mem_singleton.1 hc]
    exact ⟨htn, hs.known t⟩
  | _ => simp

theorem Effect.precedes (h : Precedes saved s) : Precedes saved s' := by
  cases he with
  | count hn hnames hunivars =>
    exact ⟨h.newId.trans hn, h.names.trans hnames, h.univars.trans hunivars⟩
  | _ => exact ⟨h.newId, h.names, h.univars⟩

theorem Effect.tracks (hs : s.Wf) (hV : V h.saved)
    (ht : h.Tracks s) : Held.Tracks { h with since := cs ++ h.since } s' where
  path := by
    rw [List.reverse_append]
    exact he.path_trail hs ht.path
  history := he.history ht.history
  restored := he.restored ht.history ht.closed hV ht.restored
  known := by
    intro c hc
    rcases List.mem_append.1 hc with hc | hc
    · exact he.known hs c hc
    · exact (ht.known c hc).mono he.newId_le
  precedes := he.precedes ht.precedes
  closed := ht.closed

end

theorem see_of_valid (hv : h.overtaken = false) : h.see cs = { h with since := cs ++ h.since } := by
  simp [Held.see, hv]

theorem see_of_overtaken (hv : h.overtaken = true) : h.see cs = h := by
  simp [Held.see, hv]

@[simp] theorem overtaken_see (h : Held J P A) : (h.see cs).overtaken = h.overtaken := by
  cases hv : h.overtaken <;> simp [Held.see, hv]

@[simp] theorem saved_see (h : Held J P A) : (h.see cs).saved = h.saved := by
  cases hv : h.overtaken <;> simp [Held.see, hv]

theorem see_see {ds : List (Change J P A)} (h : Held J P A) :
    (h.see cs).see ds = h.see (ds ++ cs) := by
  cases hv : h.overtaken <;> simp [Held.see, hv]

theorem Effect.inv (he : Effect V s cs s') (hi : Config.Inv ⟨s, held⟩)
    (hV : ∀ h ∈ held, h.overtaken = false → V h.saved) :
    Config.Inv ⟨s', held.map (·.see cs)⟩ where
  wf := he.wf hi.wf
  held := by
    intro h hh
    obtain ⟨h, hmem, rfl⟩ := mem_map.1 hh
    constructor
    · intro hv
      rw [overtaken_see] at hv
      rw [see_of_valid hv]
      exact he.tracks hi.wf (hV h hmem hv) ((hi.held h hmem).tracks hv)
    intro hv
    rw [overtaken_see] at hv
    rw [see_of_overtaken hv]
    exact he.lost hi.wf ((hi.held h hmem).lost hv)
  nested := by
    rw [pairwise_map]
    refine hi.nested.imp_of_mem ?_
    intro k h hk hh hnested hvk hvh
    rw [overtaken_see] at hvk hvh
    obtain ⟨es, hsince, hpath⟩ := hnested hvk hvh
    rw [see_of_valid hvk, see_of_valid hvh]
    refine ⟨es, by simp [hsince], he.path hi.wf hpath ?_⟩
    exact ((hi.held k hk).tracks hvk).le_trail hi.wf

theorem Effects.inv (he : Effects V s cs s') (hi : Config.Inv ⟨s, held⟩)
    (hV : ∀ h ∈ held, h.overtaken = false → V h.saved) :
    Config.Inv ⟨s', held.map (·.see cs)⟩ := by
  induction he with
  | refl =>
    have hsee : held.map (·.see ([] : List (Change J P A))) = held := by
      refine (List.map_congr_left fun h _ => ?_).trans (List.map_id held)
      unfold Held.see
      split <;> rfl
    rw [hsee]
    exact hi
  | @tail s₂ s₃ cs ds h he ih =>
    have hV' : ∀ h ∈ held.map (·.see cs), h.overtaken = false → V h.saved := by
      intro h hh hv
      obtain ⟨h, hmem, rfl⟩ := mem_map.1 hh
      rw [overtaken_see] at hv
      rw [saved_see]
      exact hV h hmem hv
    have hinv := he.inv ih hV'
    simpa [Function.comp_def, see_see] using hinv

/-! ### Backtracking -/

variable {es : List (Change J P A)} {n : ℤ}

theorem known_rewind (hes : ∀ c ∈ es, c.Known n)
    (hσ : ∀ z, (σ.desc z).Known n) (z : TypeExpr) : ((rewind es σ).desc z).Known n := by
  induction es generalizing σ with
  | nil => exact hσ z
  | cons c es ih =>
    refine ih (fun c' hc' => hes c' (by simp [hc'])) ?_
    have hc := hes c (by simp)
    cases c with
    | cType ty desc | cCompress ty desc d => exact known_setDesc hσ hc.2
    | _ => exact hσ

variable {z : TypeExpr}

theorem desc_rewind_of_lt (hes : ∀ c ∈ es, c.Known n) (hz : n < z) : (rewind es σ).desc z =
    σ.desc z := by
  induction es generalizing σ with
  | nil => rfl
  | cons c es ih =>
    rw [rewind_cons, ih fun c' hc' => hes c' (by simp [hc'])]
    have hc := hes c (by simp)
    cases c with
    | cType ty desc | cCompress ty desc d => exact desc_setDesc_of_lt hc.1 desc hz
    | _ => rfl

variable {k h : Held J P A}

theorem Held.Above.le {m : Nat → Changes J P A} (ha : Held.Above m k h)
    (hm : Upward m) : h.snap.changes ≤ k.snap.changes := by
  obtain ⟨es, -, hpath⟩ := ha
  exact hpath.le hm

theorem Precedes.of_eq (h : Precedes saved s) (hn : s'.newId = s.newId)
    (hnames : s'.names = s.names) (hunivars : s'.univars = s.univars) : Precedes saved s' :=
  ⟨hn ▸ h.newId, hnames ▸ h.names, hunivars ▸ h.univars⟩

section

variable (hr : Rewound h.snap h.since.reverse s s')
include hr

theorem Rewound.wf (hs : s.Wf)
    (ht : h.Tracks s) : s'.Wf where
  upward := hr.upward
  trail := by
    rw [hr.trail]
    exact hr.opened
  trail_lt := by
    rw [hr.trail, hr.fresh]
    exact ht.lt_fresh hs
  known := by
    rw [hr.store, hr.newId, reverse_reverse]
    exact known_rewind ht.known hs.known
  plain := by
    rw [hr.store, hr.newId, reverse_reverse]
    intro z hz
    rw [desc_rewind_of_lt ht.known hz]
    exact hs.plain z hz

theorem Rewound.lost
    (hk : s.changes k.snap.changes = .invalid ∧ k.snap.changes < s.fresh) :
    s'.changes k.snap.changes = .invalid ∧ k.snap.changes < s'.fresh :=
  ⟨hr.invalid _ hk.1, hr.fresh ▸ hk.2⟩

/-- The older snapshots stay. -/
theorem Rewound.tracks (hs : s.Wf) (hk : k.Tracks s)
    (hsince : k.since = h.since ++ es)
    (hpath : Path s.changes k.snap.changes es.reverse h.snap.changes) :
    Held.Tracks { k with since := es } s' where
  path := by
    rw [hr.trail]
    exact hpath.congr hs.upward fun x _ hx => hr.below x hx
  history := by
    have hh := hk.history
    rw [hsince] at hh
    rw [hr.store, reverse_reverse]
    exact hh.rewind
  restored := by
    have hres := hk.restored
    rw [hsince, rewind_append] at hres
    rw [hr.store, reverse_reverse]
    exact hres
  known := by
    intro c hc
    rw [hr.newId]
    exact hk.known c (by simp [hsince, hc])
  precedes := hk.precedes.of_eq hr.newId hr.names hr.univars
  closed := hk.closed

end

@[simp] theorem overtaken_rewound (h : Held J P A) : (h.rewound cs).overtaken = h.overtaken := by
  cases hv : h.overtaken <;> simp [Held.rewound, hv]

theorem rewound_of_overtaken (hv : h.overtaken = true) : h.rewound cs = h := by
  simp [Held.rewound, hv]

theorem rewound_of_since (hv : h.overtaken = false)
    (hsince : h.since = cs ++ es) : h.rewound cs = { h with since := es } := by
  simp [Held.rewound, hv, hsince]

variable {younger older : List (Held J P A)}

theorem Rewound.inv (hr : Rewound h.snap h.since.reverse s s')
    (hi : Config.Inv ⟨s, younger ++ h :: older⟩) (hv : h.overtaken = false)
    (hpin : ∀ k ∈ younger, k.overtaken = false → k.snap.changes ≠ h.snap.changes) :
    Config.Inv ⟨s', younger.map Held.overtake ++ { h with since := [] } ::
      older.map (·.rewound h.since)⟩ := by
  have hs : s.Wf := hi.wf
  have ht : h.Tracks s := (hi.held h (by simp)).tracks hv
  obtain ⟨-, hbelow, hyounger⟩ := List.pairwise_append.1 hi.nested
  obtain ⟨hfar, holder⟩ := pairwise_cons.1 hbelow
  refine ⟨hr.wf hs ht, ?_, ?_⟩
  · intro k hk
    simp only [List.mem_append, mem_cons, mem_map] at hk
    rcases hk with ⟨k, hk, rfl⟩ | rfl | ⟨k, hk, rfl⟩
    · -- younger
      refine ⟨fun hk' => by simp [Held.overtake] at hk', fun _ => ?_⟩
      have hinv : k.Inv s := hi.held k (by simp [hk])
      cases hvk : k.overtaken with
      | true => exact hr.lost (hinv.lost hvk)
      | false =>
        obtain ⟨es, -, hpath⟩ := hyounger k hk h (by simp) hvk hv
        refine ⟨hr.above _ _ ?_ hpath, hr.fresh ▸ (hinv.tracks hvk).lt_fresh hs⟩
        intro hnil
        rw [hnil] at hpath
        refine hpin k hk hvk ?_
        generalize hr' : k.snap.changes = r at hpath
        cases hpath
        rfl
    · -- the snapshot itself
      refine ⟨fun _ => hr.tracks hs ht (by simp) .nil, fun hk' => ?_⟩
      exact absurd (hv.symm.trans hk') (by simp)
    -- older
    have hinv : k.Inv s := hi.held k (by simp [hk])
    cases hvk : k.overtaken with
    | true =>
      rw [rewound_of_overtaken hvk]
      exact ⟨fun hk' => absurd (hvk.symm.trans hk') (by simp), fun _ => hr.lost (hinv.lost hvk)⟩
    | false =>
      obtain ⟨es, hsince, hpath⟩ := hfar k hk hv hvk
      rw [rewound_of_since hvk hsince]
      exact ⟨fun _ => hr.tracks hs (hinv.tracks hvk) hsince hpath,
        fun hk' => absurd (hvk.symm.trans hk') (by simp)⟩
  have hframe : ∀ {r es y}, Path s.changes r es y → y ≤ h.snap.changes →
      Path s'.changes r es y := by
    intro r es y hpath hy
    exact hpath.congr hs.upward fun x _ hx => hr.below x (hx.trans_le hy)
  rw [List.pairwise_append, pairwise_cons, pairwise_map, pairwise_map]
  refine ⟨?_, ⟨?_, ?_⟩, ?_⟩
  · exact List.pairwise_of_forall fun k g hk => by simp [Held.overtake] at hk
  · intro g hg _ hvg
    obtain ⟨g, hmem, rfl⟩ := mem_map.1 hg
    rw [overtaken_rewound] at hvg
    obtain ⟨es, hsince, hpath⟩ := hfar g hmem hv hvg
    rw [rewound_of_since hvg hsince]
    exact ⟨es, rfl, hframe hpath le_rfl⟩
  · refine holder.imp_of_mem ?_
    intro k g hk hg hnested hvk hvg
    rw [overtaken_rewound] at hvk hvg
    obtain ⟨es, hsince, hpath⟩ := hnested hvk hvg
    have hkh : Held.Above s.changes h k := hfar k hk hv hvk
    have hle := hkh.le hs.upward
    obtain ⟨fs, hsince', -⟩ := hkh
    have hg' : g.since = h.since ++ (fs ++ es) := by
      rw [hsince, hsince', List.append_assoc]
    rw [rewound_of_since hvk hsince', rewound_of_since hvg hg']
    exact ⟨es, rfl, hframe hpath hle⟩
  intro k hk g _ hvk
  obtain ⟨k, -, rfl⟩ := mem_map.1 hk
  simp [Held.overtake] at hvk

/-! ### Undoing compressions -/

theorem known_expandAll (hes : ∀ c ∈ es, c.Known n)
    (hσ : ∀ z, (σ.desc z).Known n) (z : TypeExpr) : ((expandAll es σ).desc z).Known n := by
  induction es generalizing σ with
  | nil => exact hσ z
  | cons c es ih =>
    refine ih (fun c' hc' => hes c' (by simp [hc'])) ?_
    have hc := hes c (by simp)
    cases c with
    | cCompress ty desc d => exact known_setDesc hσ hc.2
    | _ => exact hσ

theorem desc_expandAll_of_lt (hes : ∀ c ∈ es, c.Known n) (hz : n < z) : (expandAll es σ).desc z =
    σ.desc z := by
  induction es generalizing σ with
  | nil => rfl
  | cons c es ih =>
    rw [expandAll_cons, ih fun c' hc' => hes c' (by simp [hc'])]
    have hc := hes c (by simp)
    cases c with
    | cCompress ty desc d => exact desc_setDesc_of_lt hc.1 desc hz
    | _ => rfl

theorem mem_of_mem_kept {c : Change J P A} (h : c ∈ kept es) : c ∈ es := List.mem_of_mem_filter h

theorem kept_reverse (es : List (Change J P A)) : (kept es).reverse = kept es.reverse :=
  List.filter_reverse.symm

section Struck

variable {X : Nat → Prop} {h k : Held J P A}
  (hr : Struck X h.snap.changes h.since.reverse s s') (hs : s.Wf) (ht : h.Tracks s)
include hr

theorem Struck.lost (hk : s.changes k.snap.changes = .invalid ∧ k.snap.changes < s.fresh) :
    s'.changes k.snap.changes = .invalid ∧ k.snap.changes < s'.fresh := by
  refine ⟨(hr.ends _ fun c n hc => ?_).trans hk.1, hr.fresh ▸ hk.2⟩
  rw [hk.1] at hc
  cases hc

include hs in
/-- What lies below the snapshot is not touched. -/
theorem Struck.frame (hpath : Path s.changes r es y) (hy : y ≤ h.snap.changes) :
    Path s'.changes r es y :=
  hpath.congr hs.upward fun x _ hx => hr.below x (hx.trans_le hy)

include ht

include hs in
theorem Struck.wf : s'.Wf where
  upward := hr.upward
  trail := by
    rw [hr.trail, hr.ends _ fun c n hc => ?_]
    · exact hs.trail
    · rw [hs.trail] at hc; cases hc
  trail_lt := by
    rw [hr.trail, hr.fresh]
    exact hs.trail_lt
  known := by
    rw [hr.store, hr.newId, reverse_reverse]
    exact known_expandAll ht.known hs.known
  plain := by
    rw [hr.store, hr.newId, reverse_reverse]
    intro z hz
    rw [desc_expandAll_of_lt ht.known hz]
    exact hs.plain z hz

include hs in
/-- An older snapshot keeps what it knew before the compressions. -/
theorem Struck.tracks_older (hk : k.Tracks s) (hsince : k.since = h.since ++ es)
    (hpath : Path s.changes k.snap.changes es.reverse h.snap.changes) (hX : X s.trail) :
    Held.Tracks { k with since := kept h.since ++ es } s' where
  path := by
    have htail : Path s'.changes h.snap.changes (kept h.since.reverse) s.trail :=
      hr.path _ [] _ _ .nil ht.path hX
    rw [List.reverse_append, kept_reverse, hr.trail]
    exact (hr.frame hs hpath le_rfl).append htail
  history := by
    have hh := hk.history
    rw [hsince] at hh
    rw [hr.store, reverse_reverse]
    exact hh.kept_append
  restored := by
    have hres := hk.restored
    have hrew := ht.history
    rw [← append_nil h.since] at hrew
    have heq := hrew.rewind_kept
    rw [append_nil, expandAll_nil] at heq
    rw [hsince, rewind_append] at hres
    rw [hr.store, reverse_reverse, rewind_append, heq]
    exact hres
  known := by
    intro c hc
    rw [hr.newId]
    rcases List.mem_append.1 hc with hc | hc
    · exact ht.known c (mem_of_mem_kept hc)
    · exact hk.known c (by simp [hsince, hc])
  precedes := hk.precedes.of_eq hr.newId hr.names hr.univars
  closed := hk.closed

/-- A younger snapshot sees older compressions undone. -/
theorem Struck.tracks_younger (hk : k.Tracks s) (hsince : h.since = k.since ++ es)
    (hpath : Path s.changes h.snap.changes es.reverse k.snap.changes) (hX : X s.trail) :
    Held.Tracks { k with since := kept k.since } s' where
  path := by
    rw [kept_reverse, hr.trail]
    exact hr.path _ _ _ _ hpath hk.path hX
  history := by
    have hh := ht.history
    rw [← append_nil h.since] at hh
    have hkept := hh.kept_append
    rw [append_nil, hsince, Types.kept_append] at hkept
    rw [hr.store, reverse_reverse, hsince]
    exact hkept.of_append
  restored := by
    have hh := ht.history
    rw [hsince] at hh
    rw [hr.store, reverse_reverse, hsince, hh.rewind_kept]
    exact hk.restored.expandAll hh.rewind.compressed
  known := by
    intro c hc
    rw [hr.newId]
    exact hk.known c (mem_of_mem_kept hc)
  precedes := hk.precedes.of_eq hr.newId hr.names hr.univars
  closed := hk.closed

end Struck

@[simp] theorem overtaken_struck (h : Held J P A) : (h.struck cs).overtaken = h.overtaken := by
  cases hv : h.overtaken <;> simp [Held.struck, hv]

theorem struck_of_overtaken (hv : h.overtaken = true) : h.struck cs = h := by
  simp [Held.struck, hv]

theorem struck_older (hv : h.overtaken = false) (hsince : h.since = cs ++ es) :
    h.struck cs = { h with since := kept cs ++ es } := by
  simp [Held.struck, hv, hsince]

theorem struck_younger (hv : h.overtaken = false) (hsince : cs = h.since ++ es) :
    h.struck cs = { h with since := kept h.since } := by
  have hle : h.since.length ≤ cs.length := by simp [hsince]
  simp [Held.struck, hv, List.take_of_length_le hle, List.drop_of_length_le hle]

theorem Struck.inv {X : Nat → Prop} (hr : Struck X h.snap.changes h.since.reverse s s')
    (hi : Config.Inv ⟨s, younger ++ h :: older⟩) (hv : h.overtaken = false)
    (hX : X s.trail)
    (hpin : ∀ k ∈ younger ++ h :: older, k.overtaken = false → X k.snap.changes) :
    Config.Inv ⟨s', (younger ++ h :: older).map (·.struck h.since)⟩ := by
  have hs : s.Wf := hi.wf
  have ht : h.Tracks s := (hi.held h (by simp)).tracks hv
  obtain ⟨hyoung, hbelow, hyounger⟩ := List.pairwise_append.1 hi.nested
  obtain ⟨hfar, holder⟩ := pairwise_cons.1 hbelow
  have hself : h.struck h.since = { h with since := kept h.since } :=
    struck_younger hv (append_nil _).symm
  refine ⟨hr.wf hs ht, ?_, ?_⟩
  · intro k hk
    obtain ⟨k, hmem, rfl⟩ := mem_map.1 hk
    have hinv : k.Inv s := hi.held k hmem
    cases hvk : k.overtaken with
    | true =>
      rw [struck_of_overtaken hvk]
      exact ⟨fun hk' => absurd (hvk.symm.trans hk') (by simp), fun _ => hr.lost (hinv.lost hvk)⟩
    | false =>
      refine ⟨fun _ => ?_, fun hk' => absurd (hvk.symm.trans (by simpa using hk')) (by simp)⟩
      rcases List.mem_append.1 hmem with hky | hmem
      · obtain ⟨es, hsince, hpath⟩ := hyounger k hky h (by simp) hvk hv
        rw [struck_younger hvk hsince]
        exact hr.tracks_younger ht (hinv.tracks hvk) hsince hpath hX
      rcases mem_cons.1 hmem with rfl | hko
      · rw [hself]; exact hr.tracks_younger ht ht (append_nil _).symm .nil hX
      obtain ⟨es, hsince, hpath⟩ := hfar k hko hv hvk
      rw [struck_older hvk hsince]
      exact hr.tracks_older hs ht (hinv.tracks hvk) hsince hpath hX
  -- the cell of a snapshot that is not older than `h` stays on the log of `h`
  have hnear : ∀ {k es}, k ∈ younger ++ h :: older → k.overtaken = false →
      Path s.changes h.snap.changes es k.snap.changes →
      Path s'.changes h.snap.changes (kept es) k.snap.changes := by
    intro k es hk hvk hpath
    exact hr.path _ [] _ _ .nil hpath (hpin k hk hvk)
  rw [List.map_append, List.map_cons, List.pairwise_append, pairwise_cons,
    pairwise_map, pairwise_map]
  refine ⟨?_, ⟨?_, ?_⟩, ?_⟩
  · -- two younger ones
    refine hyoung.imp_of_mem ?_
    intro k g hk hg hnested hvk hvg
    rw [overtaken_struck] at hvk hvg
    obtain ⟨es, hsince, hpath⟩ := hnested hvk hvg
    obtain ⟨fs, hgh, hpathg⟩ := hyounger g hg h (by simp) hvg hv
    obtain ⟨gs, hkh, -⟩ := hyounger k hk h (by simp) hvk hv
    rw [struck_younger hvk hkh, struck_younger hvg hgh]
    refine ⟨kept es, by simp [hsince, kept_append], ?_⟩
    rw [kept_reverse]
    exact hr.path _ _ _ _ hpathg hpath (hpin k (by simp [hk]) hvk)
  · -- `h` and an older one
    intro g hg _ hvg
    obtain ⟨g, hmem, rfl⟩ := mem_map.1 hg
    rw [overtaken_struck] at hvg
    obtain ⟨es, hsince, hpath⟩ := hfar g hmem hv hvg
    rw [hself, struck_older hvg hsince]
    exact ⟨es, rfl, hr.frame hs hpath le_rfl⟩
  · -- two older ones
    refine holder.imp_of_mem ?_
    intro k g hk hg hnested hvk hvg
    rw [overtaken_struck] at hvk hvg
    obtain ⟨es, hsince, hpath⟩ := hnested hvk hvg
    have hkh : Held.Above s.changes h k := hfar k hk hv hvk
    have hle := hkh.le hs.upward
    obtain ⟨fs, hsince', -⟩ := hkh
    have hg' : g.since = h.since ++ (fs ++ es) := by
      rw [hsince, hsince', List.append_assoc]
    rw [struck_older hvk hsince', struck_older hvg hg']
    exact ⟨es, by simp, hr.frame hs hpath hle⟩
  -- a younger one, and `h` or an older one
  intro k hk g hg hvk hvg
  obtain ⟨k, hmem, rfl⟩ := mem_map.1 hk
  rw [overtaken_struck] at hvk
  obtain ⟨es, hkh, hpath⟩ := hyounger k hmem h (by simp) hvk hv
  have hpath' := hnear (by simp [hmem]) hvk hpath
  rw [← kept_reverse] at hpath'
  rcases mem_cons.1 hg with rfl | hg
  · rw [struck_younger hvk hkh, hself]; exact ⟨kept es, by simp [hkh, kept_append], hpath'⟩
  obtain ⟨g, hmemg, rfl⟩ := mem_map.1 hg
  rw [overtaken_struck] at hvg
  obtain ⟨fs, hsince, hpathg⟩ := hfar g hmemg hv hvg
  rw [struck_younger hvk hkh, struck_older hvg hsince]
  refine ⟨kept es ++ fs, by simp [hkh, kept_append], ?_⟩
  rw [List.reverse_append]
  exact (hr.frame hs hpathg le_rfl).append hpath'

/-! ## Runs -/

theorem initial_inv (p : P) : (Config.initial p : Config J P A).Inv where
  wf :=
    { upward := fun r c n hr => by cases hr
      trail := rfl
      trail_lt := Nat.zero_lt_one
      known := fun _ => trivial
      plain := fun _ _ _ => rfl }
  held := fun h hh => by cases hh
  nested := .nil

theorem getElem?_split {α : Type} (l r : List α) (a : α) : (l ++ a :: r)[l.length]? = some a := by
  simp

variable [DecidableEq J] [DecidableEq P]

/-- A step that meets the condition keeps the invariant. -/
theorem inv_step {c c' : Config J P A} {op : Op J P A} (hi : c.Inv) (hmeets : c.Meets op)
    (hstep : Step c op c') : c'.Inv := by
  cases hstep with
  | @mutate m fuel s' hexists hrun =>
    let V : State J P A → Prop := fun saved => ∃ h ∈ c.held, h.overtaken = false ∧ h.saved = saved
    have hcov : ∀ z, m.Overwrites c.state.store z → Covered V c.state z := by
      intro z hz
      refine (hmeets z hz).imp_right fun hfree saved hsaved => ?_
      obtain ⟨h, hh, hv, rfl⟩ := hsaved
      exact hfree h hh hv
    have hprecedes : ∀ saved, V saved → Precedes saved c.state := by
      intro saved hsaved
      obtain ⟨h, hh, hv, rfl⟩ := hsaved
      exact ((hi.held h hh).tracks hv).precedes
    obtain ⟨cs, heff⟩ := mutation_effects hrun hi.wf hexists hcov hprecedes
    rw [heff.logged]
    exact heff.inv hi fun h hh hv => ⟨h, hh, hv, rfl⟩
  | @snapshot snap s' hsnap =>
    cases hsnap
    refine ⟨⟨hi.wf.upward, hi.wf.trail, hi.wf.trail_lt, hi.wf.known, hi.wf.plain⟩, ?_, ?_⟩
    · intro h hh
      rcases mem_cons.1 hh with rfl | hh
      · refine ⟨fun _ => ⟨.nil, trivial, ?_, fun _ hc => (nomatch hc), ⟨le_rfl, le_rfl, le_rfl⟩,
          hi.wf.known⟩, fun hv => (nomatch hv)⟩
        exact ⟨fun _ _ => rfl, fun _ _ => rfl, fun _ _ _ => Iff.rfl, fun _ _ _ => rfl, rfl, rfl,
          rfl, fun _ _ => rfl, fun _ _ => rfl⟩
      obtain ⟨htracks, hlost⟩ := hi.held h hh
      refine ⟨fun hv => ?_, hlost⟩
      obtain ⟨hpath, hhist, hres, hknown, hprec, hclosed⟩ := htracks hv
      exact ⟨hpath, hhist, hres, hknown, ⟨hprec.newId, hprec.names, hprec.univars⟩, hclosed⟩
    refine pairwise_cons.2 ⟨?_, hi.nested⟩
    intro h hh _ hv
    exact ⟨h.since, rfl, ((hi.held h hh).tracks hv).path⟩
  | @backtrack younger older h fuel s' hheld hv hrun =>
    rw [show c = ⟨c.state, younger ++ h :: older⟩ by rw [← hheld]] at hi
    have ht : h.Tracks c.state := (hi.held h (by simp)).tracks hv
    obtain ⟨s'', hback, hr⟩ :=
      backtrack_spec hi.wf ht.path fun ch hch => ht.known ch (by simpa using hch)
    have heq := (backtrack_fuel hrun (h.since.reverse.length + 1)).symm.trans (hback _ (by omega))
    cases heq
    have hget : c.held[younger.length]? = some h := by rw [hheld, getElem?_split]
    refine hr.inv hi hv fun k hk hvk => hmeets h hget k ?_ hvk
    rw [hheld, List.take_left]
    exact hk
  | @undoCompress younger older h fuel s' hheld hv hrun =>
    have hget : c.held[younger.length]? = some h := by rw [hheld, getElem?_split]
    have hX := hmeets h hget
    have hpins : ∀ k ∈ younger ++ h :: older, k.overtaken = false → c.Pins k.snap.changes := by
      intro k hk hvk
      exact .inr ⟨k, hheld ▸ hk, hvk, rfl⟩
    have htrail : c.Pins c.state.trail := .inl rfl
    rw [show c = ⟨c.state, younger ++ h :: older⟩ by rw [← hheld]] at hi
    have ht : h.Tracks c.state := (hi.held h (by simp)).tracks hv
    have hcomp : Compressed h.since.reverse.reverse c.state.store := by
      rw [reverse_reverse]
      exact ht.history.compressed
    obtain ⟨s'', hundo, hr⟩ := undoCompress_spec hi.wf ht.path hcomp
      fun r' fs ch n hpath hr' hch => hX fs r' ch n hpath hr' hch
    have heq := (undoCompress_fuel hrun (h.since.reverse.length + 1)).symm.trans
      (hundo _ (by omega))
    cases heq
    rw [hheld]
    exact hr.inv hi hv htrail hpins
  | @undoCompressOvertaken younger older h fuel s' hheld hv hrun =>
    have hinvalid := ((hi.held h (by simp [hheld])).lost hv).1
    simp only [undoCompress, hinvalid] at hrun
    cases hrun
    exact hi
  | @forget younger older h hheld =>
    have hsub : (younger ++ older).Sublist c.held := by
      rw [hheld]
      exact List.Sublist.append_left (List.sublist_cons_self h older) younger
    exact ⟨hi.wf, fun k hk => hi.held k (hsub.subset hk), hi.nested.sublist hsub⟩

/-- The invariant gives what the program expects. -/
theorem Config.Inv.sound {c : Config J P A} (hi : c.Inv) : c.Sound := by
  have hback : ∀ h ∈ c.held, h.overtaken = false → ∃ N s',
      (∀ fuel, N ≤ fuel → backtrack fuel h.snap c.state = .ok s') ∧ Restored h.saved s'.store := by
    intro h hh hv
    have ht := (hi.held h hh).tracks hv
    obtain ⟨s', hok, hr⟩ :=
      backtrack_spec hi.wf ht.path fun ch hch => ht.known ch (by simpa using hch)
    refine ⟨h.since.reverse.length + 1, s', fun fuel hfuel => hok fuel hfuel, ?_⟩
    rw [hr.store, reverse_reverse]
    exact ht.restored
  refine ⟨?_, hback, fun h hh hv => ((hi.held h hh).tracks hv).path, ?_⟩
  · intro h hh
    constructor
    · rintro ⟨N, hN⟩
      cases hv : h.overtaken with
      | true => rfl
      | false =>
        obtain ⟨M, s', hM, -⟩ := hback h hh hv
        have hne := (hN (max N M) (le_max_left N M)).symm.trans (hM _ (le_max_right N M))
        cases hne
    intro hv
    have hinvalid := ((hi.held h hh).lost hv).1
    exact ⟨0, fun fuel _ => by simp [backtrack, hinvalid]⟩
  intro h hh
  cases hv : h.overtaken with
  | true =>
    have hinvalid := ((hi.held h hh).lost hv).1
    exact ⟨0, c.state, fun fuel _ => by simp [undoCompress, hinvalid], SameEnds.rfl⟩
  | false =>
    have ht := (hi.held h hh).tracks hv
    have hcomp : Compressed h.since.reverse.reverse c.state.store := by
      rw [reverse_reverse]
      exact ht.history.compressed
    obtain ⟨s', hok, hr⟩ := undoCompress_spec (X := fun _ => False) hi.wf ht.path hcomp
      fun _ _ _ _ _ _ _ hfalse => hfalse
    refine ⟨h.since.reverse.length + 1, s', fun fuel hfuel => hok fuel hfuel, ?_⟩
    rw [hr.store]
    exact hcomp.sameEnds

/-- In every run whose steps meet the condition the program gets what it
expects of the log. -/
theorem sound_of_reaches {p : P} {c : Config J P A}
    (h : Reaches Config.Meets (Config.initial p) c) : c.Sound := by
  have hinv : c.Inv := by
    induction h with
    | refl => exact initial_inv p
    | tail _ hstep ih => obtain ⟨op, hmeets, hstep⟩ := hstep; exact inv_step ih hmeets hstep
  exact hinv.sound

/-! ### Small runs -/

namespace SmallRun

/-- A call, when it returns. -/
def call (c : Config Unit Unit Unit) (m : Mutation Unit Unit Unit) : Config Unit Unit Unit :=
  match m.run 4 c.state with
  | .ok s => ⟨s, c.held.map (·.see (logged c.state s))⟩
  | .error _ => c

theorem step_call {c : Config Unit Unit Unit} {m : Mutation Unit Unit Unit}
    (hm : m.Exists c.state) (hok : (m.run 4 c.state).isOk = true) :
    Step c (.mutate m) (call c m) := by
  unfold call
  cases h : m.run 4 c.state with
  | ok s => exact .mutate hm h
  | error e => simp [h, Except.toBool] at hok

/-- `undo_compress` of the last snapshot, when it returns. -/
def undoLast (c : Config Unit Unit Unit) : Config Unit Unit Unit :=
  match c.held with
  | [] => c
  | h :: older =>
    match undoCompress 4 h.snap c.state with
    | .ok s => ⟨s, (h :: older).map (·.struck h.since)⟩
    | .error _ => c

theorem step_undoLast {c : Config Unit Unit Unit} {h : Held Unit Unit Unit}
    {older : List (Held Unit Unit Unit)} (hheld : c.held = h :: older) (hv : h.overtaken = false)
    (hok : (undoCompress 4 h.snap c.state).isOk = true) :
    Step c (.undoCompress 0) (undoLast c) := by
  unfold undoLast
  simp only [hheld]
  cases hrun : undoCompress 4 h.snap c.state with
  | ok s =>
    have hstep := Step.undoCompress (show c.held = [] ++ h :: older from hheld) hv hrun
    rwa [hheld] at hstep
  | error e => simp [hrun, Except.toBool] at hok

def node (addr : Nat) : Mutation Unit Unit Unit := .newty3 0 0 ⟨addr, .tVar none ()⟩

def nodes : Config Unit Unit Unit :=
  call (call (call (call (Config.initial ()) (node 0)) (node 1)) (node 2)) (node 3)

/-- Variable 0 is linked to 1, and 1 to 2. -/
def linked : Config Unit Unit Unit := call (call nodes (.linkType 4 4 0 1)) (.linkType 5 5 1 2)

def taken : Config Unit Unit Unit :=
  ⟨(snapshot linked.state).2, [⟨(snapshot linked.state).1, linked.state, [], false⟩]⟩

/-- Nothing has to be logged before the first snapshot. -/
theorem reaches_taken : Reaches Config.Meets (Config.initial ()) taken := by
  have hcall : ∀ {c : Config Unit Unit Unit} (m : Mutation Unit Unit Unit),
      Reaches Config.Meets (Config.initial ()) c → c.held = [] → m.Exists c.state →
        (m.run 4 c.state).isOk = true → Reaches Config.Meets (Config.initial ()) (call c m) := by
    intro c m h hheld hm hok
    refine h.tail ⟨.mutate m, fun z _ => .inr ?_, step_call hm hok⟩
    intro k hk
    rw [hheld] at hk
    cases hk
  have hnodes : Reaches Config.Meets (Config.initial ()) nodes :=
    hcall (node 3) (hcall (node 2) (hcall (node 1) (hcall (node 0) .refl rfl trivial rfl)
      rfl trivial rfl) rfl trivial rfl) rfl trivial rfl
  have h01 : (0 : ℤ) ≤ nodes.state.newId ∧ (1 : ℤ) ≤ nodes.state.newId := by decide
  have h12 : (1 : ℤ) ≤ (call nodes (.linkType 4 4 0 1)).state.newId ∧
      (2 : ℤ) ≤ (call nodes (.linkType 4 4 0 1)).state.newId := by decide
  exact (hcall (.linkType 5 5 1 2) (hcall (.linkType 4 4 0 1) hnodes rfl h01 rfl)
    rfl h12 rfl).tail ⟨.snapshot, trivial, .snapshot rfl⟩

/-- A change that is logged. -/
def relevelled : Config Unit Unit Unit := call taken (.setLevel 3 5)

end SmallRun

open SmallRun in
theorem sound_of_reaches_relevelled : relevelled.Sound := by
  refine sound_of_reaches (p := ()) ((reaches_taken).tail ⟨.mutate (.setLevel 3 5), ?_, ?_⟩)
  · intro z hz
    have hdesc : taken.state.store.desc 3 = ⟨3, .tVar none ()⟩ := by rfl
    have hstop : taken.state.store.next 3 = none := by
      simp [Store.next, hdesc, Desc.leads]
    obtain rfl : z = 3 := (Ends.iff_eq hstop).1 hz.1
    exact .inl (show (3 : ℤ) ≤ taken.state.lastSnapshot by decide)
  · exact step_call (show (3 : ℤ) ≤ taken.state.newId by decide) rfl

namespace SmallRun

/-- The path from 0 is compressed, which is the last entry of the log. -/
def compressed : Config Unit Unit Unit := call taken (.repr 0)

def struck : Config Unit Unit Unit := undoLast compressed

/-- The entry of this change is not reachable from the snapshot. -/
def raised : Config Unit Unit Unit := call struck (.setLevel 3 5)

end SmallRun

open SmallRun in
/-- `undo_compress` can cut the open end off the log: the level that is set
afterwards stays set. -/
theorem undoCompress_detaches :
    ¬ ∀ c : Config Unit Unit Unit, Reaches (fun _ _ => True) (Config.initial ()) c → c.Sound := by
  intro hall
  have hcall : ∀ {c c'}, Reaches (fun _ _ => True) (Config.initial ()) c →
      ∀ {op : Op Unit Unit Unit}, Step c op c' → Reaches (fun _ _ => True) (Config.initial ()) c' :=
    fun h _ hstep => h.tail ⟨_, trivial, hstep⟩
  have htaken : Reaches (fun _ _ => True) (Config.initial ()) taken :=
    (reaches_taken).lift id fun c c' ⟨op, _, hstep⟩ => ⟨op, trivial, hstep⟩
  have h0 : (0 : ℤ) ≤ taken.state.newId := by decide
  have hcompressed : Reaches (fun _ _ => True) (Config.initial ()) compressed :=
    hcall htaken (step_call (m := .repr 0) h0 rfl)
  have hstruck : Reaches (fun _ _ => True) (Config.initial ()) struck :=
    hcall hcompressed (step_undoLast rfl rfl rfl)
  have h3 : (3 : ℤ) ≤ struck.state.newId := by decide
  have hraised : Reaches (fun _ _ => True) (Config.initial ()) raised :=
    hcall hstruck (step_call (m := .setLevel 3 5) h3 rfl)
  obtain ⟨N, s', hback, hres⟩ := (hall raised hraised).restores _ List.mem_cons_self rfl
  have hlevel := hres.level 3 (show (3 : ℤ) ≤ linked.state.newId by decide)
  have hraise : raised.state.store.level 3 = 5 := by decide
  have hzero : linked.state.store.level 3 = 0 := by decide
  have hcell : raised.state.changes 1 = .unchanged := by rfl
  cases hback N le_rfl
  cases (show (5 : ℤ) = 0 from hlevel)
end Oxcaml.Typing.Types
