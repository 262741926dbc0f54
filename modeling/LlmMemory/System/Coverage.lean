import Mathlib.Order.MinMax
import LlmMemory.System.Contract

/-!
# The watermark covers extracted raws only

Raws created up to the watermark of their owner are never listed again. So each
of them must have been extracted (`Covered`). An append lists all raws up to
the time it was started at, and extracts them before a page of that time is
written; a manual rebuild writes pages without an extraction, and relies on all
raws being extracted before it starts.

What may come between is a raw appended late. Two kinds of runs are looked at,
with one contract (`Coverage.outline`):

* without manual rebuilds (`AppendOnly`), it is enough that no raw shows up
  that was created at or before a time already settled (`InTime`);
* with manual rebuilds (`Manuals`), where the appends are done with nothing in
  between, so that a raw that comes while a worker runs is recorded as missed
  (`Coverage.Noted`).
-/

namespace LlmMemory

open Effects Runs

/-- The raw went into an extraction that succeeded. -/
def Extracted (k : OwnerKey) (s : Shared) (r : Raw) : Prop :=
  ∃ rs, (k, rs) ∈ s.hist.extracted ∧ r ∈ rs

/-- The raws of `k` created up to `t` are extracted. -/
def CoveredTo (k : OwnerKey) (t : Int) (s : Shared) : Prop :=
  ∀ r ∈ s.db.raws, r.key = k → r.createdAt ≤ t → Extracted k s r

/-- All raws of `k` are extracted. -/
def AllExtracted (k : OwnerKey) (s : Shared) : Prop :=
  ∀ r ∈ s.db.raws, r.key = k → Extracted k s r

/-- The watermark of `k` covers extracted raws only, and is settled. With
    manual rebuilds (`M`), nothing is from the future; without, none is
    pending. -/
structure Covered (M : Prop) (k : OwnerKey) (s : Shared) : Prop where
  covered : CoveredTo k (Wikis.maxLastRebuiltAt s.db k) s
  settled : Wikis.maxLastRebuiltAt s.db k ≤ s.hist.settledUntil k
  clock : M → s.hist.settledUntil k ≤ s.now ∧ ∀ r ∈ s.db.raws, r.key = k → r.createdAt ≤ s.now
  pending : ¬ M → (s.map.entry k).manualPending = none

namespace Coverage

/-- The raws of `k` are extracted, or among `rs`, or an append is recorded as
    missed. -/
def Noted (k : OwnerKey) (rs : List Raw) (s : Shared) : Prop :=
  ∀ r ∈ s.db.raws, r.key = k →
    Extracted k s r ∨ r ∈ rs ∨ (s.map.entry k).appendMissed = true

/-- What others may do: raws may show up, created after the settled time. With
    manual rebuilds they are recorded as missed, and none shows up while a
    manual rebuild is starting. -/
structure Rely (M : Prop) (k : OwnerKey) (s s' : Shared) : Prop where
  pages : Wikis.ofOwner s'.db k = Wikis.ofOwner s.db k
  extracted : ∀ r, Extracted k s' r ↔ Extracted k s r
  settled : s'.hist.settledUntil k = s.hist.settledUntil k
  now : s.now ≤ s'.now
  starting : s'.hist.manualStarting k = s.hist.manualStarting k
  raws : ∀ r ∈ s'.db.raws, r.key = k → r ∈ s.db.raws ∨ (s.hist.settledUntil k < r.createdAt ∧
    (M → r.createdAt ≤ s'.now ∧ (s'.map.entry k).appendMissed = true ∧
      s.hist.manualStarting k = false))
  missed : M → (s.map.entry k).appendMissed = true → (s'.map.entry k).appendMissed = true
  pending : ¬ M → (s.map.entry k).manualPending = none → (s'.map.entry k).manualPending = none

variable {M : Prop} {k : OwnerKey} {s s' : Shared} {t : Int} {rs : List Raw}

theorem watermark_congr (h : Wikis.ofOwner s'.db k = Wikis.ofOwner s.db k) :
    Wikis.maxLastRebuiltAt s'.db k = Wikis.maxLastRebuiltAt s.db k := by
  rw [Wikis.maxLastRebuiltAt, h, Wikis.maxLastRebuiltAt]

theorem coveredTo_rely (h : CoveredTo k t s) (ht : t ≤ s.hist.settledUntil k)
    (hr : Rely M k s s') : CoveredTo k t s' := fun r hr' hk hle => by
  rcases hr.raws r hr' hk with hm | ⟨hlt, _⟩
  · exact (hr.extracted r).2 (h r hm hk hle)
  · omega

theorem covered_rely (h : Covered M k s) (hr : Rely M k s s') : Covered M k s' := by
  have hw := watermark_congr hr.pages
  refine ⟨?_, ?_, fun hM => ?_, fun hM => hr.pending hM (h.pending hM)⟩
  · rw [hw]
    exact coveredTo_rely h.covered h.settled hr
  · rw [hw, hr.settled]
    exact h.settled
  · obtain ⟨hs, hc⟩ := h.clock hM
    refine ⟨hr.settled ▸ hs.trans hr.now, fun r hr' hk => ?_⟩
    rcases hr.raws r hr' hk with hm | ⟨_, hnew⟩
    · exact (hc r hm hk).trans hr.now
    · exact (hnew hM).1

theorem noted_rely (hM : M) (h : Noted k rs s) (hr : Rely M k s s') : Noted k rs s' :=
  fun r hr' hk => by
    rcases hr.raws r hr' hk with hm | ⟨_, hnew⟩
    · rcases h r hm hk with he | he | he
      · exact .inl ((hr.extracted r).2 he)
      · exact .inr (.inl he)
      · exact .inr (.inr (hr.missed hM he))
    · exact .inr (.inr (hnew hM).2.1)

/-! ## The annotations of a session -/

/-- Before an iteration. A manual one starts when all raws are extracted. -/
def Start (M : Prop) (k : OwnerKey) (mode : RebuildMode) (s : Shared) : Prop :=
  Covered M k s ∧
    (mode.IsManual → M ∧ AllExtracted k s ∧ s.hist.manualStarting k = true)

/-- Once an iteration was started at `t`. -/
structure Started (M : Prop) (k : OwnerKey) (mode : RebuildMode) (t : Int) (s : Shared) :
    Prop where
  covered : Covered M k s
  late : M → t ≤ s.now ∧
    ∀ r ∈ s.db.raws, r.key = k → r.createdAt ≤ t ∨ (s.map.entry k).appendMissed = true
  manual : mode.IsManual → M ∧ CoveredTo k t s ∧ t ≤ s.hist.settledUntil k

/-- Once the raws `rs` were listed, in an iteration started at `t`. -/
structure Listed (M : Prop) (k : OwnerKey) (mode : RebuildMode) (t : Int) (rs : List Raw)
    (s : Shared) : Prop where
  started : Started M k mode t s
  listed : mode = .append → rs ≠ [] → t ≤ s.hist.settledUntil k ∧
    ∀ r ∈ s.db.raws, r.key = k → r.createdAt ≤ t → Extracted k s r ∨ r ∈ rs
  noted : mode = .append → M → Noted k rs s

/-- Once pages may be written at `t`. -/
structure Ready (M : Prop) (k : OwnerKey) (t : Int) (s : Shared) : Prop where
  covered : Covered M k s
  coveredTo : CoveredTo k t s
  settled : t ≤ s.hist.settledUntil k
  noted : M → Noted k [] s

/-- At the end of a session. -/
def Finish (M : Prop) (k : OwnerKey) (s : Shared) : Prop := Covered M k s ∧ (M → Noted k [] s)

variable {mode : RebuildMode}

theorem start_stable : Stable (Rely M k) (Start M k mode) := fun s s' h hr => by
  refine ⟨covered_rely h.1 hr, fun hm => ?_⟩
  obtain ⟨hM, hall, hs⟩ := h.2 hm
  refine ⟨hM, fun r hr' hk => ?_, hr.starting.trans hs⟩
  rcases hr.raws r hr' hk with hmem | ⟨_, hnew⟩
  · exact (hr.extracted r).2 (hall r hmem hk)
  · cases hs.symm.trans (hnew hM).2.2

theorem started_stable : Stable (Rely M k) (Started M k mode t) := fun s s' h hr => by
  refine ⟨covered_rely h.covered hr, fun hM => ?_, fun hm => ?_⟩
  · obtain ⟨ht, hlate⟩ := h.late hM
    refine ⟨ht.trans hr.now, fun r hr' hk => ?_⟩
    rcases hr.raws r hr' hk with hmem | ⟨_, hnew⟩
    · exact (hlate r hmem hk).imp_right (hr.missed hM)
    · exact .inr (hnew hM).2.1
  · obtain ⟨hM, hc, ht⟩ := h.manual hm
    exact ⟨hM, coveredTo_rely hc ht hr, hr.settled ▸ ht⟩

theorem listed_stable : Stable (Rely M k) (Listed M k mode t rs) := fun s s' h hr => by
  refine ⟨started_stable s s' h.started hr, fun hm hne => ?_,
    fun hm hM => noted_rely hM (h.noted hm hM) hr⟩
  obtain ⟨ht, hl⟩ := h.listed hm hne
  refine ⟨hr.settled ▸ ht, fun r hr' hk hle => ?_⟩
  rcases hr.raws r hr' hk with hmem | ⟨hlt, _⟩
  · exact (hl r hmem hk hle).imp_left (hr.extracted r).2
  · omega

theorem ready_stable : Stable (Rely M k) (Ready M k t) := fun _ _ h hr =>
  ⟨covered_rely h.covered hr, coveredTo_rely h.coveredTo h.settled hr, hr.settled ▸ h.settled,
    fun hM => noted_rely hM (h.noted hM) hr⟩

theorem finish_stable : Stable (Rely M k) (Finish M k) := fun _ _ h hr =>
  ⟨covered_rely h.1 hr, fun hM => noted_rely hM (h.2 hM) hr⟩

/-! ## The operations -/

/-- Raws that are settled are covered by the watermark to come. -/
theorem covered_noteSettled (h : Covered M k s) (ht : M → t ≤ s.now) :
    Covered M k (s.noteSettled k t) := by
  have hset : (s.noteSettled k t).hist.settledUntil k = max t (s.hist.settledUntil k) :=
    Function.update_self _ _ _
  refine ⟨h.covered, ?_, fun hM => ⟨?_, (h.clock hM).2⟩, h.pending⟩
  · rw [hset]
    exact h.settled.trans (le_max_right _ _)
  · rw [hset]
    exact max_le (ht hM) (h.clock hM).1

/-- The start of an iteration keeps the coverage. -/
theorem covered_noteStarted (h : Covered M k s) (mode : RebuildMode) :
    Covered M k (s.noteStarted k mode) := by
  by_cases hm : mode.IsManual
  · have hset : (s.noteStarted k mode).hist.settledUntil =
        Function.update s.hist.settledUntil k (max s.now (s.hist.settledUntil k)) := if_pos hm
    refine ⟨h.covered, ?_, fun hM => ⟨?_, (h.clock hM).2⟩, h.pending⟩
    · rw [hset, Function.update_self]
      exact h.settled.trans (le_max_right _ _)
    · rw [hset, Function.update_self]
      exact max_le le_rfl (h.clock hM).1
  · have hset : (s.noteStarted k mode).hist.settledUntil = s.hist.settledUntil := if_neg hm
    exact ⟨h.covered, hset ▸ h.settled, fun hM => ⟨hset ▸ (h.clock hM).1, (h.clock hM).2⟩, h.pending⟩

theorem started_noteStarted (h : Start M k mode s) :
    Started M k mode s.now (s.noteStarted k mode) := by
  refine ⟨covered_noteStarted h.1 mode, fun hM => ⟨le_rfl, fun r hr hk => ?_⟩, fun hm => ?_⟩
  · exact .inl ((h.1.clock hM).2 r hr hk)
  · obtain ⟨hM, hall, _⟩ := h.2 hm
    have hset : (s.noteStarted k mode).hist.settledUntil =
        Function.update s.hist.settledUntil k (max s.now (s.hist.settledUntil k)) := if_pos hm
    refine ⟨hM, fun r hr hk _ => hall r hr hk, ?_⟩
    rw [hset, Function.update_self]
    exact le_max_left _ _

/-- What is listed above the watermark, up to the time of the iteration. -/
theorem listed_listSince (h : Started M k mode t s) :
    let rs := Raws.listSince s.db k (Wikis.maxLastRebuiltAt s.db k) t
    let s' := if rs.isEmpty then s else s.noteSettled k t
    (Covered M k s → Covered M k s') ∧ Listed M k mode t rs s' := by
  intro rs s'
  have hl : ∀ r ∈ s.db.raws, r.key = k → r.createdAt ≤ t → Extracted k s r ∨ r ∈ rs :=
    fun r hr hk hle => by
      by_cases hw : r.createdAt ≤ Wikis.maxLastRebuiltAt s.db k
      · exact .inl (h.covered.covered r hr hk hw)
      · exact .inr (Raws.mem_listSince.2 ⟨hr, hk, not_le.1 hw, hle⟩)
  have hnoted : M → Noted k rs s := fun hM r hr hk => by
    rcases (h.late hM).2 r hr hk with hle | hmiss
    · exact (hl r hr hk hle).imp_right .inl
    · exact .inr (.inr hmiss)
  by_cases he : rs.isEmpty
  · have hs' : s' = s := if_pos he
    rw [hs']
    exact ⟨id, h, fun _ hne => absurd (List.isEmpty_iff.1 he) hne, fun _ => hnoted⟩
  · have hs' : s' = s.noteSettled k t := if_neg he
    have hset : t ≤ (s.noteSettled k t).hist.settledUntil k := by
      simp [Shared.noteSettled]
    rw [hs']
    refine ⟨fun hc => covered_noteSettled hc fun hM => (h.late hM).1,
      ⟨covered_noteSettled h.covered fun hM => (h.late hM).1, h.late, fun hm => ?_⟩,
      fun _ _ => ⟨hset, hl⟩, fun _ => hnoted⟩
    obtain ⟨hM, hc, _⟩ := h.manual hm
    exact ⟨hM, hc, hset⟩

theorem covered_notePrompt {p : Prompt} (h : Covered M k s) : Covered M k (s.notePrompt k p) :=
  { h with }

theorem listed_notePrompt {p : Prompt} (h : Listed M k mode t rs s) :
    Listed M k mode t rs (s.notePrompt k p) :=
  { h with started := { h.started with covered := covered_notePrompt h.started.covered } }

theorem ready_notePrompt {p : Prompt} (h : Ready M k t s) : Ready M k t (s.notePrompt k p) :=
  { h with covered := covered_notePrompt h.covered }

theorem ready_noteBuilt {i : SynthInput} (h : Ready M k t s) : Ready M k t (s.noteBuilt i) :=
  { h with covered := { h.covered with } }

/-- The raws that are extracted are those before, and the ones noted. -/
theorem extracted_noteExtracted {r : Raw} : Extracted k (s.noteExtracted k rs) r ↔
    Extracted k s r ∨ r ∈ rs := by
  constructor
  · rintro ⟨rs', hm, hr⟩
    rcases List.mem_append.1 hm with hm | hm
    · exact .inl ⟨rs', hm, hr⟩
    · cases List.mem_singleton.1 hm
      exact .inr hr
  · rintro (⟨rs', hm, hr⟩ | hr)
    · exact ⟨rs', List.mem_append_left _ hm, hr⟩
    · exact ⟨rs, List.mem_append_right _ (List.mem_singleton_self _), hr⟩

/-- An extraction keeps the coverage. -/
theorem covered_noteExtracted (h : Covered M k s) : Covered M k (s.noteExtracted k rs) :=
  ⟨fun r hr hk hle => extracted_noteExtracted.2 (.inl (h.covered r hr hk hle)), h.settled, h.clock,
    h.pending⟩

/-- After the extraction of the raws listed, pages may be written. -/
theorem ready_noteExtracted (h : Listed M k .append t rs s) (hne : rs ≠ []) :
    Ready M k t (s.noteExtracted k rs) := by
  obtain ⟨ht, hl⟩ := h.listed rfl hne
  refine ⟨covered_noteExtracted h.started.covered, fun r hr hk hle => ?_, ht, fun hM r hr hk => ?_⟩
  · exact extracted_noteExtracted.2 (hl r hr hk hle)
  · rcases h.noted rfl hM r hr hk with he | he | he
    · exact .inl (extracted_noteExtracted.2 (.inl he))
    · exact .inl (extracted_noteExtracted.2 (.inr he))
    · exact .inr (.inr he)

/-- A manual iteration may write pages without an extraction. -/
theorem ready_of_manual (h : Started M k mode t s) (hm : mode.IsManual) : Ready M k t s := by
  obtain ⟨hM, hc, ht⟩ := h.manual hm
  refine ⟨h.covered, hc, ht, fun _ r hr hk => ?_⟩
  rcases (h.late hM).2 r hr hk with hle | hmiss
  · exact .inl (hc r hr hk hle)
  · exact .inr (.inr hmiss)

/-- A page written at `t` moves the watermark up to `t` at most. -/
theorem ready_upsertWiki (h : Ready M k t s) (c content : String) (refs : List String) :
    Ready M k t (s.upsertWiki k c content refs t) := by
  have hw : Wikis.maxLastRebuiltAt (s.upsertWiki k c content refs t).db k ≤
      max (Wikis.maxLastRebuiltAt s.db k) t := Wikis.maxLastRebuiltAt_upsert_le
  refine ⟨⟨fun r hr hk hle => ?_, hw.trans (max_le h.covered.settled h.settled), h.covered.clock,
    h.covered.pending⟩, h.coveredTo, h.settled, h.noted⟩
  rcases le_max_iff.1 (hle.trans hw) with hle | hle
  · exact h.covered.covered r hr hk hle
  · exact h.coveredTo r hr hk hle

/-! ## The contract -/

/-- The worker keeps the watermark covered. -/
def guar (M : Prop) (k : OwnerKey) (s s' : Shared) : Prop := Covered M k s → Covered M k s'

variable {fts : Fts}

/-- The synthesis of a page, once pages may be written. -/
def taskOutline (fts : Fts) (M : Prop) (k : OwnerKey) (c : String) (rs : List Raw) (t : Int) :
    TaskOutline fts (fun s s' => Rely M k s s' ∨ (Ready M k t s ∧ (Ready M k t s → Ready M k t s')))
      (fun s s' => Ready M k t s → Ready M k t s') ⟨k, c, rs, t⟩ where
  busy := Ready M k t
  got _ _ := True
  mine _ _ := True
  noted _ _ _ := True
  guar_refl _ := id
  busy_stable := fun s s' h hr => hr.elim (ready_stable s s' h) fun hr => hr.2 h
  got_stable _ _ _ _ _ := trivial
  mine_stable _ _ _ _ _ := trivial
  noted_stable _ _ _ _ _ _ := trivial
  get _ _ := trivial
  refs _ _ _ _ _ _ _ _ := trivial
  new _ _ _ _ := trivial
  hits _ _ _ _ _ := trivial
  built _ _ _ h _ _ _ := ⟨ready_noteBuilt, ready_noteBuilt h, trivial⟩
  prompt _ _ _ h _ := ⟨ready_notePrompt, ready_notePrompt h, trivial⟩
  upsert _ _ _ content refs _ _ _ h := ready_upsertWiki h c content refs

/-- The outline of a session with the coverage of its owner. -/
def outline (fts : Fts) (M : Prop) (k : OwnerKey) : Outline fts (Rely M k) (guar M k) k where
  start := Start M k
  started := Started M k
  marked mode t w s := Started M k mode t s ∧ w = Wikis.maxLastRebuiltAt s.db k
  listed := Listed M k
  known mode t rs _ := Listed M k mode t rs
  extracted t _ _ _ := Ready M k t
  planned t _ _ := Ready M k t
  finish := Finish M k
  guar_refl _ := id
  start_stable _ := start_stable
  started_stable _ _ := started_stable
  marked_stable _ _ _ := fun s s' h hr =>
    ⟨started_stable s s' h.1 hr, h.2.trans (watermark_congr hr.pages).symm⟩
  listed_stable _ _ _ := listed_stable
  known_stable _ _ _ _ := listed_stable
  extracted_stable _ _ _ _ := ready_stable
  planned_stable _ _ _ := ready_stable
  finish_stable := finish_stable
  startSession mode _ h := ⟨fun hc => covered_noteStarted hc mode, started_noteStarted h⟩
  watermark _ _ _ h := ⟨h, rfl⟩
  listSince _ _ _ _ h := by
    obtain ⟨h, rfl⟩ := h
    exact listed_listSince h
  listConcepts _ _ _ _ h := h
  drained _ _ _ h := ⟨h.started.covered, h.noted rfl⟩
  prompt _ _ _ _ _ h := ⟨covered_notePrompt, listed_notePrompt h⟩
  extract _ _ _ _ _ hne h := ⟨covered_noteExtracted, ready_noteExtracted h hne⟩
  count _ _ _ _ _ h := h
  existing _ _ _ _ _ h _ := ready_of_manual h.started trivial
  create _ _ _ _ _ h _ _ := ready_of_manual h.started trivial
  rejected _ _ _ _ _ h := ⟨h.started.covered, (ready_of_manual h.started trivial).noted⟩
  all _ _ _ _ h := ready_of_manual h.started trivial
  nothing _ _ _ _ h := ⟨h.covered, h.noted⟩
  tasks t rs cs s h := by
    refine ⟨Ready M k t, fun s s' => Ready M k t s → Ready M k t s', h, ⟨ready_stable,
      fun s s' h hT => ⟨hT h, fun _ => (hT h).covered⟩, fun task ht s hs => ?_⟩,
      fun s h => ⟨h.covered, h.noted⟩⟩
    obtain ⟨c, _, rfl⟩ := List.mem_map.1 ht
    exact (taskOutline fts M k c rs t).taskSafe hs
  again _ h := ⟨h.1, fun hm => hm.elim⟩

/-- What a session is followed by: if it is a manual rebuild, all raws are
    extracted, since none is recorded as missed. -/
theorem proceed (h : Finish M k s) {mode : RebuildMode}
    (hm : s.markIdleOrContinue k = (some mode, s')) : Start M k mode s' := by
  obtain ⟨e', rfl, ⟨_, rfl, rfl⟩ | ⟨hmiss, hp, rfl⟩⟩ := Shared.markIdleOrContinue_some hm
  · refine ⟨⟨h.1.covered, h.1.settled, h.1.clock, fun hM => ?_⟩, fun hm => hm.elim⟩
    simpa [Shared.noteDispatched] using h.1.pending hM
  · refine ⟨⟨h.1.covered, h.1.settled, h.1.clock, fun hM => ?_⟩, fun hman => ?_⟩
    · simp [Shared.noteDispatched]
    · have hM : M := by_contra fun hM => by simp [h.1.pending hM] at hp
      refine ⟨hM, fun r hr hk => ?_, by simp [Shared.noteDispatched, hman]⟩
      rcases h.2 hM r hr hk with he | he | he
      · exact he
      · cases he
      · rw [hmiss] at he
        cases he

/-- The contract of a worker with the coverage of its owner. -/
def contract (fts : Fts) (M : Prop) (k : OwnerKey) : Contract fts k :=
  (outline fts M k).contract (fun _ _ => ⟨rfl, fun _ => .rfl, rfl, le_rfl, rfl, fun _ h _ => .inl h,
    fun _ => id, fun _ => id⟩) fun h hm => proceed h hm

/-! ## Steps -/

/-- What every run keeps. -/
def Kept (fts : Fts) (M : Prop) (k : OwnerKey) (s : Sys) : Prop :=
  Covered M k s.shared ∧ WorkersSafe (contract fts M k) s

/-- What does not touch the raws and the pages keeps them covered. -/
theorem covered_congr (h : Covered M k s) (hdb : s'.db = s.db) (hnow : s'.now = s.now)
    (hex : s'.hist.extracted = s.hist.extracted) (hset : s'.hist.settledUntil = s.hist.settledUntil)
    (hp : ¬ M → (s.map.entry k).manualPending = none → (s'.map.entry k).manualPending = none) :
    Covered M k s' := by
  refine ⟨?_, ?_, ?_, fun hM => hp hM (h.pending hM)⟩
  · simp only [CoveredTo, Extracted, hdb, hex]
    exact h.covered
  · rw [hdb, hset]
    exact h.settled
  · rw [hdb, hset, hnow]
    exact h.clock

/-- What does not touch the raws and the pages is in the rely, if it keeps what
    is recorded. -/
theorem rely_congr (hdb : s'.db = s.db) (hnow : s.now ≤ s'.now)
    (hex : s'.hist.extracted = s.hist.extracted)
    (hset : s'.hist.settledUntil k = s.hist.settledUntil k)
    (hstart : s'.hist.manualStarting k = s.hist.manualStarting k)
    (hmiss : M → (s.map.entry k).appendMissed = true → (s'.map.entry k).appendMissed = true)
    (hp : ¬ M → (s.map.entry k).manualPending = none → (s'.map.entry k).manualPending = none) :
    Rely M k s s' :=
  ⟨by rw [hdb], fun r => by simp only [Extracted, hex], hset, hnow, hstart,
    fun r hr _ => .inl (hdb ▸ hr), hmiss, hp⟩

theorem rely_refl (s : Shared) : Rely M k s s :=
  rely_congr rfl le_rfl rfl rfl rfl (fun _ => id) fun _ => id

theorem rely_tick (s : Shared) (dt : ℕ) : Rely M k s (s.tick dt) :=
  rely_congr rfl (Int.le_add_of_nonneg_right (Int.natCast_nonneg dt)) rfl rfl rfl (fun _ => id)
    fun _ => id

/-- What happens aside keeps the coverage. -/
theorem rely_of_aside (h : Aside k s s') : Rely M k s s' where
  pages := h.wikis
  extracted r := by simp only [Extracted, h.extracted]
  settled := h.settledUntil
  now := h.now.ge
  starting := h.manualStarting
  raws r hr _ := .inl (h.raws ▸ hr)
  missed _ hm := h.entry ▸ hm
  pending _ hp := h.entry ▸ hp

/-- The moves of the worker of `k` keep the watermark covered. -/
theorem covered_moves (h : Covered M k s) {w : Worker} {p : Phase} {e : Event} (hk : w.key = k)
    (hsafe : (contract fts M k).PhaseSafe w.phase s) (hm : w.Moves fts e s p s') :
    Covered M k s' := by
  subst hk
  cases hm with
  | spawn _ => exact covered_congr h rfl rfl rfl rfl fun _ => id
  | thread hp _ ht =>
    rw [hp] at hsafe
    exact (hsafe.guar ht).elim (fun he => he ▸ h) fun hg => hg h
  | again _ => exact h
  | proceed _ hmark =>
    -- what is pending is what it was, or is taken
    obtain ⟨e', rfl, ⟨_, _, rfl⟩ | ⟨_, _, rfl⟩⟩ := Shared.markIdleOrContinue_some hmark
    · exact covered_congr h rfl rfl rfl rfl fun _ hp => by simpa [Shared.noteDispatched] using hp
    · exact covered_congr h rfl rfl rfl rfl fun _ _ => by simp [Shared.noteDispatched]
  | idle _ hmark =>
    obtain ⟨_, hp, rfl⟩ := Shared.markIdleOrContinue_none hmark
    exact covered_congr h rfl rfl rfl rfl fun _ _ => by simp [hp]
  | err _ => exact h
  | abort _ _ _ => exact h
  | observe _ => exact covered_congr h rfl rfl rfl rfl fun _ => id
  -- a worker that ended in an error keeps what is pending, one that panicked forgets it
  | @release r _ =>
    cases r with
    | ok => exact h
    | err =>
      refine covered_congr h rfl rfl rfl rfl fun _ hp => ?_
      rw [Shared.release, StateMap.releaseRunningPreservePending_entry]
      exact hp
    | panicked =>
      refine covered_congr h rfl rfl rfl rfl fun _ _ => ?_
      rw [Shared.release, StateMap.forceIdle_entry]
    | joinError =>
      refine covered_congr h rfl rfl rfl rfl fun _ _ => ?_
      rw [Shared.release, StateMap.forceIdle_entry]

/-- A move of a worker keeps the coverage. -/
theorem Kept.moves {s : Sys} (h : Kept fts M k s) (hs : Sound fts s) {i : ℕ} {w : Worker}
    {p : Phase} {sh : Shared} {e : Event} (hi : s.workers[i]? = some w)
    (hm : w.Moves fts e s.shared p sh) :
    Kept fts M k (s.setWorker i { w with phase := p } sh) := by
  have haside : w.key ≠ k → Rely M k s.shared sh := fun hk =>
    rely_of_aside (((hs.own w.key).ownMove (List.mem_of_getElem? hi) rfl hm).aside (Ne.symm hk))
  refine ⟨?_, h.2.moves hs.slots hi hm haside⟩
  by_cases hk : w.key = k
  · exact covered_moves h.1 hk (h.2 w (List.mem_of_getElem? hi) hk) hm
  · exact covered_rely h.1 (haside hk)

/-- A request for a rebuild that starts no worker of `k`. -/
theorem rely_tryStart {key : OwnerKey} {o : Option RebuildMode} (ht : s.tryStart key mode = (o, s'))
    (hk : key = k → o = none ∧ (mode.IsManual → M)) : Rely M k s s' := by
  by_cases hkey : key = k
  · subst hkey
    obtain ⟨rfl, hM⟩ := hk rfl
    obtain ⟨e', rfl, _, ⟨_, rfl⟩ | ⟨hm, rfl⟩⟩ := Shared.tryStart_none ht
    · exact rely_congr rfl le_rfl rfl rfl rfl (fun _ _ => by simp) fun _ hp => by simpa using hp
    · exact rely_congr rfl le_rfl rfl rfl rfl (fun _ hmiss => by simpa using hmiss)
        fun hnM _ => absurd (hM hm) hnM
  · have hne := Ne.symm hkey
    cases o with
    | none =>
      obtain ⟨e', rfl, _⟩ := Shared.tryStart_none ht
      exact rely_congr rfl le_rfl rfl rfl rfl
        (fun _ hmiss => by simpa [StateMap.entry_update_of_ne hne] using hmiss)
        fun _ hp => by simpa [StateMap.entry_update_of_ne hne] using hp
    | some m =>
      obtain ⟨e', rfl, _⟩ := Shared.tryStart_some ht
      exact rely_congr rfl le_rfl rfl rfl (Function.update_of_ne hne _ _)
        (fun _ hmiss => by
          simpa [Shared.noteDispatched, StateMap.entry_update_of_ne hne] using hmiss)
        fun _ hp => by simpa [Shared.noteDispatched, StateMap.entry_update_of_ne hne] using hp

/-- A worker of `k` starts with an append, or with a manual rebuild if all raws
    are extracted. -/
theorem start_tryStart (h : Covered M k s) {m : RebuildMode} (ht : s.tryStart k mode = (some m, s'))
    (hman : mode.IsManual → M ∧ ((s.map.entry k).running = false →
      (s.map.entry k).appendMissed = false → AllExtracted k s)) : Start M k m s' := by
  obtain ⟨e', rfl, hrun, ⟨hm, _, rfl, rfl⟩ | ⟨hmiss, rfl, rfl⟩⟩ := Shared.tryStart_some ht
  · exact ⟨covered_congr h rfl rfl rfl rfl fun hnM _ => absurd (hman hm).1 hnM, fun hm => hm.elim⟩
  · refine ⟨covered_congr h rfl rfl rfl rfl fun _ hp => by simpa [Shared.noteDispatched] using hp,
      fun hm => ⟨(hman hm).1, (hman hm).2 hrun (hmiss hm), by simp [Shared.noteDispatched, hm]⟩⟩

/-- The effects of requests keep the watermark covered, where a raw is inserted
    in time, and a manual rebuild is started in time. -/
theorem Kept.effect {s : Sys} (h : Kept fts M k s) (hs : Sound fts s) {e : Effect}
    (hins : ∀ r, e = .insertRaw r → r.key = k → ¬ M ∧ s.shared.hist.settledUntil k < r.createdAt)
    (hdel : ∀ u, e = .deleteUser u → .personal u ≠ k)
    (hman : ∀ mode, e = .tryStart k mode → mode.IsManual → M ∧
      ((s.shared.map.entry k).running = false → (s.shared.map.entry k).appendMissed = false →
        AllExtracted k s.shared)) : Kept fts M k (s.effect e) := by
  have hrefl := rely_refl (M := M) (k := k) s.shared
  have hkeep : ∀ s' : Sys, s'.workers = s.workers → Rely M k s.shared s'.shared → Kept fts M k s' :=
    fun s' hw hr => ⟨covered_rely h.1 hr, h.2.env hw hr⟩
  cases e with
  -- the raw comes after the watermark, so that it is not claimed to be extracted
  | insertRaw r =>
    refine hkeep _ rfl { hrefl with raws := fun r' hr' hk => ?_ }
    rcases List.mem_append.1 hr' with hr' | hr'
    · exact .inl hr'
    · obtain rfl := List.mem_singleton.1 hr'
      obtain ⟨hM, hlt⟩ := hins _ rfl hk
      exact .inr ⟨hlt, fun h => absurd h hM⟩
  | upsertSchema key content now => exact hkeep _ rfl { hrefl with }
  -- another user's deletion, which leaves the pages of `k`
  | deleteUser u =>
    refine hkeep _ rfl { hrefl with
      pages := ?_
      raws := fun r hr _ => .inl (List.mem_of_mem_filter hr) }
    simp only [Sys.effect, Users.deleteCascade, Wikis.ofOwner, List.filter_filter]
    refine List.filter_congr fun w _ => ?_
    by_cases hw : w.key = k
    · simp [hw, Ne.symm (hdel u rfl)]
    · simp [hw]
  | tryStart key mode =>
    cases ht : s.shared.tryStart key mode with
    | mk o sh =>
      have hsh : (s.effect (.tryStart key mode)).shared = sh := by
        rw [Sys.effect_tryStart_shared, ht]
      have hM : key = k → mode.IsManual → M := fun hk hm => (hman mode (hk ▸ rfl) hm).1
      refine ⟨?_, h.2.effect hs.slots (fun hnone => ?_) fun mode' m sh' he ht' => ?_⟩
      · rw [hsh]
        -- either a worker of `k` starts, or the request is one that the workers rely on
        by_cases hk : key = k ∧ o ≠ none
        · obtain ⟨rfl, ho⟩ := hk
          obtain ⟨m, rfl⟩ := Option.ne_none_iff_exists'.1 ho
          exact (start_tryStart h.1 ht (hman mode rfl)).1
        · refine covered_rely h.1 (rely_tryStart ht fun hkey => ⟨?_, hM hkey⟩)
          exact not_not.1 fun ho => hk ⟨hkey, ho⟩
      · rw [hsh]
        refine rely_tryStart ht fun hkey => ⟨?_, hM hkey⟩
        subst hkey
        rw [← hnone mode rfl, ht]
      · cases he
        exact start_tryStart h.1 ht' (hman mode rfl)

theorem Kept.tick {s : Sys} (h : Kept fts M k s) (dt : ℕ) (calls : List Call) :
    Kept fts M k { s.tick dt with calls := calls } :=
  ⟨covered_rely h.1 (rely_tick _ dt), h.2.env rfl (rely_tick _ dt)⟩

/-- The same, for the effects of an event, in turn. -/
theorem Kept.effects {s : Sys} (h : Kept fts M k s) (hs : Sound fts s) {e : Event}
    {es : List Effect} {calls : List Call} (he : s.effects e = some (es, calls))
    (hins : ∀ r, .insertRaw r ∈ es → r.key = k → ¬ M ∧ s.shared.hist.settledUntil k < r.createdAt)
    (hdel : ∀ u, .deleteUser u ∈ es → .personal u ≠ k)
    (hman : ∀ mode, .tryStart k mode ∈ es → mode.IsManual → M ∧
      ((s.shared.map.entry k).running = false → (s.shared.map.entry k).appendMissed = false →
        AllExtracted k s.shared)) : Kept fts M k (es.foldl Sys.effect { s with calls := calls }) := by
  have h' : Kept fts M k { s with calls := calls } := ⟨h.1, h.2⟩
  have hs' : Sound fts { s with calls := calls } := ⟨⟨hs.slots.slots, hs.slots.gauge⟩, hs.own⟩
  rcases Sys.effects_cases he with rfl | ⟨x, rfl, _⟩ | ⟨u, a, id, r, _, _, _, rfl⟩
  · exact h'
  · exact h'.effect hs' (fun r hr => hins r (hr ▸ .head _)) (fun u hu => hdel u (hu ▸ .head _))
      fun mode hm => hman mode (hm ▸ .head _)
  · have h₁ := h'.effect hs' (e := .insertRaw r) (fun r' hr' => hins r' (hr' ▸ .head _)) nofun nofun
    refine h₁.effect (hs'.effect _) (e := .tryStart (.personal u) .append) nofun nofun
      fun mode hm hman => ?_
    cases hm
    exact hman.elim

/-- A raw of `k` appended with nothing in between, while no manual rebuild is
    starting. -/
theorem Kept.append {s : Sys} (h : Kept fts True k s) (hs : Sound fts s) {r : Raw} (hk : r.key = k)
    (hnow : r.createdAt = s.shared.now) (hlt : s.shared.hist.settledUntil k < s.shared.now)
    (hstart : s.shared.hist.manualStarting k = false) :
    Kept fts True k ((s.effect (.insertRaw r)).effect (.tryStart k .append)) := by
  have hraws : ∀ r' ∈ (s.effect (.insertRaw r)).shared.db.raws, r'.key = k →
      r' ∈ s.shared.db.raws ∨ r' = r := fun r' hr' _ =>
    (List.mem_append.1 hr').imp_right List.mem_singleton.1
  by_cases hrun : (s.shared.map.entry k).running = true
  · -- The slot is held, so the append is recorded as missed.
    cases ht : (s.effect (.insertRaw r)).shared.tryStart k .append with
    | mk o sh =>
      cases o with
      | some m =>
        obtain ⟨_, _, hidle, _⟩ := Shared.tryStart_some ht
        cases hrun.symm.trans hidle
      | none =>
        obtain ⟨e', rfl, _, ⟨_, rfl⟩ | ⟨hm, _⟩⟩ := Shared.tryStart_none ht
        · have hrely : Rely True k s.shared
              ((s.effect (.insertRaw r)).effect (.tryStart k .append)).shared := by
            rw [Sys.effect_tryStart_shared, ht]
            refine { rely_refl (M := True) (k := k) s.shared with
              raws := fun r' hr' hk' => ?_
              missed := fun _ _ => by simp
              pending := fun h => absurd trivial h }
            rcases hraws r' hr' hk' with hr' | rfl
            · exact .inl hr'
            · exact .inr ⟨hnow ▸ hlt, fun _ => ⟨hnow.le, by simp, hstart⟩⟩
          refine ⟨covered_rely h.1 hrely, h.2.env ?_ hrely⟩
          simp only [Sys.effect] at ht ⊢
          rw [ht]
        · exact hm.elim
  -- the slot is free, so that the append starts a worker
  · have hidle : (s.shared.map.entry k).running = false := Bool.eq_false_iff.2 hrun
    have hcov : Covered True k (s.effect (.insertRaw r)).shared := by
      refine ⟨fun r' hr' hk' hle => ?_, h.1.settled,
        fun hM => ⟨(h.1.clock hM).1, fun r' hr' hk' => ?_⟩, h.1.pending⟩
      · rcases hraws r' hr' hk' with hr' | rfl
        · exact h.1.covered r' hr' hk' hle
        · have := h.1.settled
          have hle : r'.createdAt ≤ Wikis.maxLastRebuiltAt s.shared.db k := hle
          omega
      · rcases hraws r' hr' hk' with hr' | rfl
        · exact (h.1.clock hM).2 r' hr' hk'
        · exact hnow.le
    have hs₁ := hs.effect (.insertRaw r)
    have h₁ : Kept fts True k (s.effect (.insertRaw r)) := ⟨hcov, .of_idle hs₁.slots hidle⟩
    refine h₁.effect hs₁ (e := .tryStart k .append) (fun r' hr' => ?_) (fun u hu => ?_)
      fun mode hm hman => ?_
    · cases hr'
    · cases hu
    · cases hm
      exact hman.elim

end Coverage

open Coverage

/-! ## Runs without manual rebuilds -/

/-- The effect is neither a manual rebuild of `k` nor its deletion. -/
def Effect.isAppendOnly (k : OwnerKey) : Effect → Bool
  | .tryStart key (.manual _) => key ≠ k
  | .deleteUser u => .personal u ≠ k
  | _ => true

/-- The effect inserts no raw of `k` created at `t` or before. -/
def Effect.isAfter (k : OwnerKey) (t : Int) : Effect → Bool
  | .insertRaw r => r.key = k → t < r.createdAt
  | _ => true

/-- There are no manual rebuilds of `k`, nor is its account deleted. -/
def AppendOnly (k : OwnerKey) (s : Sys) (l : Step) : Prop := s.Each l (·.isAppendOnly k)

/-- No raw of `k` shows up that was created at or before a time up to which a
    session has listed raws. -/
def InTime (k : OwnerKey) (s : Sys) (l : Step) : Prop :=
  s.Each l (·.isAfter k (s.shared.hist.settledUntil k))

instance {k : OwnerKey} {s : Sys} {l : Step} : Decidable (AppendOnly k s l) :=
  inferInstanceAs (Decidable (s.Each l _))

instance {k : OwnerKey} {s : Sys} {l : Step} : Decidable (InTime k s l) :=
  inferInstanceAs (Decidable (s.Each l _))

variable {fts : Fts} {k : OwnerKey} {s : Sys}

/-- In every run without manual rebuilds where raws show up in time, each raw is
    newer than the watermark, or was extracted. -/
theorem appended_raw_listed_or_extracted
    (h : Reach (fun s => Boot s ∧ Covered False k s.shared) (Sys.step fts)
      (fun s l => AppendOnly k s l ∧ InTime k s l) s) :
    ∀ r ∈ s.shared.db.raws, r.key = k →
      Wikis.maxLastRebuiltAt s.shared.db k < r.createdAt ∨ Extracted k s.shared r := by
  have hinv := Sound.invariant (P := Kept fts False k) (fun s hs => ?_)
    (fun s l s' hs hP hok hst => ?_) h
  · intro r hr hk
    by_cases hle : r.createdAt ≤ Wikis.maxLastRebuiltAt s.shared.db k
    · exact .inr (hinv.2.1.covered r hr hk hle)
    · exact .inl (not_le.1 hle)
  · exact ⟨hs.1, hs.2, fun w hw => by simp [hs.1.workers] at hw⟩
  · rcases Sys.step_cases hst with ⟨es, calls, he, rfl⟩ | ⟨i, w, p, sh, _, hi, hm, rfl⟩
    · have hdoes : ∀ e ∈ es, s.Does l e := fun e hm => ⟨_, he, hm⟩
      refine (hP.tick l.dt s.calls).effects (hs.tick l.dt s.calls) he (fun r hr hk => ⟨id, ?_⟩)
        (fun u hu => ?_) fun mode hm hman => ?_
      · exact of_decide_eq_true (hok.2.does (hdoes _ hr)) hk
      · exact of_decide_eq_true (hok.1.does (hdoes _ hu))
      · cases mode with
        | append => exact hman.elim
        | manual c => exact absurd rfl (of_decide_eq_true (hok.1.does (hdoes _ hm)))
    · exact (hP.tick l.dt s.calls).moves (hs.tick l.dt s.calls) hi hm

/-- A raw of `k` at or below the watermark was not extracted. -/
def Lost (k : OwnerKey) (s : Shared) : Prop :=
  ∃ r ∈ s.db.raws, r.key = k ∧ r.createdAt ≤ Wikis.maxLastRebuiltAt s.db k ∧
    ∀ x ∈ s.hist.extracted, x.1 = k → r ∉ x.2

instance : Decidable (Lost k s.shared) := by unfold Lost; infer_instance

/-- A raw that is lost is not extracted. -/
theorem Lost.not_extracted {s : Shared} (h : Lost k s) : ∃ r ∈ s.db.raws, r.key = k ∧
    r.createdAt ≤ Wikis.maxLastRebuiltAt s.db k ∧ ¬ Extracted k s r :=
  let ⟨r, hr, hk, hle, hx⟩ := h
  ⟨r, hr, hk, hle, fun ⟨_, hm, hmem⟩ => hx _ hm rfl hmem⟩

/-- A fresh system has nothing to be covered. -/
theorem fresh_covered (M : Prop) (u : String) : Covered M (.personal u) (Sys.fresh u 1).shared :=
  ⟨fun _ h => absurd h List.not_mem_nil, by simp [Sys.fresh, Wikis.maxLastRebuiltAt, Wikis.ofOwner],
    fun _ => ⟨by simp [Sys.fresh], fun _ h => absurd h List.not_mem_nil⟩, fun _ => rfl⟩

theorem appended_raw_listed_or_extracted_first : ∃ s : Sys, s.shared.db.raws.length = 1 ∧
    ∀ r ∈ s.shared.db.raws, r.key = .personal "u" →
      Wikis.maxLastRebuiltAt s.shared.db (.personal "u") < r.createdAt ∨
        Extracted (.personal "u") s.shared r := by
  obtain ⟨s, hs, hraws⟩ : ∃ s, exec (Sys.step Fts.nothing)
      (fun s l => AppendOnly (.personal "u") s l ∧ InTime (.personal "u") s l) (.fresh "u" 1)
      firstRebuild = some s ∧ s.shared.db.raws.length = 1 :=
    Option.map_eq_some_iff.1 (by decide)
  exact ⟨s, hraws, appended_raw_listed_or_extracted (.exec (fun _ _ => of_decide_eq_true)
    (.init ⟨Sys.fresh_boot _ _, fresh_covered _ _⟩) hs)⟩

/-- A run where a raw is stamped before an append lists the raws up to the same
    millisecond, and inserted after. -/
def lateInsertRun : List Step :=
  [⟨1, .rawAppend "u" ⟨"title", "content", "manual", none⟩ "r1"⟩,
    ⟨1, .request "u" (.rawAppend ⟨"title", "content", "manual", none⟩)⟩] ++
  ([.call 0 "r2" true, .worker 0 .main .ok, .worker 0 .main .ok, .worker 0 .main .ok,
    .worker 0 .main .ok, .call 0 "" true, .worker 0 .main .ok, .worker 0 .main .ok,
    .worker 0 .main (.affected ⟨[], ["alpha"]⟩), .worker 0 .main .ok, .worker 0 .main .ok,
    .worker 0 .start .ok, .worker 0 (.task 0) .ok, .worker 0 (.task 0) .ok, .worker 0 (.task 0) .ok,
    .worker 0 (.task 0) .ok, .worker 0 (.task 0) (.synth ⟨"page", ["r1"]⟩),
    .worker 0 (.task 0) .ok].map fun e => ⟨0, e⟩)

/-- A raw inserted late is lost. -/
theorem late_insert_lost : ¬ ∀ s, Reach (fun s => Boot s ∧ Covered False (.personal "u") s.shared)
    (Sys.step Fts.nothing) (AppendOnly (.personal "u")) s →
    ∀ r ∈ s.shared.db.raws, r.key = .personal "u" →
      Wikis.maxLastRebuiltAt s.shared.db (.personal "u") < r.createdAt ∨
        Extracted (.personal "u") s.shared r := by
  intro hall
  obtain ⟨s, hs, hlost⟩ : ∃ s, exec (Sys.step Fts.nothing)
      (fun s l => AppendOnly (.personal "u") s l) (.fresh "u" 1) lateInsertRun = some s ∧
      decide (Lost (.personal "u") s.shared) = true :=
    Option.map_eq_some_iff.1 (by decide)
  obtain ⟨r, hr, hk, hle, hx⟩ := (of_decide_eq_true hlost).not_extracted
  have := hall s (.exec (fun _ _ => of_decide_eq_true)
    (.init ⟨Sys.fresh_boot _ _, fresh_covered _ _⟩) hs) r hr hk
  exact this.elim (fun h => absurd hle (not_le.2 h)) hx

/-! ## Runs with manual rebuilds -/

/-- The effect does not insert a raw of `k`. -/
def Effect.insertsNone (k : OwnerKey) : Effect → Bool
  | .insertRaw r => r.key ≠ k
  | _ => true

/-- The effect does not delete the account of `k`. -/
def Effect.keepsAccount (k : OwnerKey) : Effect → Bool
  | .deleteUser u => .personal u ≠ k
  | _ => true

/-- The effect starts a manual rebuild of `k`, no append being recorded as
    missed. -/
def Effect.startsManual (k : OwnerKey) (s : Shared) : Effect → Bool
  | .tryStart key (.manual _) =>
    key = k ∧ (s.map.entry k).running = false ∧ (s.map.entry k).appendMissed = false
  | _ => false

/-- A worker panics, or its task is cancelled. -/
def Event.aborts : Event → Bool
  | .panic _ => true
  | .cancel _ => true
  | _ => false

/-- A raw is appended with nothing in between. -/
def Event.appends : Event → Bool
  | .rawAppend _ _ _ => true
  | _ => false

/-- The clock strictly increases, raws of `k` are appended with nothing in
    between, no worker panics, and the account of `k` is not deleted. -/
def Manuals (k : OwnerKey) (s : Sys) (l : Step) : Prop :=
  1 ≤ l.dt ∧ l.event.aborts = false ∧ s.Each l (·.keepsAccount k) ∧
    (l.event.appends ∨ s.Each l (·.insertsNone k))

instance {k : OwnerKey} {s : Sys} {l : Step} : Decidable (Manuals k s l) :=
  inferInstanceAs (Decidable (_ ∧ _ ∧ _ ∧ _))

/-- No raw of `k` is appended while a manual rebuild was dispatched and has not
    read the clock; and no manual rebuild is started directly while a raw of `k`
    was not extracted. -/
def Gated (k : OwnerKey) (s : Sys) (l : Step) : Prop :=
  (s.shared.hist.manualStarting k = true → s.Each l (·.insertsNone k)) ∧
    ((∃ r ∈ s.shared.db.raws, r.key = k ∧ ¬ Extracted k s.shared r) →
      s.Each l fun e => !e.startsManual k s.shared)

instance {k : OwnerKey} {s : Shared} {r : Raw} : Decidable (Extracted k s r) :=
  decidable_of_iff (∃ x ∈ s.hist.extracted, x.1 = k ∧ r ∈ x.2)
    ⟨fun ⟨⟨_, rs⟩, hm, hk, hr⟩ => ⟨rs, hk ▸ hm, hr⟩, fun ⟨_, hm, hr⟩ => ⟨_, hm, rfl, hr⟩⟩

instance {k : OwnerKey} {s : Sys} {l : Step} : Decidable (Gated k s l) :=
  inferInstanceAs (Decidable (_ ∧ _))

/-- In every run with manual rebuilds where these are gated, all raws up to the
    watermark were extracted. -/
theorem watermark_covered
    (h : Reach (fun s => Boot s ∧ Covered True k s.shared) (Sys.step fts)
      (fun s l => Manuals k s l ∧ Gated k s l) s) :
    ∀ r ∈ s.shared.db.raws, r.key = k →
      r.createdAt ≤ Wikis.maxLastRebuiltAt s.shared.db k → Extracted k s.shared r := by
  have hinv := Sound.invariant (P := Kept fts True k) (fun s hs => ?_)
    (fun s l s' hs hP hok hst => ?_) h
  · exact hinv.2.1.covered
  · exact ⟨hs.1, hs.2, fun w hw => by simp [hs.1.workers] at hw⟩
  · obtain ⟨⟨hdt, _, hacc, hatom⟩, hstart, hman⟩ := hok
    rcases Sys.step_cases hst with ⟨es, calls, he, rfl⟩ | ⟨i, w, p, sh, _, hi, hm, rfl⟩
    · have hdoes : ∀ e ∈ es, s.Does l e := fun e hm => ⟨_, he, hm⟩
      -- a step that inserts a raw of `k` is an append with nothing in between
      by_cases hins : s.Each l (·.insertsNone k)
      · refine (hP.tick l.dt s.calls).effects (hs.tick l.dt s.calls) he (fun r hr hk => ?_)
          (fun u hu => of_decide_eq_true (hacc.does (hdoes _ hu))) fun mode hm hmode =>
            ⟨trivial, fun hrun hmiss => ?_⟩
        · exact absurd hk (of_decide_eq_true (hins.does (hdoes _ hr)))
        · by_contra hall
          -- a raw that is not extracted would forbid the manual rebuild
          have hex : ∃ r ∈ s.shared.db.raws, r.key = k ∧ ¬ Extracted k s.shared r := by
            simpa [AllExtracted, Sys.tick, Shared.tick, Extracted] using hall
          have hno := (hman hex).does (hdoes _ hm)
          cases mode with
          | append => exact hmode
          | manual c =>
            have hyes : Effect.startsManual k s.shared (.tryStart k (.manual c)) = true :=
              decide_eq_true ⟨rfl, hrun, hmiss⟩
            rw [hyes] at hno
            cases hno
      · have hev := hatom.resolve_right hins
        rcases Sys.effects_cases he with rfl | ⟨_, _, _, i, id', ok, hcall⟩ |
          ⟨u', a', id', r, hev', hr, _, rfl⟩
        · exact absurd (fun x hx e hm => by cases he.symm.trans hx; cases hm) hins
        · rw [hcall] at hev
          cases hev
        · obtain ⟨_, hkey, hnow⟩ := AppendArgs.toRaw_eq hr
          have hk : r.key = k := by
            by_contra hne
            refine hins fun x hx e hm => ?_
            cases he.symm.trans hx
            rcases List.mem_cons.1 hm with rfl | hm
            · exact decide_eq_true hne
            · rw [List.mem_singleton.1 hm]
              rfl
          have hlt : s.shared.hist.settledUntil k < s.shared.now + l.dt := by
            have := (hP.1.clock trivial).1
            omega
          have happ := (hP.tick l.dt calls).append (hs.tick l.dt calls) hk hnow hlt
            (Bool.eq_false_iff.2 fun h => hins (hstart h))
          rw [← hkey, hk]
          exact happ
    · exact (hP.tick l.dt s.calls).moves (hs.tick l.dt s.calls) hi hm

theorem watermark_covered_first : ∃ s : Sys,
    0 < Wikis.maxLastRebuiltAt s.shared.db (.personal "u") ∧
    ∀ r ∈ s.shared.db.raws, r.key = .personal "u" →
      r.createdAt ≤ Wikis.maxLastRebuiltAt s.shared.db (.personal "u") →
        Extracted (.personal "u") s.shared r := by
  obtain ⟨s, hs, hpos⟩ : ∃ s, exec (Sys.step Fts.nothing)
      (fun s l => Manuals (.personal "u") s l ∧ Gated (.personal "u") s l) (.fresh "u" 1)
      firstRebuild = some s ∧
      decide (0 < Wikis.maxLastRebuiltAt s.shared.db (.personal "u")) = true :=
    Option.map_eq_some_iff.1 (by decide)
  exact ⟨s, of_decide_eq_true hpos, watermark_covered (.exec (fun _ _ => of_decide_eq_true)
    (.init ⟨Sys.fresh_boot _ _, fresh_covered _ _⟩) hs)⟩

/-- A run where a raw is appended after a manual rebuild was dispatched, and
    before it reads the clock. -/
def overtakenRun : List Step :=
  [.request "u" (.wikiRebuild (some "alpha")), .call 0 "" true,
    .rawAppend "u" ⟨"title", "content", "manual", none⟩ "r1", .worker 0 .main .ok,
    .worker 0 .main .ok, .worker 0 .main .ok, .worker 0 .main .ok, .worker 0 .main .ok,
    .worker 0 .main .ok, .worker 0 .main .ok, .worker 0 .start .ok, .worker 0 (.task 0) .ok,
    .worker 0 (.task 0) .ok, .worker 0 (.task 0) .ok, .worker 0 (.task 0) .ok,
    .worker 0 (.task 0) (.synth ⟨"page", ["r1"]⟩), .worker 0 (.task 0) .ok].map fun e => ⟨1, e⟩

/-- A raw overtaken by a manual rebuild is below the watermark without having
    been extracted. -/
theorem overtaken_not_covered : ¬ ∀ s, Reach (fun s => Boot s ∧ Covered True (.personal "u") s.shared)
    (Sys.step Fts.nothing) (Manuals (.personal "u")) s →
    ∀ r ∈ s.shared.db.raws, r.key = .personal "u" →
      r.createdAt ≤ Wikis.maxLastRebuiltAt s.shared.db (.personal "u") →
        Extracted (.personal "u") s.shared r := by
  intro hall
  obtain ⟨s, hs, hlost⟩ : ∃ s, exec (Sys.step Fts.nothing)
      (fun s l => Manuals (.personal "u") s l) (.fresh "u" 1) overtakenRun = some s ∧
      decide (Lost (.personal "u") s.shared) = true :=
    Option.map_eq_some_iff.1 (by decide)
  obtain ⟨r, hr, hk, hle, hx⟩ := (of_decide_eq_true hlost).not_extracted
  exact hx (hall s (.exec (fun _ _ => of_decide_eq_true)
    (.init ⟨Sys.fresh_boot _ _, fresh_covered _ _⟩) hs) r hr hk hle)

end LlmMemory
