import Mathlib.Data.Finset.Card
import LlmMemory.System.Contract

/-!
# The number and the names of concepts

An owner has at most `CONCEPT_LIMIT_PER_OWNER` pages, all of valid concept
names (`Budget`). An iteration decides on the concepts it synthesizes from a
count of the pages, and then upserts them side by side: what it keeps is that
the pages, with the concepts it is still to create, do not exceed the limit
(`Room`).
-/

namespace LlmMemory

open Effects Runs

namespace Budget

/-- The concepts of the pages of an owner. -/
def names (k : OwnerKey) (s : Shared) : List String := (Wikis.ofOwner s.db k).map (·.concept)

/-- The concepts of `affected` without a page. -/
def missing (k : OwnerKey) (affected : List String) (s : Shared) : ℕ :=
  (affected.toFinset \ (names k s).toFinset).card

/-- The concept of a manual rebuild is valid. -/
def ModeValid (mode : RebuildMode) : Prop :=
  ∀ c, mode = .manual (some c) → Concept.isValid c

/-- The pending rebuild is of a valid concept. -/
def PendingValid (k : OwnerKey) (s : Shared) : Prop :=
  ∀ m, (s.map.entry k).manualPending = some m → ModeValid m

end Budget

open Budget

/-- The pages of an owner are within the limit, with valid names, and so would
    be those of the pending rebuild. -/
structure Budget (k : OwnerKey) (s : Shared) : Prop where
  limit : Wikis.countConcepts s.db k ≤ CONCEPT_LIMIT_PER_OWNER
  valid : ∀ c ∈ names k s, Concept.isValid c
  pending : PendingValid k s

/-- There is room for the concepts `affected`, which are valid. -/
structure Room (k : OwnerKey) (affected : List String) (s : Shared) : Prop where
  budget : Budget k s
  valid : ∀ c ∈ affected, Concept.isValid c
  room : Wikis.countConcepts s.db k + missing k affected s ≤ CONCEPT_LIMIT_PER_OWNER

namespace Budget

variable {k : OwnerKey} {s s' : Shared} {affected : List String}

/-- The number of pages is that of their names. -/
theorem countConcepts_eq : Wikis.countConcepts s.db k = (names k s).length := by
  simp [Wikis.countConcepts, names]

theorem names_congr (h : Wikis.ofOwner s'.db k = Wikis.ofOwner s.db k) :
    names k s' = names k s := by
  rw [names, names, h]

/-- The budget is kept where the pages are. -/
theorem congr (h : Budget k s) (hdb : Wikis.ofOwner s'.db k = Wikis.ofOwner s.db k)
    (hp : PendingValid k s → PendingValid k s') : Budget k s' :=
  ⟨by rw [countConcepts_eq, names_congr hdb, ← countConcepts_eq]; exact h.limit,
    fun c hc => h.valid c (names_congr hdb ▸ hc), hp h.pending⟩

theorem room_congr (h : Room k affected s) (hdb : Wikis.ofOwner s'.db k = Wikis.ofOwner s.db k)
    (hp : PendingValid k s → PendingValid k s') : Room k affected s' :=
  ⟨h.budget.congr hdb hp, h.valid, by
    rw [countConcepts_eq, missing, names_congr hdb, ← missing, ← countConcepts_eq]
    exact h.room⟩

/-- There is room for concepts, the missing ones of which are few enough. -/
theorem room_of_le (h : Budget k s) (new : List String)
    (hv : ∀ c ∈ affected, Concept.isValid c) (hnew : ∀ c ∈ affected, c ∈ names k s ∨ c ∈ new)
    (hle : Wikis.countConcepts s.db k + new.length ≤ CONCEPT_LIMIT_PER_OWNER) :
    Room k affected s := by
  refine ⟨h, hv, ?_⟩
  have hcard : missing k affected s ≤ new.length := by
    refine (Finset.card_le_card fun c hc => ?_).trans (List.toFinset_card_le new)
    rw [Finset.mem_sdiff, List.mem_toFinset, List.mem_toFinset] at hc
    exact List.mem_toFinset.2 ((hnew c hc.1).resolve_left hc.2)
  omega

/-- There is room for concepts that have a page. -/
theorem room_of_names (h : Budget k s) (hv : ∀ c ∈ affected, Concept.isValid c)
    (hn : ∀ c ∈ affected, c ∈ names k s) : Room k affected s := by
  refine h.room_of_le [] hv (fun c hc => .inl (hn c hc)) ?_
  rw [List.length_nil]
  exact (Int.add_zero _).trans_le h.limit

/-- The upsert of the page of one of the concepts leaves room for all. -/
theorem room_upsert (h : Room k affected s) {c content : String} {refs : List String} {t : Int}
    (hc : c ∈ affected) : Room k affected (s.upsertWiki k c content refs t) := by
  have hnames : names k (s.upsertWiki k c content refs t) =
      if c ∈ names k s then names k s else names k s ++ [c] := Wikis.concepts_upsert
  by_cases hmem : c ∈ names k s
  · rw [if_pos hmem] at hnames
    refine ⟨⟨?_, fun c' hc' => h.budget.valid c' (hnames ▸ hc'), h.budget.pending⟩, h.valid, ?_⟩
    · rw [countConcepts_eq, hnames, ← countConcepts_eq]
      exact h.budget.limit
    · rw [countConcepts_eq, missing, hnames, ← missing, ← countConcepts_eq]
      exact h.room
  · -- One more page, and one missing concept less.
    rw [if_neg hmem] at hnames
    have hlt : missing k affected (s.upsertWiki k c content refs t) < missing k affected s := by
      refine Finset.card_lt_card ⟨fun c' hc' => ?_, fun hsub => ?_⟩
      · simp only [hnames, Finset.mem_sdiff, List.mem_toFinset, List.mem_append] at hc' ⊢
        exact ⟨hc'.1, fun hn => hc'.2 (.inl hn)⟩
      · have hin : c ∈ affected.toFinset \ (names k s).toFinset := by
          simp [hc, hmem]
        simpa [hnames] using hsub hin
    have hlen : Wikis.countConcepts (s.upsertWiki k c content refs t).db k =
        Wikis.countConcepts s.db k + 1 := by
      rw [countConcepts_eq, countConcepts_eq, hnames]
      simp
    have hroom := h.room
    refine ⟨⟨by omega, fun c' hc' => ?_, h.budget.pending⟩, h.valid, by omega⟩
    rw [hnames] at hc'
    rcases List.mem_append.1 hc' with hc' | hc'
    · exact h.budget.valid c' hc'
    · exact List.mem_singleton.1 hc' ▸ h.valid c hc

/-! ## Which concepts are synthesized -/

/-- The concepts listed are the names. -/
theorem mem_listConcepts : ∀ {c}, c ∈ Wikis.listConcepts s.db k ↔ c ∈ names k s := by
  simp [Wikis.mem_listConcepts, names]

/-- There is room for the concepts affected by an extraction. -/
theorem room_affectedOf (h : Budget k s) (a : AffectedConcepts) :
    Room k (affectedOf (Wikis.listConcepts s.db k) a (Wikis.countConcepts s.db k)) s := by
  have hlimit := h.limit
  have hmem : ∀ c ∈ affectedOf (Wikis.listConcepts s.db k) a (Wikis.countConcepts s.db k),
      (Concept.isValid c ∧ c ∈ names k s) ∨ (Concept.isValid c ∧
        c ∈ (a.newConcepts.filter Concept.isValid).take
          (max (CONCEPT_LIMIT_PER_OWNER - Wikis.countConcepts s.db k) 0).toNat) := fun c hc => by
    rw [affectedOf, (List.perm_insertionSort _ _).mem_iff, List.mem_dedup, List.mem_append] at hc
    refine hc.imp (fun hc => ?_) fun hc => ⟨?_, hc⟩
    · simp only [List.mem_filter, decide_eq_true_eq] at hc
      exact ⟨hc.1.2, mem_listConcepts.1 hc.2⟩
    · exact (List.mem_filter.1 (List.mem_of_mem_take hc)).2
  refine h.room_of_le _ (fun c hc => (hmem c hc).elim And.left And.left)
    (fun c hc => (hmem c hc).imp And.right And.right) ?_
  have := List.length_take_le (max (CONCEPT_LIMIT_PER_OWNER - Wikis.countConcepts s.db k) 0).toNat
    (a.newConcepts.filter Concept.isValid)
  omega

/-! ## The contract -/

/-- Others leave the pages of `k`, and only record valid rebuilds. -/
def rely (k : OwnerKey) (s s' : Shared) : Prop :=
  Wikis.ofOwner s'.db k = Wikis.ofOwner s.db k ∧ (PendingValid k s → PendingValid k s')

/-- The worker keeps the budget. -/
def guar (k : OwnerKey) (s s' : Shared) : Prop := Budget k s → Budget k s'

variable {fts : Fts}

theorem budget_stable : Stable (rely k) (Budget k) := fun _ _ h hr => h.congr hr.1 hr.2

theorem room_stable : Stable (rely k) (Room k affected) := fun _ _ h hr => room_congr h hr.1 hr.2

/-- The synthesis of one of the concepts there is room for. -/
def taskOutline (fts : Fts) (k : OwnerKey) (affected : List String) (c : String) (rs : List Raw)
    (t : Int) (hc : c ∈ affected) : TaskOutline fts
      (fun s s' => rely k s s' ∨ (Room k affected s ∧ (Room k affected s → Room k affected s')))
      (fun s s' => Room k affected s → Room k affected s') ⟨k, c, rs, t⟩ where
  busy := Room k affected
  got _ _ := True
  mine _ _ := True
  noted _ _ _ := True
  guar_refl _ := id
  busy_stable := fun s s' h hr => hr.elim (room_stable s s' h) fun hr => hr.2 h
  got_stable _ _ _ _ _ := trivial
  mine_stable _ _ _ _ _ := trivial
  noted_stable _ _ _ _ _ _ := trivial
  get _ _ := trivial
  refs _ _ _ _ _ _ _ _ := trivial
  new _ _ _ _ := trivial
  hits _ _ _ _ _ := trivial
  built _ _ _ h _ _ _ := ⟨fun h => room_congr h rfl id, room_congr h rfl id, trivial⟩
  prompt _ _ _ h _ := ⟨fun h => room_congr h rfl id, room_congr h rfl id, trivial⟩
  upsert _ _ _ _ _ _ _ _ h := room_upsert h hc

theorem mode_stable {mode : RebuildMode} :
    Stable (rely k) fun s => Budget k s ∧ ModeValid mode :=
  budget_stable.and fun _ _ h _ => h

/-- The concepts listed stay those there are. -/
theorem listed_stable {cs : List String} :
    Stable (rely k) fun s => cs = Wikis.listConcepts s.db k := fun s s' h hr => by
  have hlist : Wikis.listConcepts s'.db k = Wikis.listConcepts s.db k := by
    rw [Wikis.listConcepts, Wikis.listConcepts, hr.1]
  exact h.trans hlist.symm

/-- The outline of a session with the budget of its owner. -/
def outline (fts : Fts) (k : OwnerKey) : Outline fts (rely k) (guar k) k where
  start mode s := Budget k s ∧ ModeValid mode
  started mode _ s := Budget k s ∧ ModeValid mode
  marked mode _ _ s := Budget k s ∧ ModeValid mode
  listed mode _ _ s := Budget k s ∧ ModeValid mode
  known mode _ _ cs s := (Budget k s ∧ ModeValid mode) ∧ cs = Wikis.listConcepts s.db k
  extracted _ _ cs _ s := Budget k s ∧ cs = Wikis.listConcepts s.db k
  planned _ _ cs s := Room k cs s
  finish := Budget k
  guar_refl _ := id
  start_stable _ := mode_stable
  started_stable _ _ := mode_stable
  marked_stable _ _ _ := mode_stable
  listed_stable _ _ _ := mode_stable
  known_stable _ _ _ _ := mode_stable.and listed_stable
  extracted_stable _ _ _ _ := budget_stable.and listed_stable
  planned_stable _ _ _ := room_stable
  finish_stable := budget_stable
  startSession _ _ h := ⟨fun h => h.congr rfl id, h.1.congr rfl id, h.2⟩
  watermark _ _ _ h := h
  listSince _ _ _ _ h := by
    dsimp only
    split
    · exact ⟨id, h⟩
    · exact ⟨fun h => h.congr rfl id, h.1.congr rfl id, h.2⟩
  listConcepts _ _ _ _ h := ⟨h, rfl⟩
  drained _ _ _ h := h.1.1
  prompt _ _ _ _ _ h := ⟨fun h => h.congr rfl id, ⟨h.1.1.congr rfl id, h.1.2⟩, h.2⟩
  extract _ _ _ _ _ _ h := ⟨fun h => h.congr rfl id, h.1.1.congr rfl id, h.2⟩
  count _ _ _ a _ h := by
    obtain ⟨h, rfl⟩ := h
    exact h.room_affectedOf a
  existing _ _ _ c s h hc := by
    obtain ⟨h, rfl⟩ := h
    refine h.1.room_of_names (fun c' hc' => ?_) fun c' hc' => ?_
    · exact List.mem_singleton.1 hc' ▸ h.2 c rfl
    · exact List.mem_singleton.1 hc' ▸ mem_listConcepts.1 hc
  create _ _ _ c s h _ hlt := by
    obtain ⟨h, rfl⟩ := h
    refine h.1.room_of_le [c] (fun c' hc' => ?_) (fun c' hc' => .inr hc') ?_
    · exact List.mem_singleton.1 hc' ▸ h.2 c rfl
    · simp only [List.length_singleton]
      omega
  rejected _ _ _ _ _ h := h.1.1
  all _ _ cs s h := by
    obtain ⟨h, rfl⟩ := h
    exact h.1.room_of_names (fun c hc => h.1.valid c (mem_listConcepts.1 hc))
      fun c hc => mem_listConcepts.1 hc
  nothing _ _ _ _ h := h.budget
  tasks t rs cs s h := by
    refine ⟨Room k cs, fun s s' => Room k cs s → Room k cs s', h, ⟨room_stable,
      fun s s' h hT => ⟨hT h, fun _ => (hT h).budget⟩, fun task ht s hs => ?_⟩, fun s h => h.budget⟩
    obtain ⟨c, hc, rfl⟩ := List.mem_map.1 ht
    exact (taskOutline fts k cs c rs t hc).taskSafe hs
  again _ h := ⟨h, nofun⟩

/-- What a session is followed by is of a valid concept. -/
theorem proceed (h : Budget k s) {o : Option RebuildMode} (hm : s.markIdleOrContinue k = (o, s')) :
    Budget k s' ∧ ∀ mode, o = some mode → ModeValid mode := by
  cases o with
  | none =>
    obtain ⟨_, hp, rfl⟩ := Shared.markIdleOrContinue_none hm
    refine ⟨h.congr rfl fun _ m hm => ?_, nofun⟩
    simp [hp] at hm
  | some mode =>
    obtain ⟨e', rfl, ⟨_, rfl, rfl⟩ | ⟨_, hp, rfl⟩⟩ := Shared.markIdleOrContinue_some hm
    · refine ⟨h.congr rfl fun hv m hm => hv m ?_, fun _ he => by cases he; exact nofun⟩
      simpa [Shared.noteDispatched] using hm
    · refine ⟨h.congr rfl fun _ m hm => ?_, fun _ he => by cases he; exact h.pending _ hp⟩
      simp [Shared.noteDispatched] at hm

/-- The contract of a worker with the budget of its owner. -/
def contract (fts : Fts) (k : OwnerKey) : Contract fts k :=
  (outline fts k).contract (fun _ _ => ⟨rfl, id⟩) fun h hm =>
    ⟨(proceed h hm).1, (proceed h hm).2 _ rfl⟩

/-! ## All runs -/

/-- What happens aside keeps the names. -/
theorem rely_of_aside (h : Aside k s s') : rely k s s' :=
  ⟨h.wikis, fun hp m hm => hp m (h.entry ▸ hm)⟩

/-- A request for a rebuild of a valid concept keeps the budget. -/
theorem rely_tryStart {key : OwnerKey} {mode : RebuildMode} (hv : ModeValid mode)
    {o : Option RebuildMode} (ht : s.tryStart key mode = (o, s')) : rely k s s' := by
  by_cases hk : k = key
  · subst hk
    have hmerge : PendingValid k s →
        ModeValid (mergePending (s.map.entry k).manualPending mode) := fun hp => by
      rcases RebuildState.mergePending_cases (s.map.entry k).manualPending mode with ⟨_, h⟩ | ⟨_, h⟩
      · rw [h]
        exact nofun
      · rw [h]
        exact hv
    cases o with
    | none =>
      obtain ⟨e', rfl, _, ⟨_, rfl⟩ | ⟨_, rfl⟩⟩ := Shared.tryStart_none ht
      · exact ⟨rfl, fun hp m hm => hp m (by simpa using hm)⟩
      · refine ⟨rfl, fun hp m hm => ?_⟩
        obtain rfl : mergePending _ mode = m := by simpa using hm
        exact hmerge hp
    | some m' =>
      obtain ⟨e', rfl, _, ⟨_, _, _, rfl⟩ | ⟨_, _, rfl⟩⟩ := Shared.tryStart_some ht
      · refine ⟨rfl, fun hp m hm => ?_⟩
        obtain rfl : mergePending _ mode = m := by simpa [Shared.noteDispatched] using hm
        exact hmerge hp
      · exact ⟨rfl, fun hp m hm => hp m (by simpa [Shared.noteDispatched] using hm)⟩
  · cases o with
    | none =>
      obtain ⟨e', rfl, _⟩ := Shared.tryStart_none ht
      exact ⟨rfl, fun hp m hm => hp m (by simpa [StateMap.entry_update_of_ne hk] using hm)⟩
    | some m' =>
      obtain ⟨e', rfl, _⟩ := Shared.tryStart_some ht
      exact ⟨rfl, fun hp m hm => hp m (by
        simpa [Shared.noteDispatched, StateMap.entry_update_of_ne hk] using hm)⟩

/-- The effects of requests other than the deletion of the account keep the
    budget. -/
theorem rely_effect {s : Sys} {e : Effect} (ha : s.Allows e)
    (hdel : ∀ u, e = .deleteUser u → .personal u ≠ k) : rely k s.shared (s.effect e).shared := by
  cases e with
  | insertRaw r => exact ⟨rfl, id⟩
  | upsertSchema key content now => exact ⟨rfl, id⟩
  | tryStart key mode =>
    rw [Sys.effect_tryStart_shared]
    exact rely_tryStart ha.2 rfl
  | deleteUser u =>
    refine ⟨?_, id⟩
    simp only [Sys.effect, Users.deleteCascade, Wikis.ofOwner, List.filter_filter]
    refine List.filter_congr fun w _ => ?_
    by_cases hw : w.key = k
    · simp [hw, Ne.symm (hdel u rfl)]
    · simp [hw]

/-- The moves of the worker of `k` keep the budget. -/
theorem moves (h : Budget k s) {w : Worker} {p : Phase} {e : Event} (hk : w.key = k)
    (hsafe : (contract fts k).PhaseSafe w.phase s) (hm : w.Moves fts e s p s') : Budget k s' := by
  subst hk
  cases hm with
  | spawn _ => exact h.congr rfl id
  | thread hp _ ht =>
    rw [hp] at hsafe
    exact (hsafe.guar ht).elim (fun he => he ▸ h) fun hg => hg h
  | again _ => exact h
  | proceed _ hmark => exact (h.proceed hmark).1
  | idle _ hmark => exact (h.proceed hmark).1
  | err _ => exact h
  | abort _ _ _ => exact h
  | observe _ => exact h.congr rfl id
  | @release r _ =>
    have hdb : (s.release w.key r).db = s.db := by cases r <;> rfl
    refine h.congr (by rw [hdb]) fun hp m hm => ?_
    cases r with
    | ok => exact hp m hm
    | err =>
      rw [Shared.release, StateMap.releaseRunningPreservePending_entry] at hm
      exact hp m hm
    | panicked => rw [Shared.release, StateMap.forceIdle_entry] at hm; cases hm
    | joinError => rw [Shared.release, StateMap.forceIdle_entry] at hm; cases hm

/-- What every run keeps. -/
def Kept (fts : Fts) (k : OwnerKey) (s : Sys) : Prop :=
  Budget k s.shared ∧ WorkersSafe (contract fts k) s

end Budget

/-- In every run without a deletion of the account, from a state where the
    pages of the user are within the limit, with valid names, so they are in
    every state reached. -/
theorem concepts_within_limit {fts : Fts} {u : String} {s : Sys}
    (h : Reach (fun s => Boot s ∧
        Wikis.countConcepts s.shared.db (.personal u) ≤ CONCEPT_LIMIT_PER_OWNER ∧
        ∀ w ∈ Wikis.ofOwner s.shared.db (.personal u), Concept.isValid w.concept)
      (Sys.step fts) (fun s l => ¬ s.Does l (.deleteUser u)) s) :
    Wikis.countConcepts s.shared.db (.personal u) ≤ CONCEPT_LIMIT_PER_OWNER ∧
      ∀ w ∈ Wikis.ofOwner s.shared.db (.personal u), Concept.isValid w.concept := by
  have hinv := Sound.invariant (P := Budget.Kept fts (.personal u)) (fun s hs => ?_)
    (fun s l s' hs hP hok hst => hs.keep (P := Budget.Kept fts (.personal u)) hst (fun calls => ?_)
      (fun s₁ e he hs₁ hP ha => ?_) fun s₁ i w p sh hs₁ hP hi hm => ?_) h
  · refine ⟨hinv.2.1.limit, fun w hw => hinv.2.1.valid _ (List.mem_map_of_mem hw)⟩
  · refine ⟨hs.1, ⟨hs.2.1, fun c hc => ?_, fun m hm => ?_⟩, fun w hw => ?_⟩
    · obtain ⟨w, hw, rfl⟩ := List.mem_map.1 hc
      exact hs.2.2 w hw
    · simp [StateMap.entry, hs.1.map] at hm
    · simp [hs.1.workers] at hw
  · exact ⟨hP.1.congr rfl id, hP.2.env rfl ⟨rfl, id⟩⟩
  -- an effect of a request: no page is written, and a rebuild is only started for a valid concept
  · have hr := Budget.rely_effect (k := .personal u) ha fun u' hu hk => hok (by
      cases hk
      exact hu ▸ he)
    refine ⟨hP.1.congr hr.1 hr.2, hP.2.effect hs₁.slots (fun _ => hr) fun mode m sh he ht => ?_⟩
    subst he
    have hr' := Budget.rely_tryStart (k := .personal u) ha.2 ht
    refine ⟨hP.1.congr hr'.1 hr'.2, ?_⟩
    obtain ⟨_, _, _, ⟨_, _, rfl, _⟩ | ⟨_, rfl, _⟩⟩ := Shared.tryStart_some ht
    · exact nofun
    · exact ha.2
  · have haside : w.key ≠ .personal u → Budget.rely (.personal u) s₁.shared sh := fun hk =>
      Budget.rely_of_aside (((hs₁.own w.key).ownMove (List.mem_of_getElem? hi) rfl hm).aside
        (Ne.symm hk))
    refine ⟨?_, hP.2.moves hs₁.slots hi hm haside⟩
    by_cases hk : w.key = .personal u
    · exact hP.1.moves hk (hP.2 w (List.mem_of_getElem? hi) hk) hm
    · exact hP.1.congr (haside hk).1 (haside hk).2

theorem concepts_within_limit_first : ∃ s : Sys,
    (Wikis.ofOwner s.shared.db (.personal "u")).map (·.concept) = ["alpha"] ∧
    Wikis.countConcepts s.shared.db (.personal "u") ≤ CONCEPT_LIMIT_PER_OWNER ∧
    ∀ w ∈ Wikis.ofOwner s.shared.db (.personal "u"), Concept.isValid w.concept := by
  obtain ⟨s, hs, hnames⟩ : ∃ s, exec (Sys.step Fts.nothing) (fun s l => ¬ s.Does l (.deleteUser "u"))
      (.fresh "u" 1) firstRebuild = some s ∧
      (Wikis.ofOwner s.shared.db (.personal "u")).map (·.concept) = ["alpha"] :=
    Option.map_eq_some_iff.1 (by decide)
  exact ⟨s, hnames, concepts_within_limit (.exec (fun _ _ => of_decide_eq_true)
    (.init ⟨Sys.fresh_boot _ _, by decide, by decide⟩) hs)⟩

end LlmMemory
