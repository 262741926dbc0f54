import LlmMemory.System.Upkeep

/-!
# New raws in the inputs

Each page written was made from an input built before (`MadeFrom`), and each
input built takes the new raws of its iteration, but for those left out
(`InputBuilder.Feeds`).
-/

namespace LlmMemory

open Effects Runs InputBuilder

/-- The page was made from the input. -/
structure MadeFrom (w : Wiki) (i : SynthInput) : Prop where
  key : i.task.key = w.key
  concept : i.task.concept = w.concept
  startedAt : i.task.startedAt = w.lastRebuiltAt
  refs : ∀ id ∈ w.sourceRefs, seen i.inputs id = true

namespace Inputs

/-- The inputs built for `k` take the new raws, and its pages are made from
    them. -/
structure Fed (k : OwnerKey) (s : Shared) : Prop where
  feeds : ∀ i ∈ s.hist.built, i.task.key = k → Feeds i.existingRefs i.task.newRaws i.inputs
  made : ∀ w ∈ s.hist.written, w.key = k → ∃ i ∈ s.hist.built, MadeFrom w i

/-- Others do not build inputs or write pages of `k`. -/
structure Rely (k : OwnerKey) (s s' : Shared) : Prop where
  built : ∀ i : SynthInput, i.task.key = k → (i ∈ s'.hist.built ↔ i ∈ s.hist.built)
  written : ∀ w : Wiki, w.key = k → (w ∈ s'.hist.written ↔ w ∈ s.hist.written)

/-- The worker keeps what is built. -/
structure Guar (k : OwnerKey) (s s' : Shared) : Prop where
  fed : Fed k s → Fed k s'
  built : ∀ i ∈ s.hist.built, i ∈ s'.hist.built

variable {k : OwnerKey} {s s' : Shared}

theorem fed_stable : Stable (Rely k) (Fed k) := fun s s' h hr => by
  refine ⟨fun i hi hk => h.feeds i ((hr.built i hk).1 hi) hk, fun w hw hk => ?_⟩
  obtain ⟨i, hi, hm⟩ := h.made w ((hr.written w hk).1 hw) hk
  exact ⟨i, (hr.built i (hm.key.trans hk)).2 hi, hm⟩

/-- What neither builds nor writes. -/
theorem guar_congr (hb : s'.hist.built = s.hist.built) (hw : s'.hist.written = s.hist.written) :
    Guar k s s' :=
  ⟨fun h => ⟨hb ▸ h.feeds, by rw [hb, hw]; exact h.made⟩, fun _ hi => hb ▸ hi⟩

theorem fed_congr (h : Fed k s) (hb : s'.hist.built = s.hist.built)
    (hw : s'.hist.written = s.hist.written) : Fed k s' :=
  (guar_congr hb hw).fed h

theorem rely_congr (hb : s'.hist.built = s.hist.built) (hw : s'.hist.written = s.hist.written) :
    Rely k s s' :=
  ⟨fun _ _ => by rw [hb], fun _ _ => by rw [hw]⟩

/-- An input is built as it should be. -/
theorem fed_noteBuilt (h : Fed k s) {i : SynthInput}
    (hf : Feeds i.existingRefs i.task.newRaws i.inputs) : Fed k (s.noteBuilt i) := by
  refine ⟨fun i' hi' hk => ?_, fun w hw hk => ?_⟩
  · rcases List.mem_append.1 hi' with hi' | hi'
    · exact h.feeds i' hi' hk
    · exact List.mem_singleton.1 hi' ▸ hf
  · obtain ⟨i', hi', hm⟩ := h.made w hw hk
    exact ⟨i', List.mem_append_left _ hi', hm⟩

/-- A page is written of an input that was built. -/
theorem fed_upsertWiki (h : Fed k s) {i : SynthInput} (hi : i ∈ s.hist.built)
    {content : String} {refs : List String} (hrefs : ∀ id ∈ refs, ∃ r ∈ i.inputs, r.id = id) :
    Fed k (s.upsertWiki i.task.key i.task.concept content refs i.task.startedAt) := by
  refine ⟨h.feeds, fun w hw hk => ?_⟩
  rcases List.mem_append.1 hw with hw | hw
  · exact h.made w hw hk
  · obtain rfl := List.mem_singleton.1 hw
    exact ⟨i, hi, rfl, rfl, rfl, fun id hid => seen_iff.2 (hrefs id hid)⟩

variable {fts : Fts}

/-- The input that a synthesis builds, for the page it read. -/
abbrev input (t : SynthTask) (w : Option Wiki) (inputs : List Raw) : SynthInput :=
  ⟨t, (w.map (·.sourceRefs)).getD [], inputs⟩

/-- The synthesis of a page of `k`. -/
def taskOutline (fts : Fts) (t : SynthTask) : TaskOutline fts
    (fun s s' => Rely t.key s s' ∨ (Fed t.key s ∧ Guar t.key s s')) (Guar t.key) t where
  busy := Fed t.key
  got _ _ := True
  mine _ _ := True
  noted w inputs s := input t w inputs ∈ s.hist.built
  guar_refl _ := ⟨id, fun _ => id⟩
  busy_stable := fun s s' h hr => hr.elim (fed_stable s s' h) fun hr => hr.2.fed h
  got_stable _ _ _ _ _ := trivial
  mine_stable _ _ _ _ _ := trivial
  noted_stable _ _ := fun _ _ h hr => hr.elim (fun hr => (hr.built _ rfl).2 h) fun hr => hr.2.built _ h
  get _ _ := trivial
  refs _ _ _ _ _ _ _ _ := trivial
  new _ _ _ _ := trivial
  hits _ _ _ _ _ := trivial
  built _ _ _ h _ _ hf := by
    refine ⟨⟨fun h => fed_noteBuilt h hf, fun i hi => List.mem_append_left _ hi⟩,
      fed_noteBuilt h hf, ?_⟩
    exact List.mem_append_right _ (List.mem_singleton_self _)
  prompt _ _ _ h hn := ⟨guar_congr rfl rfl, fed_congr h rfl rfl, hn⟩
  upsert s w inputs _ _ _ hn hrefs :=
    ⟨fun h => fed_upsertWiki (i := input t w inputs) h hn hrefs, fun _ => id⟩

/-- The outline of a session with what is fed. -/
def outline (fts : Fts) (k : OwnerKey) : Outline fts (Rely k) (Guar k) k where
  start _ := Fed k
  started _ _ := Fed k
  marked _ _ _ := Fed k
  listed _ _ _ := Fed k
  known _ _ _ _ := Fed k
  extracted _ _ _ _ := Fed k
  planned _ _ _ := Fed k
  finish := Fed k
  guar_refl _ := ⟨id, fun _ => id⟩
  start_stable _ := fed_stable
  started_stable _ _ := fed_stable
  marked_stable _ _ _ := fed_stable
  listed_stable _ _ _ := fed_stable
  known_stable _ _ _ _ := fed_stable
  extracted_stable _ _ _ _ := fed_stable
  planned_stable _ _ _ := fed_stable
  finish_stable := fed_stable
  startSession _ _ h := ⟨guar_congr rfl rfl, fed_congr h rfl rfl⟩
  watermark _ _ _ h := h
  listSince _ _ _ _ h := by
    dsimp only
    split
    · exact ⟨guar_congr rfl rfl, h⟩
    · exact ⟨guar_congr rfl rfl, fed_congr h rfl rfl⟩
  listConcepts _ _ _ _ h := h
  drained _ _ _ h := h
  prompt _ _ _ _ _ h := ⟨guar_congr rfl rfl, fed_congr h rfl rfl⟩
  extract _ _ _ _ _ _ h := ⟨guar_congr rfl rfl, fed_congr h rfl rfl⟩
  count _ _ _ _ _ h := h
  existing _ _ _ _ _ h _ := h
  create _ _ _ _ _ h _ _ := h
  rejected _ _ _ _ _ h := h
  all _ _ _ _ h := h
  nothing _ _ _ _ h := h
  tasks t rs cs s h := by
    refine ⟨Fed k, Guar k, h, ⟨fed_stable, fun s s' h hT => ⟨hT.fed h, hT⟩, fun task ht s hs => ?_⟩,
      fun s h => h⟩
    obtain ⟨c, _, rfl⟩ := List.mem_map.1 ht
    exact (taskOutline fts ⟨k, c, rs, t⟩).taskSafe hs
  again _ h := h

/-- What a session keeps up of what is fed. -/
def upkeep (fts : Fts) (k : OwnerKey) : Upkeep fts k where
  inv := Fed k
  rely := Rely k
  guar := Guar k
  outline := outline fts k
  start _ _ h := h
  finish _ h := h
  stable := fed_stable
  keeps _ _ h := h.fed
  slots _ _ _ _ := rely_congr rfl rfl
  tick _ _ := rely_congr rfl rfl
  aside _ _ h := ⟨h.built, h.written⟩

/-- In every state reached, what was built and written is as it should be. -/
theorem fed_reach {init : Sys → Prop} {ok : Sys → Step → Prop} {s : Sys}
    (h₀ : ∀ s, init s → Boot s ∧ Fed k s.shared) (h : Reach init (Sys.step fts) ok s) :
    Fed k s.shared :=
  (upkeep fts k).reach h₀ (fun _ _ _ e _ _ _ hne => by
    cases e with
    | insertRaw r => exact rely_congr rfl rfl
    | tryStart key mode => exact absurd rfl (hne key mode)
    | upsertSchema key content now => exact rely_congr rfl rfl
    | deleteUser u => exact rely_congr rfl rfl) h

end Inputs

/-- A state where a page refers to as many raws as an input may take. -/
def crowded : Sys where
  shared := {
    now := 1
    db := {
      users := [⟨"u", "google", "subject", none, 1⟩]
      sharedMemories := []
      raws := (List.range INPUT_LIMIT).map fun n =>
        ⟨crowdedRef n, .personal, "u", "title", "content", "manual", none, some "u", 1⟩
      wikis := [⟨.personal, "u", "alpha", "page", (List.range INPUT_LIMIT).map crowdedRef, 1⟩]
      schemas := []
      tokens := [] } }
where
  crowdedRef (n : ℕ) : String := String.singleton (Char.ofNat (0x100 + n))

/-- The crowded system is one that starts. -/
theorem crowded_boot : Boot crowded := ⟨rfl, rfl, rfl, rfl, rfl⟩

/-- A run where a raw is appended, and the page is made anew. -/
def crowdedRun : List Step :=
  ([.rawAppend "u" ⟨"title", "content", "manual", none⟩ "r"] ++
    .replicate 6 (.worker 0 .main .ok) ++
    [.worker 0 .main (.affected ⟨["alpha"], []⟩), .worker 0 .main .ok, .worker 0 .main .ok,
      .worker 0 .start .ok] ++
    .replicate 53 (.worker 0 (.task 0) .ok) ++
    [.worker 0 (.task 0) (.synth ⟨"page", []⟩), .worker 0 (.task 0) .ok,
      .worker 0 (.task 0) .ok] ++
    .replicate 6 (.worker 0 .main .ok) : List Event).map fun e => ⟨1, e⟩

end LlmMemory
