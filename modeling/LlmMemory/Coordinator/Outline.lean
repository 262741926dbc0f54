import LlmMemory.Coordinator.Inputs

/-!
# Proof outlines of a worker

A proof outline annotates the programs of a worker with what holds of the
shared state between its operations: `TaskOutline` the synthesis of a page, and
`Outline` the iterations of a session. What is annotated must not be affected
by what others do (the fields `…_stable`), and each operation must lead from
one annotation to the next, within the guarantee.

`TaskOutline.triple` and `Outline.triple` then give the triples of the programs.
-/

namespace LlmMemory

open Effects

/-- The operations of a rebuild, with a rely and a guarantee. -/
def rebuildInterp (fts : Fts) (rely guar : Shared → Shared → Prop) : Interp RebuildSig Shared where
  perf o s r s' := ∃ input, perform fts input o s = some (r, s')
  rely := rely
  guar := guar

/-- The operation only reads, answering `val` of the state unless it fails. -/
def Op.Reads (fts : Fts) (o : Op) {α : Type} (result : o.Ans → Except CoordinatorError α)
    (val : Shared → α) : Prop :=
  ∀ input s r s', perform fts input o s = some (r, s') →
    s' = s ∧ (result r = .ok (val s) ∨ ∃ e, result r = .error e)

section Reads

variable {fts : Fts} {key : OwnerKey}

/-- An answer from outside is what was read, or an error. -/
theorem answer_reads {α : Type} {val : α} {input : Input} {s s' : Shared}
    {r : Except CoordinatorError α} (h : (answer val input).map (·, s) = some (r, s')) :
    s' = s ∧ (r = .ok val ∨ ∃ e, r = .error e) :=
  (answer_state h).imp id (.imp id fun h => ⟨_, h⟩)

theorem Op.reads_maxLastRebuiltAt :
    (Op.maxLastRebuiltAt key).Reads fts id fun s => Wikis.maxLastRebuiltAt s.db key :=
  fun _ _ _ _ h => answer_reads h

theorem Op.reads_listConcepts :
    (Op.listConcepts key).Reads fts id fun s => Wikis.listConcepts s.db key :=
  fun _ _ _ _ h => answer_reads h

theorem Op.reads_countConcepts :
    (Op.countConcepts key).Reads fts id fun s => Wikis.countConcepts s.db key :=
  fun _ _ _ _ h => answer_reads h

theorem Op.reads_wikiGet {concept : String} :
    (Op.wikiGet key concept).Reads fts id fun s => Wikis.get s.db key concept :=
  fun _ _ _ _ h => answer_reads h

theorem Op.reads_rawsGet {ref : String} :
    (Op.rawsGet ref).Reads fts id fun s => Raws.get s.db ref :=
  fun _ _ _ _ h => answer_reads h

theorem Op.reads_searchRaws {q : Search.SearchQuery} :
    (Op.searchRaws q).Reads fts id fun s => Search.raws fts s.db q :=
  fun _ _ _ _ h => answer_reads h

end Reads

variable {fts : Fts} {rely guar : Shared → Shared → Prop}
  {F : Forks (rebuildInterp fts rely guar)} {α : Type} {A : Shared → Prop}

/-- What others do does not affect `A`. -/
def Stable (rely : Shared → Shared → Prop) (A : Shared → Prop) : Prop :=
  ∀ s s', A s → rely s s' → A s'

/-- Two assertions that are stable. -/
theorem Stable.and {B : Shared → Prop} (hA : Stable rely A) (hB : Stable rely B) :
    Stable rely fun s => A s ∧ B s :=
  fun s s' h hr => ⟨hA s s' h.1 hr, hB s s' h.2 hr⟩

theorem Stable.all {ι : Type} {B : ι → Shared → Prop} {l : List ι} (h : ∀ i, Stable rely (B i)) :
    Stable rely fun s => ∀ i ∈ l, B i s :=
  fun s s' hB hr i hi => h i s s' (hB i hi) hr

/-- A query leads to what holds of its answer in the state it is made in. -/
theorem Triple.query {o : Op} {result : o.Ans → Except CoordinatorError α} {val : Shared → α}
    {B : α → Shared → Prop} (hr : o.Reads fts result val) (hg : ∀ s, guar s s) (hA : Stable rely A)
    (hB : ∀ a, Stable rely (B a)) (hAB : ∀ s, A s → B (val s) s) :
    Triple (rebuildInterp fts rely guar) F A (query o result) (OnOk B fun _ => True) := by
  refine Triple.call hA hB (fun _ _ _ _ => trivial) fun s r s' hs hp => ?_
  obtain ⟨input, hp⟩ := hp
  obtain ⟨rfl, hok | ⟨e, he⟩⟩ := hr input s r s' hp
  · rw [hok]
    exact ⟨hg _, hAB _ hs⟩
  · rw [he]
    exact ⟨hg _, trivial⟩

/-! ## The synthesis of a page -/

/-- The annotations of the synthesis of a page: throughout it (`busy`), of the
    page it read (`got`), of each of its input raws (`mine`), and of its input
    once it is built (`noted`). -/
structure TaskOutline (fts : Fts) (rely guar : Shared → Shared → Prop) (t : SynthTask) where
  busy : Shared → Prop
  got : Option Wiki → Shared → Prop
  mine : Raw → Shared → Prop
  noted : Option Wiki → List Raw → Shared → Prop
  guar_refl : ∀ s, guar s s
  busy_stable : Stable rely busy
  got_stable : ∀ w, Stable rely (got w)
  mine_stable : ∀ r, Stable rely (mine r)
  noted_stable : ∀ w inputs, Stable rely (noted w inputs)
  get : ∀ s, busy s → got (Wikis.get s.db t.key t.concept) s
  refs : ∀ s w id r, busy s → got w s → id ∈ (w.map (·.sourceRefs)).getD [] →
    Raws.get s.db id = some r → mine r s
  new : ∀ s, busy s → ∀ r ∈ t.newRaws, mine r s
  hits : ∀ s limit, busy s → ∀ r ∈ Search.raws fts s.db
    ⟨t.concept, some t.key.scope, some t.key.ownerId, limit⟩, mine r s
  built : ∀ s (w : Option Wiki) inputs, busy s → got w s → (∀ r ∈ inputs, mine r s) →
    InputBuilder.Feeds ((w.map (·.sourceRefs)).getD []) t.newRaws inputs →
    let s' := s.noteBuilt ⟨t, (w.map (·.sourceRefs)).getD [], inputs⟩
    guar s s' ∧ busy s' ∧ noted w inputs s'
  prompt : ∀ s w (inputs : List Raw), busy s → noted w inputs s →
    let s' := s.notePrompt t.key (.synthesize t.concept (w.map (·.content))
      (inputs.map fun r => (r.id, r.title, r.content)))
    guar s s' ∧ busy s' ∧ noted w inputs s'
  upsert : ∀ s w (inputs : List Raw) content refs, busy s → noted w inputs s →
    (∀ id ∈ refs, ∃ r ∈ inputs, r.id = id) →
    guar s (s.upsertWiki t.key t.concept content refs t.startedAt)

namespace TaskOutline

open InputBuilder

variable {t : SynthTask} (O : TaskOutline fts rely guar t)

/-- The annotation while the input is built, `out` having been taken. -/
def Building (w : Option Wiki) (out : List Raw) (s : Shared) : Prop :=
  (O.busy s ∧ O.got w s) ∧ ∀ r ∈ out, O.mine r s

theorem building_stable (w : Option Wiki) (out : List Raw) : Stable rely (O.Building w out) :=
  (O.busy_stable.and (O.got_stable w)).and (Stable.all O.mine_stable)

variable {O}

theorem building_append {w : Option Wiki} {out : List Raw} {r : Raw} {s : Shared}
    (h : O.Building w out s) (hr : O.mine r s) : O.Building w (out ++ [r]) s :=
  ⟨h.1, fun r' hr' => (List.mem_append.1 hr').elim (h.2 r') fun he => by
    rw [List.mem_singleton.1 he]
    exact hr⟩

theorem building_takeUnseen {w : Option Wiki} {rs out : List Raw} {s : Shared}
    (h : O.Building w out s) (hr : ∀ r ∈ rs, O.mine r s) : O.Building w (takeUnseen rs out) s :=
  ⟨h.1, fun r hm => (mem_takeUnseen hm).elim (h.2 r) (hr r)⟩

variable (O)

/-- Loading the references keeps what is known of the input. -/
theorem loadRefs_triple (w : Option Wiki) (refs : List String) (out : List Raw)
    (hrefs : ∀ id ∈ refs, id ∈ (w.map (·.sourceRefs)).getD [])
    (hout : FromRefs ((w.map (·.sourceRefs)).getD []) out) (hl : out.length < INPUT_LIMIT) :
    Triple (rebuildInterp fts rely guar) F (O.Building w out) (loadRefs refs out)
      (OnOk (fun out s => O.Building w out s ∧ FromRefs ((w.map (·.sourceRefs)).getD []) out)
        fun _ => True) := by
  induction refs generalizing out with
  | nil => exact Triple.pure (O.building_stable w out) fun _ h => ⟨h, hout⟩
  | cons ref refs ih =>
    have hrest : ∀ id ∈ refs, _ := fun id h => hrefs id (List.mem_cons_of_mem _ h)
    rw [loadRefs]
    split
    -- the row is there already
    · exact ih out hrest hout hl
    · rename_i hseen
      refine Triple.andThen (fun _ _ _ _ => trivial) (Triple.query (B := fun r s =>
        O.Building w out s ∧ ∀ r' ∈ r, O.mine r' s ∧ r'.id = ref) Op.reads_rawsGet O.guar_refl
        (O.building_stable w out) (fun r => ?_) fun s hs => ⟨hs, fun r' hr' => ⟨?_, ?_⟩⟩) fun r => ?_
      · refine (O.building_stable w out).and fun s s' h hr r' hr' => ?_
        exact ⟨O.mine_stable r' s s' (h r' hr').1 hr, (h r' hr').2⟩
      · exact O.refs s w ref r' hs.1.1 hs.1.2 (hrefs ref List.mem_cons_self) hr'
      · exact (Raws.mem_of_get hr').2
      · cases r with
        -- the row has been deleted since
        | none => exact (ih out hrest hout hl).pre fun _ h => h.1
        | some r =>
          refine Triple.assume (fun s h => (h.2 r rfl).2) fun hid => ?_
          subst hid
          have happ : ∀ s, (O.Building w out s ∧ ∀ r' ∈ some r, O.mine r' s ∧ r'.id = r.id) →
              O.Building w (out ++ [r]) s := fun s h => building_append h.1 (h.2 r rfl).1
          have hout' := hout.append hl (Bool.eq_false_iff.2 hseen) (hrefs r.id List.mem_cons_self)
          refine Triple.pre ?_ happ
          by_cases hlimit : INPUT_LIMIT ≤ (out ++ [r]).length
          · simp only [if_pos hlimit]
            exact Triple.pure (O.building_stable w _) fun _ h => ⟨h, hout'⟩
          · simp only [if_neg hlimit]
            exact ih _ hrest hout' (not_le.1 hlimit)

/-- The input is built as it should be. -/
theorem build_triple (w : Option Wiki) :
    Triple (rebuildInterp fts rely guar) F (O.Building w [])
      (build t.key t.concept ((w.map (·.sourceRefs)).getD []) t.newRaws)
      (OnOk (fun inputs s => O.Building w inputs s ∧
        Feeds ((w.map (·.sourceRefs)).getD []) t.newRaws inputs) fun _ => True) := by
  have hnil : FromRefs ((w.map (·.sourceRefs)).getD []) [] :=
    ⟨fun _ h => absurd h List.not_mem_nil, List.nodup_nil, Nat.zero_le _⟩
  refine Triple.andThen (fun _ _ _ _ => trivial)
    (O.loadRefs_triple w _ [] (fun _ h => h) hnil (by decide)) fun out => ?_
  refine Triple.assume (fun _ h => h.2) fun hout => Triple.pre ?_ fun _ h => h.1
  -- raws are added as long as there is room: those of the references, the new ones, the hits
  have hnew : ∀ s, O.Building w out s → O.Building w (takeUnseen t.newRaws out) s :=
    fun s h => building_takeUnseen h (O.new s h.1.1)
  dsimp only
  split
  · rename_i hfull
    exact Triple.pure (O.building_stable w out) fun _ h => ⟨h, hout.feeds hfull⟩
  · rename_i hl
    have hfeeds : Feeds ((w.map (·.sourceRefs)).getD []) t.newRaws (takeUnseen t.newRaws out) :=
      hout.feeds_takeUnseen (not_le.1 hl)
    refine Triple.pre ?_ hnew
    split
    · exact Triple.pure (O.building_stable w _) fun _ h => ⟨h, hfeeds⟩
    · rename_i hl'
      refine Triple.andThen (fun _ _ _ _ => trivial) (Triple.query (B := fun hits s =>
        O.Building w (takeUnseen hits (takeUnseen t.newRaws out)) s) Op.reads_searchRaws O.guar_refl
        (O.building_stable w _) (fun _ => O.building_stable w _)
        fun s hs => building_takeUnseen hs (O.hits s _ hs.1.1)) fun hits => ?_
      exact Triple.pure (O.building_stable w _) fun _ h => ⟨h, hfeeds.takeUnseen hl'⟩

/-- The synthesis of a page keeps to its outline. -/
theorem triple : Triple (rebuildInterp fts rely guar) F O.busy (synthesizeOne t)
    (OnOk (fun _ _ => True) fun _ => True) := by
  refine Triple.andThen (fun _ _ _ _ => trivial) (Triple.query (B := fun w s => O.Building w [] s)
    Op.reads_wikiGet O.guar_refl O.busy_stable (fun w => O.building_stable w [])
    fun s hs => ⟨⟨hs, O.get s hs⟩, fun _ h => absurd h List.not_mem_nil⟩) fun w => ?_
  refine Triple.andThen (fun _ _ _ _ => trivial) (O.build_triple w) fun inputs => ?_
  refine Triple.assume (fun _ h => h.2) fun hfeeds => Triple.pre ?_ fun _ h => h.1
  have hstable : Stable rely fun s => O.busy s ∧ O.noted w inputs s :=
    O.busy_stable.and (O.noted_stable w inputs)
  refine Triple.andThen (B := fun _ s => O.busy s ∧ O.noted w inputs s) (fun _ _ _ _ => trivial)
    (Triple.call (O.building_stable w inputs) (fun _ => hstable) (fun _ _ _ _ => trivial)
      fun s r s' hs hp => ?_) fun _ => ?_
  · obtain ⟨input, hp⟩ := hp
    cases hp
    exact O.built s w inputs hs.1.1 hs.1.2 hs.2 hfeeds
  refine Triple.andThen (B := fun _ s => O.busy s ∧ O.noted w inputs s)
    (fun _ _ _ _ => trivial) ?_ fun result => ?_
  · -- the prompt, and its answer
    refine Triple.andThen (B := fun _ s => O.busy s ∧ O.noted w inputs s)
      (fun _ _ _ _ => trivial) (Triple.call hstable (fun _ => hstable)
        (fun _ _ _ _ => trivial) fun s r s' hs hp => ?_) fun _ => ?_
    · obtain ⟨input, hp⟩ := hp
      cases hp
      exact O.prompt s w inputs hs.1 hs.2
    · refine Triple.call hstable (fun _ => hstable) (fun _ _ _ _ => trivial)
        fun s r s' hs hp => ?_
      obtain ⟨input, hp⟩ := hp
      cases input with
      | ok => cases hp
      | fail => cases hp; exact ⟨O.guar_refl _, trivial⟩
      | affected a => cases hp
      | synth w => cases hp; exact ⟨O.guar_refl _, hs⟩
  · refine Triple.call hstable (fun _ _ _ _ _ => trivial) (fun _ _ _ _ => trivial)
      fun s r s' hs hp => ?_
    obtain ⟨input, hp⟩ := hp
    cases input with
    | ok =>
      cases hp
      refine ⟨O.upsert s w inputs result.content _ hs.1 hs.2 fun id hid => ?_, trivial⟩
      simpa [seen] using (List.mem_filter.1 hid).2
    | fail => cases hp; exact ⟨O.guar_refl _, trivial⟩
    | affected a => cases hp
    | synth w => cases hp

/-- So does the task of an iteration. -/
theorem taskSafe {s : Shared} (h : O.busy s) :
    TaskSafe (rebuildInterp fts rely guar) (synthesizeTask t) s :=
  Safe.bind (Safe.post (fun _ _ _ _ _ => trivial) (O.triple s h))

end TaskOutline

/-! ## A session -/

/-- The annotations of the iterations of a session: before an iteration
    (`start`), once it read the clock (`started`), the watermark (`marked`), the
    new raws (`listed`) and the concepts (`known`), after an extraction
    (`extracted`), with the concepts to synthesize (`planned`), and at its end
    (`finish`). -/
structure Outline (fts : Fts) (rely guar : Shared → Shared → Prop) (k : OwnerKey) where
  start : RebuildMode → Shared → Prop
  started : RebuildMode → Int → Shared → Prop
  marked : RebuildMode → Int → Int → Shared → Prop
  listed : RebuildMode → Int → List Raw → Shared → Prop
  known : RebuildMode → Int → List Raw → List String → Shared → Prop
  extracted : Int → List Raw → List String → AffectedConcepts → Shared → Prop
  planned : Int → List Raw → List String → Shared → Prop
  finish : Shared → Prop
  guar_refl : ∀ s, guar s s
  start_stable : ∀ mode, Stable rely (start mode)
  started_stable : ∀ mode t, Stable rely (started mode t)
  marked_stable : ∀ mode t w, Stable rely (marked mode t w)
  listed_stable : ∀ mode t rs, Stable rely (listed mode t rs)
  known_stable : ∀ mode t rs cs, Stable rely (known mode t rs cs)
  extracted_stable : ∀ t rs cs a, Stable rely (extracted t rs cs a)
  planned_stable : ∀ t rs cs, Stable rely (planned t rs cs)
  finish_stable : Stable rely finish
  startSession : ∀ mode s, start mode s →
    guar s (s.noteStarted k mode) ∧ started mode s.now (s.noteStarted k mode)
  watermark : ∀ mode t s, started mode t s → marked mode t (Wikis.maxLastRebuiltAt s.db k) s
  listSince : ∀ mode t w s, marked mode t w s →
    let rs := Raws.listSince s.db k w t
    let s' := if rs.isEmpty then s else s.noteSettled k t
    guar s s' ∧ listed mode t rs s'
  listConcepts : ∀ mode t rs s, listed mode t rs s → known mode t rs (Wikis.listConcepts s.db k) s
  drained : ∀ t cs s, known .append t [] cs s → finish s
  prompt : ∀ t rs cs s, rs ≠ [] → known .append t rs cs s →
    let s' := s.notePrompt k (.extract (rs.map fun r => (r.title, r.content)) cs)
    guar s s' ∧ known .append t rs cs s'
  extract : ∀ t rs cs s a, rs ≠ [] → known .append t rs cs s →
    guar s (s.noteExtracted k rs) ∧ extracted t rs cs a (s.noteExtracted k rs)
  count : ∀ t rs cs a s, extracted t rs cs a s →
    planned t rs (affectedOf cs a (Wikis.countConcepts s.db k)) s
  existing : ∀ t rs cs c s, known (.manual (some c)) t rs cs s → c ∈ cs → planned t rs [c] s
  create : ∀ t rs cs c s, known (.manual (some c)) t rs cs s → c ∉ cs →
    Wikis.countConcepts s.db k < CONCEPT_LIMIT_PER_OWNER → planned t rs [c] s
  rejected : ∀ t rs cs c s, known (.manual (some c)) t rs cs s → finish s
  all : ∀ t rs cs s, known (.manual none) t rs cs s → planned t rs cs s
  nothing : ∀ t rs cs s, planned t rs cs s → finish s
  tasks : ∀ t rs cs s, planned t rs cs s → ∃ J T, J s ∧
    SideBySide (rebuildInterp fts rely guar) synthesizeTask
      (cs.map fun c => ⟨k, c, rs, t⟩) J T ∧ ∀ s, J s → finish s
  again : ∀ s, finish s → start .append s

namespace Outline

variable {k : OwnerKey} (O : Outline fts rely guar k)

/-- What a plan leads to. -/
def Planned (t : Int) (rs : List Raw) : Plan → Shared → Prop
  | .drained, s => O.finish s
  | .rejected, s => O.finish s
  | .synthesize affected, s => O.planned t rs affected s

/-- A plan is made as it should be. -/
theorem plan_triple (mode : RebuildMode) (t : Int) (rs : List Raw) (cs : List String) :
    Triple (rebuildInterp fts rely guar) F (O.known mode t rs cs) (plan k rs cs mode)
      (OnOk (O.Planned t rs) fun _ => True) := by
  have hst := O.known_stable mode t rs cs
  cases mode with
  | append =>
    rw [plan]
    split
    -- no new raws: the iteration has nothing to do
    · rename_i hrs
      rw [List.isEmpty_iff.1 hrs] at hst ⊢
      exact Triple.pure hst fun s h => O.drained t cs s h
    · rename_i hrs
      have hne : rs ≠ [] := fun h => hrs (List.isEmpty_iff.2 h)
      refine Triple.andThen (B := O.extracted t rs cs) (fun _ _ _ _ => trivial) ?_ fun a => ?_
      · refine Triple.andThen (B := fun _ => O.known .append t rs cs) (fun _ _ _ _ => trivial)
          (Triple.call hst (fun _ => hst) (fun _ _ _ _ => trivial) fun s r s' hs hp => ?_)
          fun _ => Triple.call hst (O.extracted_stable t rs cs) (fun _ _ _ _ => trivial)
            fun s r s' hs hp => ?_
        · obtain ⟨input, hp⟩ := hp
          cases hp
          exact O.prompt t rs cs s hne hs
        · obtain ⟨input, hp⟩ := hp
          cases input with
          | ok => cases hp
          | fail => cases hp; exact ⟨O.guar_refl _, trivial⟩
          | affected a => cases hp; exact O.extract t rs cs s a hne hs
          | synth w => cases hp
      · refine Triple.andThen (fun _ _ _ _ => trivial) (Triple.query
          (B := fun n => O.planned t rs (affectedOf cs a n)) Op.reads_countConcepts O.guar_refl
          (O.extracted_stable t rs cs a) (fun _ => O.planned_stable t rs _)
          fun s h => O.count t rs cs a s h) fun n => ?_
        exact Triple.pure (O.planned_stable t rs _) fun _ h => h
  | manual c =>
    cases c with
    | none => exact Triple.pure hst fun s h => O.all t rs cs s h
    | some c =>
      rw [plan]
      split
      -- the concept is one of the owner's, so that the limit does not matter
      · rename_i hc
        exact Triple.pure hst fun s h => O.existing t rs cs c s h hc
      -- a page for a new concept is only planned while there is room for it
      · rename_i hc
        refine Triple.andThen (fun _ _ _ _ => trivial) (Triple.query
          (B := fun n s => O.finish s ∧
            (n < CONCEPT_LIMIT_PER_OWNER → O.planned t rs [c] s)) Op.reads_countConcepts
          O.guar_refl hst (fun n => ?_) fun s h => ⟨O.rejected t rs cs c s h,
            O.create t rs cs c s h hc⟩) fun n => ?_
        · exact O.finish_stable.and fun s s' h hr hn => O.planned_stable t rs [c] s s' (h hn) hr
        · split
          · refine Triple.pre ?_ fun _ h => h.1
            exact Triple.pure O.finish_stable fun _ h => h
          · rename_i hn
            refine Triple.pre ?_ fun _ h => h.2 (not_le.1 hn)
            exact Triple.pure (O.planned_stable t rs [c]) fun _ h => h

/-- An iteration, followed by the others. -/
theorem iterate_succ {left : ℕ} (mode : RebuildMode)
    (ih : Triple (rebuildInterp fts rely guar)
      (.sideBySide (rebuildInterp fts rely guar) synthesizeTask) O.finish (iterate k left .append)
      (OnOk (fun _ => O.finish) fun _ => True)) :
    Triple (rebuildInterp fts rely guar)
      (.sideBySide (rebuildInterp fts rely guar) synthesizeTask) (O.start mode)
      (iterate k (left + 1) mode) (OnOk (fun _ => O.finish) fun _ => True) := by
  -- one precondition for each operation of the iteration, in the order of the source
  refine Triple.andThen (B := O.started mode) (fun _ _ _ _ => trivial)
    (Triple.call (O.start_stable mode) (O.started_stable mode) (fun _ _ _ _ => trivial)
      fun s r s' hs hp => ?_) fun t => ?_
  · obtain ⟨input, hp⟩ := hp
    cases hp
    exact O.startSession mode s hs
  refine Triple.andThen (fun _ _ _ _ => trivial) (Triple.query (B := O.marked mode t)
    Op.reads_maxLastRebuiltAt O.guar_refl (O.started_stable mode t) (O.marked_stable mode t)
    (O.watermark mode t)) fun w => ?_
  refine Triple.andThen (B := O.listed mode t) (fun _ _ _ _ => trivial)
    (Triple.call (O.marked_stable mode t w) (O.listed_stable mode t) (fun _ _ _ _ => trivial)
      fun s r s' hs hp => ?_) fun rs => ?_
  · obtain ⟨input, hp⟩ := hp
    cases input with
    | ok => cases hp; exact O.listSince mode t w s hs
    | fail => cases hp; exact ⟨O.guar_refl _, trivial⟩
    | affected a => cases hp
    | synth w => cases hp
  refine Triple.andThen (fun _ _ _ _ => trivial) (Triple.query (B := O.known mode t rs)
    Op.reads_listConcepts O.guar_refl (O.listed_stable mode t rs) (O.known_stable mode t rs)
    (O.listConcepts mode t rs)) fun cs => ?_
  refine Triple.andThen (fun _ _ _ _ => trivial) (O.plan_triple mode t rs cs) fun p => ?_
  cases p with
  | drained => exact Triple.pure O.finish_stable fun _ h => h
  | rejected => exact ih
  | synthesize affected =>
    by_cases he : affected.isEmpty
    · simp only [if_pos he]
      exact Triple.pure (O.planned_stable t rs affected) (O.nothing t rs affected)
    · simp only [if_neg he]
      refine Triple.andThen (B := fun _ => O.finish) (fun _ _ _ _ => trivial) (fun s hs => ?_)
        fun _ => ?_
      -- the tasks run side by side, under what each of them keeps and relies on
      · obtain ⟨J, T, hJ, hts, hfin⟩ := O.tasks t rs affected s hs
        exact ⟨J, T, hJ, hts, fun s hs s' hr => Interp.Stable.star
          (I := rebuildInterp fts rely guar) O.finish_stable (hfin s hs) hr⟩
      · split
        · exact Triple.pure O.finish_stable fun _ h => h
        · exact ih

/-- The iterations after the first keep to the outline. -/
theorem iterate_triple (left : ℕ) :
    Triple (rebuildInterp fts rely guar)
      (.sideBySide (rebuildInterp fts rely guar) synthesizeTask) O.finish (iterate k left .append)
      (OnOk (fun _ => O.finish) fun _ => True) := by
  induction left with
  | zero => exact Triple.pure O.finish_stable fun _ h => h
  | succ left ih => exact (O.iterate_succ .append ih).pre O.again

/-- A turn of the loop of a worker keeps to the outline. -/
theorem triple (l : Locals) :
    Triple (rebuildInterp fts rely guar)
      (.sideBySide (rebuildInterp fts rely guar) synthesizeTask) (O.start l.mode) (runWorker k l)
      (OnOk (fun next s => match next with
        | .again l => O.start l.mode s
        | .markIdleOrContinue _ _ => O.finish s) fun _ => True) := by
  -- a turn ends where the next may begin, of the mode `append` if there is one
  have hfin : ∀ (next : Next), (∀ l', next = .again l' → l'.mode = .append) →
      Triple (rebuildInterp fts rely guar)
        (.sideBySide (rebuildInterp fts rely guar) synthesizeTask) O.finish
        (pure next : Rebuild Next) (OnOk (fun next s => match next with
          | .again l => O.start l.mode s
          | .markIdleOrContinue _ _ => O.finish s) fun _ => True) := fun next hn => by
    refine Triple.pure O.finish_stable fun s h => ?_
    cases next with
    | again l' =>
      show O.start l'.mode s
      rw [hn l' rfl]
      exact O.again s h
    | markIdleOrContinue caps used => exact h
  refine Triple.andThen (fun _ _ _ _ => trivial) (O.iterate_succ l.mode (O.iterate_triple _))
    fun outcome => ?_
  cases outcome with
  | done => exact hfin _ nofun
  | drainCapped =>
    dsimp only
    split
    · refine Triple.andThen (fun _ _ _ _ => trivial) (Triple.query (B := fun _ => O.finish)
        Op.reads_maxLastRebuiltAt O.guar_refl O.finish_stable (fun _ => O.finish_stable)
        fun _ h => h) fun w => ?_
      refine Triple.andThen (B := fun _ => O.finish) (fun _ _ _ _ => trivial) ?_ fun remaining => ?_
      · refine Triple.andThen (B := fun _ => O.finish) (fun _ _ _ _ => trivial)
          (Triple.call O.finish_stable (fun _ => O.finish_stable) (fun _ _ _ _ => trivial)
            fun s r s' hs hp => ?_) fun now =>
          Triple.call O.finish_stable (fun _ => O.finish_stable) (fun _ _ _ _ => trivial)
            fun s r s' hs hp => ?_
        · obtain ⟨input, hp⟩ := hp
          cases hp
          exact ⟨O.guar_refl _, hs⟩
        · obtain ⟨input, hp⟩ := hp
          obtain ⟨rfl, _⟩ := answer_state hp
          exact ⟨O.guar_refl _, hs⟩
      · split
        · exact hfin _ fun l' h => by cases h; rfl
        · exact hfin _ nofun
    · exact hfin _ fun l' h => by cases h; rfl

end Outline

end LlmMemory
