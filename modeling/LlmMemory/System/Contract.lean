import LlmMemory.Coordinator.Outline
import LlmMemory.System.Slots

/-!
# Contracts for the workers of an owner

A contract for the workers of an owner `k` (`Contract`) says what the others
may do to the shared state (`rely`), what the operations of the worker do
(`guar`), and what holds when a session is started and ended (`pre`, `idle`).
It is proved on the program of a turn of the loop of a worker, by the rules of
`LlmMemory.Lib.Effects`.

In the system there is at most one worker at a time that a contract is about,
since such a worker holds the slot of `k`. So a contract is kept by every step
(`WorkersSafe.effect`, `WorkersSafe.moves`), if the others keep to the rely.

The contract all workers have is to do operations about their owner only
(`Contract.own`). It gives what a move of a worker can be (`OwnMove`).
-/

namespace LlmMemory

open Effects Runs

/-- What the workers of an owner rely on and guarantee, what holds before a session and
    while no worker runs, and that it is kept so. -/
structure Contract (fts : Fts) (k : OwnerKey) where
  rely : Shared → Shared → Prop
  guar : Shared → Shared → Prop
  pre : RebuildMode → Shared → Prop
  idle : Shared → Prop
  pre_stable : ∀ {mode s s'}, pre mode s → rely s s' → pre mode s'
  gauge : ∀ s n, rely s { s with inFlight := n }
  turn : ∀ l, Triple (rebuildInterp fts rely guar)
    (.sideBySide (rebuildInterp fts rely guar) synthesizeTask) (pre l.mode) (runWorker k l)
    (OnOk (fun next s => match next with
      | .again l => pre l.mode s
      | .markIdleOrContinue _ _ => idle s) fun _ => True)
  proceed : ∀ {s mode s'}, idle s → s.markIdleOrContinue k = (some mode, s') → pre mode s'

variable {fts : Fts} {k : OwnerKey}

namespace Contract

variable (C : Contract fts k)

/-- The assertions about the programs of a worker. -/
abbrev interp : Interp RebuildSig Shared := rebuildInterp fts C.rely C.guar

/-- What holds at the end of a turn. -/
abbrev After : Except CoordinatorError Next → Shared → Prop :=
  OnOk (fun next s => match next with
    | .again l => C.pre l.mode s
    | .markIdleOrContinue _ _ => C.idle s) fun _ => True

/-- A worker in this phase keeps the contract from here on. -/
def PhaseSafe : Phase → Shared → Prop
  | .claimed mode, s => C.pre mode s
  | .running th, s => th.Safe C.interp synthesizeTask C.After s
  | _, _ => True

variable {C} {s s' : Shared} {p : Phase}

/-- A phase stays safe while others move. -/
theorem PhaseSafe.env (h : C.PhaseSafe p s) (hr : C.rely s s') : C.PhaseSafe p s' := by
  cases p with
  | claimed mode => exact C.pre_stable h hr
  | running th => exact Thread.Safe.env (I := C.interp) h hr
  | ended r => trivial
  | observed r => trivial
  | released => trivial

/-- A phase that does not hold the slot asks for nothing. -/
theorem PhaseSafe.of_not_holds (h : p.holds = false) : C.PhaseSafe p s := by
  cases p with
  | claimed mode => cases h
  | running th => cases h
  | ended r => trivial
  | observed r => trivial
  | released => trivial

/-- A session that starts is safe. -/
theorem PhaseSafe.start {l : Locals} (h : C.pre l.mode s) : C.PhaseSafe (Worker.start k l) s :=
  C.turn l s h

/-- A move of a worker holding its slot keeps the contract. -/
theorem PhaseSafe.moves {w : Worker} {e : Event} (hw : w.key = k) (h : C.PhaseSafe w.phase s)
    (hm : w.Moves fts e s p s') : C.PhaseSafe p s' := by
  cases hm with
  | @spawn mode hp =>
    rw [hp] at h
    have hpre : C.pre mode s := h
    exact hw ▸ PhaseSafe.start (l := { mode := mode }) (C.pre_stable hpre (C.gauge _ _))
  | thread hp _ ht =>
    rw [hp] at h
    exact (Thread.Safe.step (I := C.interp) (fun _ _ _ _ ho => ⟨_, ho⟩) h ht).2
  | again hp =>
    rw [hp] at h
    exact hw ▸ PhaseSafe.start (h _ .refl)
  | proceed hp hmark =>
    rw [hp] at h
    subst hw
    exact PhaseSafe.start (C.proceed (h _ .refl) hmark)
  | idle _ _ => trivial
  | err _ => trivial
  | abort _ _ _ => trivial
  | observe _ => trivial
  | release _ => trivial

/-- An operation of a worker that keeps the contract is in its guarantee. -/
theorem PhaseSafe.guar {th th' : Thread RebuildSig (Except CoordinatorError Next)} {m : Move}
    {input : Input} (h : C.PhaseSafe (.running th) s)
    (ht : th.step synthesizeTask (perform fts input) m s = some (th', s')) :
    s' = s ∨ C.guar s s' :=
  (Thread.Safe.step (I := C.interp) (fun _ _ _ _ ho => ⟨_, ho⟩) h ht).1

end Contract

/-- The contract given by an outline, if the mode that follows a session is
    one to start with. -/
def Outline.contract {rely guar : Shared → Shared → Prop} (O : Outline fts rely guar k)
    (gauge : ∀ s n, rely s { s with inFlight := n })
    (proceed : ∀ {s mode s'}, O.finish s → s.markIdleOrContinue k = (some mode, s') →
      O.start mode s') : Contract fts k where
  rely := rely
  guar := guar
  pre := O.start
  idle := O.finish
  pre_stable h hr := O.start_stable _ _ _ h hr
  gauge := gauge
  turn := O.triple
  proceed := proceed

/-- The workers of `k` keep the contract. -/
def WorkersSafe (C : Contract fts k) (s : Sys) : Prop :=
  ∀ w ∈ s.workers, w.key = k → C.PhaseSafe w.phase s.shared

section Steps

variable {C : Contract fts k} {s : Sys}

/-- The workers stay safe while others move. -/
theorem WorkersSafe.env (h : WorkersSafe C s) {s' : Sys} (hw : s'.workers = s.workers)
    (hr : C.rely s.shared s'.shared) : WorkersSafe C s' :=
  fun w hm hk => (h w (hw ▸ hm) hk).env hr

/-- There is nothing to keep while the slot is free. -/
theorem WorkersSafe.of_idle (hc : SlotsCounted s) (hrun : (s.shared.map.entry k).running = false) :
    WorkersSafe C s := fun w hw hk => by
  refine .of_not_holds (Bool.eq_false_iff.2 fun hh => ?_)
  have hcount := hc.slots k
  rw [running_of_clear hrun] at hcount
  exact List.countP_eq_zero.1 hcount w hw (by rw [← hk, holdsSlot_self, hh])

/-- An effect of a request keeps the contract, if it is in the rely, or if it
    starts a worker, where a session may start. -/
theorem WorkersSafe.effect (h : WorkersSafe C s) (hc : SlotsCounted s) {e : Effect}
    (hr : (∀ mode, e = .tryStart k mode → (s.shared.tryStart k mode).1 = none) →
      C.rely s.shared (s.effect e).shared)
    (hs : ∀ mode m sh, e = .tryStart k mode → s.shared.tryStart k mode = (some m, sh) →
      C.pre m sh) : WorkersSafe C (s.effect e) := by
  cases e with
  | insertRaw r => exact h.env rfl (hr fun _ he => by cases he)
  | upsertSchema key content now => exact h.env rfl (hr fun _ he => by cases he)
  | deleteUser u => exact h.env rfl (hr fun _ he => by cases he)
  | tryStart key mode =>
    simp only [Sys.effect] at hr ⊢
    split at hr
    · rename_i m sh ht
      obtain ⟨e', hsh, hrun, _⟩ := Shared.tryStart_some ht
      intro w hw hk
      rcases List.mem_append.1 hw with hw | hw
      · by_cases hkey : key = k
        · -- The slot was free: the workers there were have released it.
          subst hkey
          refine .of_not_holds (Bool.eq_false_iff.2 fun hh => ?_)
          have hcount := hc.slots key
          rw [running_of_clear hrun] at hcount
          exact List.countP_eq_zero.1 hcount w hw (by rw [← hk, holdsSlot_self, hh])
        · exact (h w hw hk).env (hr fun _ he => by cases he; exact absurd rfl hkey)
      · rw [List.mem_singleton.1 hw] at hk ⊢
        obtain rfl : key = k := hk
        exact hs mode m sh rfl ht
    · rename_i sh ht
      exact h.env rfl (hr fun _ he => by cases he; rw [ht])

/-- A move of a worker keeps the contract, if it is in the rely where it is
    one of another owner. -/
theorem WorkersSafe.moves (h : WorkersSafe C s) (hc : SlotsCounted s) {i : ℕ} {w : Worker}
    {p : Phase} {sh : Shared} {e : Event} (hi : s.workers[i]? = some w)
    (hm : w.Moves fts e s.shared p sh) (hr : w.key ≠ k → C.rely s.shared sh) :
    WorkersSafe C (s.setWorker i { w with phase := p } sh) := by
  intro w' hw' hk
  obtain ⟨j, hj⟩ := List.getElem?_of_mem hw'
  by_cases hij : i = j
  · -- the worker that moved
    subst hij
    obtain rfl : { w with phase := p } = w' := by
      rw [Sys.setWorker, List.getElem?_set_self' , hi] at hj
      exact Option.some.inj hj
    have hk : w.key = k := hk
    exact (h w (List.mem_of_getElem? hi) hk).moves hk hm
  · have hj' : s.workers[j]? = some w' := by rwa [Sys.setWorker, List.getElem?_set_ne hij] at hj
    have hsafe := h w' (List.mem_of_getElem? hj') hk
    by_cases hkey : w.key = k
    · by_cases hh : w'.phase.holds = true
      · -- The worker moved does not hold the slot, which it released before.
        have hw : w.phase.holds = false := Bool.eq_false_iff.2 fun hw => hij
          (hc.unique (k := k) hi hj' (by rw [← hkey, holdsSlot_self, hw])
            (by rw [← hk, holdsSlot_self, hh]))
        rcases moves_released hm hw with rfl | ⟨n, rfl⟩
        · exact hsafe
        · exact hsafe.env (C.gauge _ n)
      · exact .of_not_holds (Bool.eq_false_iff.2 hh)
    · exact hsafe.env (hr hkey)

end Steps

/-! ## What workers do to the shared state -/

/-- The contract of all workers: their operations are about their owner. -/
def Contract.own (fts : Fts) (k : OwnerKey) : Contract fts k where
  rely _ _ := True
  guar s s' := s' = s ∨ ∃ o : Op, o.Concerns k ∧ o.Writes s s'
  pre _ _ := True
  idle _ := True
  pre_stable _ _ := trivial
  gauge _ _ := trivial
  turn l s _ := by
    refine Safe.post (Q := fun _ _ => True) (fun r _ _ => ?_)
      (Prog.Only.safe (P := Op.Concerns k) (fun o s r s' ho hp => ?_) (runWorker_only l)
        (fun ts hts t ht => synthesizeTask_only (hts t ht)) s)
    · rcases r with _ | _ | ⟨_, _⟩ <;> trivial
    · obtain ⟨input, hp⟩ := hp
      exact (perform_state hp).imp id fun hw => ⟨o, ho, hw⟩
  proceed _ _ := trivial

/-- What a worker of `k`, or its outer task, may do to the shared state. -/
inductive OwnMove (k : OwnerKey) (s : Shared) : Shared → Prop
  | none : OwnMove k s s
  | gauge (n : Int) : OwnMove k s { s with inFlight := n }
  | op {o : Op} {s' : Shared} : o.Concerns k → o.Writes s s' → OwnMove k s s'
  | mark : OwnMove k s (s.markIdleOrContinue k).2
  | release (r : JoinResult) : OwnMove k s (s.release k r)

/-- A move of a worker that holds the slot is one that is its own. -/
theorem WorkersSafe.ownMove {s : Sys} {w : Worker} {p : Phase} {sh : Shared} {e : Event}
    (h : WorkersSafe (.own fts k) s) (hw : w ∈ s.workers) (hk : w.key = k)
    (hm : w.Moves fts e s.shared p sh) : OwnMove k s.shared sh := by
  subst hk
  cases hm with
  | spawn _ => exact .gauge _
  | thread hp _ ht =>
    have hsafe := h w hw rfl
    rw [hp] at hsafe
    rcases hsafe.guar ht with rfl | rfl | ⟨o, ho, hw⟩
    · exact .none
    · exact .none
    · exact .op ho hw
  | again _ => exact .none
  | proceed _ hmark =>
    obtain rfl : _ = sh := congrArg Prod.snd hmark
    exact .mark
  | idle _ hmark =>
    obtain rfl : _ = sh := congrArg Prod.snd hmark
    exact .mark
  | err _ => exact .none
  | abort _ _ _ => exact .none
  | observe _ => exact .gauge _
  | release _ => exact .release _

/-- What a change leaves of all that is about `k`. -/
structure Aside (k : OwnerKey) (s s' : Shared) : Prop where
  now : s'.now = s.now
  raws : s'.db.raws = s.db.raws
  wikis : Wikis.ofOwner s'.db k = Wikis.ofOwner s.db k
  entry : s'.map.entry k = s.map.entry k
  built : ∀ i : SynthInput, i.task.key = k → (i ∈ s'.hist.built ↔ i ∈ s.hist.built)
  prompts : ∀ p, (k, p) ∈ s'.hist.prompts ↔ (k, p) ∈ s.hist.prompts
  extracted : ∀ rs, (k, rs) ∈ s'.hist.extracted ↔ (k, rs) ∈ s.hist.extracted
  written : ∀ w : Wiki, w.key = k → (w ∈ s'.hist.written ↔ w ∈ s.hist.written)
  manualStarting : s'.hist.manualStarting k = s.hist.manualStarting k
  settledUntil : s'.hist.settledUntil k = s.hist.settledUntil k

/-- A worker leaves what is about another owner. -/
theorem OwnMove.aside {key k : OwnerKey} {s s' : Shared} (h : OwnMove key s s') (hk : k ≠ key) :
    Aside k s s' := by
  have hrefl : Aside k s s :=
    ⟨rfl, rfl, rfl, rfl, fun _ _ => .rfl, fun _ => .rfl, fun _ => .rfl, fun _ _ => .rfl, rfl, rfl⟩
  cases h with
  | none => exact hrefl
  | gauge n => exact { hrefl with }
  | @op o _ ho hw =>
    cases hw with
    | @startSession key' mode =>
      obtain rfl : key' = key := ho
      refine { hrefl with manualStarting := Function.update_of_ne hk _ _, settledUntil := ?_ }
      simp only [Shared.noteStarted]
      split
      · exact Function.update_of_ne hk _ _
      · rfl
    | @listSince key' =>
      obtain rfl : key' = key := ho
      exact { hrefl with settledUntil := Function.update_of_ne hk _ _ }
    -- the sets of the history are about all owners, and only grow with entries of this one
    | @built i =>
      obtain rfl : i.task.key = key := ho
      refine { hrefl with built := fun i' hi => ?_ }
      have hne : i' ≠ i := fun e => hk (by rw [← hi, e])
      simp [Shared.noteBuilt, hne]
    | @prompt key' p =>
      obtain rfl : key' = key := ho
      exact { hrefl with prompts := fun p => by simp [Shared.notePrompt, hk] }
    | @extracted key' rs =>
      obtain rfl : key' = key := ho
      exact { hrefl with extracted := fun rs => by simp [Shared.noteExtracted, hk] }
    | @wikiUpsert key' =>
      obtain rfl : key' = key := ho
      exact { hrefl with
        wikis := Wikis.ofOwner_upsert_of_ne hk
        written := fun w hw => by
          have hne : w.key ≠ key' := fun e => hk (hw.symm.trans e)
          simp only [Shared.upsertWiki, List.mem_append, List.mem_singleton, or_iff_left_iff_imp]
          exact fun e => absurd (e ▸ rfl) hne }
  | mark =>
    -- whether it goes idle or on, the entry updated is its own
    cases hm : s.markIdleOrContinue key with
    | mk o sh =>
      cases o with
      | none =>
        obtain ⟨_, _, rfl⟩ := Shared.markIdleOrContinue_none hm
        exact { hrefl with entry := StateMap.entry_update_of_ne hk }
      | some m =>
        obtain ⟨e', rfl, _⟩ := Shared.markIdleOrContinue_some hm
        exact { hrefl with
          entry := StateMap.entry_update_of_ne hk
          manualStarting := Function.update_of_ne hk _ _ }
  | release r =>
    have he : (s.release key r).map.entry k = s.map.entry k := congrArg (·.getD {}) (release_of_ne hk)
    cases r <;> exact { hrefl with entry := he }

/-- The facts that every run keeps. -/
structure Sound (fts : Fts) (s : Sys) : Prop where
  slots : SlotsCounted s
  own : ∀ k, WorkersSafe (.own fts k) s

section Sound

variable {s s' : Sys}

/-- Time passes, and requests come and go. -/
theorem Sound.tick (h : Sound fts s) (dt : ℕ) (calls : List Call) :
    Sound fts { s.tick dt with calls := calls } :=
  ⟨h.slots.tick dt calls, fun k => (h.own k).env rfl trivial⟩

theorem Sound.effect (h : Sound fts s) (e : Effect) : Sound fts (s.effect e) :=
  ⟨h.slots.effect e, fun k => (h.own k).effect h.slots (fun _ => trivial) fun _ _ _ _ _ => trivial⟩

theorem Sound.moves (h : Sound fts s) {i : ℕ} {w : Worker} {p : Phase} {sh : Shared} {e : Event}
    (hi : s.workers[i]? = some w) (hm : w.Moves fts e s.shared p sh) :
    Sound fts (s.setWorker i { w with phase := p } sh) :=
  ⟨h.slots.moves hi hm, fun k => (h.own k).moves h.slots hi hm fun _ => trivial⟩

theorem Sound.effects (h : Sound fts s) (es : List Effect) :
    Sound fts (es.foldl Sys.effect s) := by
  induction es generalizing s with
  | nil => exact h
  | cons e es ih => exact ih (h.effect e)

/-- Every step keeps the system sound. -/
theorem Sound.step {l : Step} (h : Sound fts s) (hs : s.step fts l = some s') : Sound fts s' := by
  rcases Sys.step_cases hs with ⟨es, calls, _, rfl⟩ | ⟨i, w, p, sh, _, hi, hm, rfl⟩
  · exact (h.tick l.dt calls).effects es
  · exact (h.tick l.dt s.calls).moves hi hm

/-- A system that starts is sound. -/
theorem Sound.boot (h : Boot s) : Sound fts s :=
  ⟨reach_slotsCounted (.init h : Reach Boot (Sys.step fts) (fun _ _ => True) s),
    fun k w hw => by rw [h.workers] at hw; cases hw⟩

/-- A step keeps `P`, if the passing of time does, the effects that it has
    where they are allowed, and the moves of workers. -/
theorem Sound.keep {P : Sys → Prop} {l : Step} (h : Sound fts s)
    (hst : s.step fts l = some s') (htick : ∀ calls, P { s.tick l.dt with calls := calls })
    (heff : ∀ s₁ e, s.Does l e → Sound fts s₁ → P s₁ → s₁.Allows e → P (s₁.effect e))
    (hmove : ∀ s₁ i w p sh, Sound fts s₁ → P s₁ → s₁.workers[i]? = some w →
      w.Moves fts l.event s₁.shared p sh → P (s₁.setWorker i { w with phase := p } sh)) : P s' := by
  rcases Sys.step_cases hst with ⟨es, calls, he, rfl⟩ | ⟨i, w, p, sh, _, hi, hm, rfl⟩
  · refine (Sys.effects_induction (P := fun s => Sound fts s ∧ P s) he ⟨h.tick l.dt calls, htick calls⟩
      fun s₁ e hmem hs₁ ha => ⟨hs₁.1.effect e, heff s₁ e ⟨_, he, hmem⟩ hs₁.1 hs₁.2 ha⟩).2
  · exact hmove (s.tick l.dt) i w p sh (h.tick l.dt s.calls) (htick s.calls) hi hm

/-- What holds when the server starts, and is kept by the steps meeting `ok`,
    holds in all runs of such steps. -/
theorem Sound.invariant {init : Sys → Prop} {ok : Sys → Step → Prop} {P : Sys → Prop}
    (h₀ : ∀ s, init s → Boot s ∧ P s)
    (h : ∀ s l s', Sound fts s → P s → ok s l → s.step fts l = some s' → P s')
    (hr : Reach init (Sys.step fts) ok s) : Sound fts s ∧ P s :=
  hr.invariant (P := fun s => Sound fts s ∧ P s) (fun s hs => ⟨.boot (h₀ s hs).1, (h₀ s hs).2⟩)
    fun s l s' _ hs hok hst => ⟨hs.1.step hst, h s l s' hs.1 hs.2 hok hst⟩

end Sound

end LlmMemory
