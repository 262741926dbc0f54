import LlmMemory.System.Step

/-!
# The slots of the owners

A worker *holds* the slot of its owner from when its mode is dispatched until
it, or its outer task, releases it. The slots are counted (`SlotsCounted`): the
workers holding that of an owner are one if the owner is running, and none
otherwise. Every move of a worker keeps the count (`moves_count`), since it
either keeps both, or gives up the slot and clears the flag.
-/

namespace LlmMemory

open Runs

/-- A worker in this phase has claimed its slot, and not released it. -/
def Phase.holds : Phase → Bool
  | .claimed _ => true
  | .running _ => true
  | .ended r => r ≠ .ok
  | .observed r => r ≠ .ok
  | .released => false

/-- A worker in this phase was spawned, and its end not observed. -/
def Phase.inFlight : Phase → Bool
  | .running _ => true
  | .ended _ => true
  | _ => false

/-- The worker holds the slot of `k`. -/
def Worker.holdsSlot (k : OwnerKey) (w : Worker) : Bool := w.key = k ∧ w.phase.holds

/-- `1` if the owner is running. -/
def running (k : OwnerKey) (s : Shared) : ℕ := if s.map.isRunning k then 1 else 0

/-- The workers holding a slot are as many as it is running, and the gauge
    counts those in flight. -/
structure SlotsCounted (s : Sys) : Prop where
  slots : ∀ k, s.workers.countP (·.holdsSlot k) = running k s.shared
  gauge : s.shared.inFlight = s.workers.countP (·.phase.inFlight)

/-- An element is replaced, and counted or not. -/
theorem countP_set {α : Type} {p : α → Bool} {l : List α} {i : ℕ} {a b : α} (h : l[i]? = some a) :
    (l.set i b).countP p + (p a).toNat = l.countP p + (p b).toNat := by
  induction l generalizing i with
  | nil => cases h
  | cons c l ih =>
    cases i with
    | zero =>
      cases h
      simp only [List.set_cons_zero, List.countP_cons]
      cases p a <;> cases p b <;> simp +arith
    | succ i =>
      have := ih (i := i) h
      simp only [List.set_cons_succ, List.countP_cons]
      omega

theorem two_le_countP {α : Type} {p : α → Bool} {l : List α} {i j : ℕ} {a b : α} (hij : i ≠ j)
    (hi : l[i]? = some a) (hj : l[j]? = some b) (ha : p a) (hb : p b) : 2 ≤ l.countP p := by
  induction l generalizing i j with
  | nil => cases hi
  | cons c l ih =>
    have hpos : ∀ {n : ℕ} {x : α}, l[n]? = some x → p x → 0 < l.countP p := fun hn hx =>
      List.countP_pos_iff.2 ⟨_, List.mem_of_getElem? hn, hx⟩
    rw [List.countP_cons]
    cases i with
    | zero =>
      cases hi
      cases j with
      | zero => exact absurd rfl hij
      | succ j =>
        have := hpos hj hb
        simp only [ha, if_true]
        omega
    | succ i =>
      cases j with
      | zero =>
        cases hj
        have := hpos hi ha
        simp only [hb, if_true]
        omega
      | succ j =>
        have := ih (fun h => hij (congrArg _ h)) hi hj
        omega

/-- Two workers do not hold the same slot. -/
theorem SlotsCounted.unique {s : Sys} (h : SlotsCounted s) {k : OwnerKey} {i j : ℕ} {w w' : Worker}
    (hi : s.workers[i]? = some w) (hj : s.workers[j]? = some w') (hw : w.holdsSlot k)
    (hw' : w'.holdsSlot k) : i = j := by
  by_contra hij
  have h₂ := two_le_countP (p := (·.holdsSlot k)) hij hi hj hw hw'
  rw [h.slots k, running] at h₂
  split at h₂ <;> omega

/-! ## The flag -/

section Flag

variable {s s' : Shared} {key k : OwnerKey} {mode m : RebuildMode} {e' : RebuildState}

theorem running_congr (h : s'.map.entry k = s.map.entry k) : running k s' = running k s := by
  rw [running, running, StateMap.isRunning, StateMap.isRunning, h]

/-- The flag of an owner, once the entry of `key` is replaced. -/
theorem running_update (key : OwnerKey) (e' : RebuildState) (k : OwnerKey)
    (h : s'.map = Function.update s.map key (some e')) :
    running k s' = if k = key then e'.running.toNat else running k s := by
  by_cases hk : k = key
  · subst hk
    rw [running, StateMap.isRunning, h, StateMap.entry_update_self, if_pos rfl]
    cases e'.running <;> rfl
  · rw [if_neg hk]
    exact running_congr (h ▸ StateMap.entry_update_of_ne hk)

end Flag

/-! ## Steps -/

variable {fts : Fts} {s s' : Sys}

/-- The count is right as time passes. -/
theorem SlotsCounted.tick (h : SlotsCounted s) (dt : ℕ) (calls : List Call) :
    SlotsCounted { s.tick dt with calls := calls } :=
  ⟨h.slots, h.gauge⟩

theorem SlotsCounted.effect (h : SlotsCounted s) (e : Effect) : SlotsCounted (s.effect e) := by
  cases e with
  | insertRaw r => exact ⟨h.slots, h.gauge⟩
  | upsertSchema key content now => exact ⟨h.slots, h.gauge⟩
  | deleteUser u => exact ⟨h.slots, h.gauge⟩
  | tryStart key mode =>
    simp only [Sys.effect]
    split
    · -- The slot was free, and the new worker holds it.
      rename_i m sh ht
      obtain ⟨e', rfl, hr, he⟩ := Shared.tryStart_some ht
      have hr' : e'.running = true := by rcases he with ⟨_, _, _, rfl⟩ | ⟨_, _, rfl⟩ <;> rfl
      refine ⟨fun k => ?_, by simpa [List.countP_append, Phase.inFlight, Shared.noteDispatched]
        using h.gauge⟩
      have hk := h.slots k
      rw [running_update key e' k rfl, hr', List.countP_append, hk]
      by_cases hkey : k = key
      · subst hkey
        simp [running, StateMap.isRunning, hr, Worker.holdsSlot, Phase.holds]
      · simp [hkey, Worker.holdsSlot, Ne.symm hkey]
    · rename_i sh ht
      obtain ⟨e', rfl, hr, he⟩ := Shared.tryStart_none ht
      have hr' : e'.running = true := by rcases he with ⟨_, rfl⟩ | ⟨_, rfl⟩ <;> exact hr
      refine ⟨fun k => ?_, h.gauge⟩
      rw [running_update key e' k rfl, hr']
      by_cases hkey : k = key
      · subst hkey
        simpa [running, StateMap.isRunning, hr] using h.slots k
      · simpa [hkey] using h.slots k

theorem SlotsCounted.effects (h : SlotsCounted s) (es : List Effect) :
    SlotsCounted (es.foldl Sys.effect s) := by
  induction es generalizing s with
  | nil => exact h
  | cons e es ih => exact ih (h.effect e)

/-- The operations of a rebuild leave the map and the gauge as they are. -/
theorem perform_map {input : Input} {o : Op} {s s' : Shared} {r : o.Ans}
    (h : perform fts input o s = some (r, s')) : s'.map = s.map ∧ s'.inFlight = s.inFlight := by
  rcases perform_state h with rfl | h
  · exact ⟨rfl, rfl⟩
  · cases h <;> exact ⟨rfl, rfl⟩

/-- A worker holds no slot of another owner. -/
theorem holdsSlot_of_ne {w : Worker} {k : OwnerKey} (h : w.key ≠ k) : w.holdsSlot k = false := by
  simp [Worker.holdsSlot, h]

theorem holdsSlot_self {w : Worker} : w.holdsSlot w.key = w.phase.holds := by
  simp [Worker.holdsSlot]

/-- Where the slot is free, no worker is counted. -/
theorem running_of_clear {s : Shared} {k : OwnerKey} (h : (s.map.entry k).running = false) :
    running k s = 0 := by
  simp [running, StateMap.isRunning, h]

/-- What the outer task does to the slot of its owner. -/
theorem release_entry (s : Shared) (k : OwnerKey) (r : JoinResult) :
    (r = .ok ∧ s.release k r = s) ∨ (r ≠ .ok ∧ ((s.release k r).map.entry k).running = false) := by
  cases r with
  | ok => exact .inl ⟨rfl, rfl⟩
  | err =>
    refine .inr ⟨nofun, ?_⟩
    rw [Shared.release, StateMap.releaseRunningPreservePending_entry]
    rfl
  | panicked =>
    refine .inr ⟨nofun, ?_⟩
    rw [Shared.release, StateMap.forceIdle_entry]
  | joinError =>
    refine .inr ⟨nofun, ?_⟩
    rw [Shared.release, StateMap.forceIdle_entry]

/-- A release leaves the slots of the others. -/
theorem release_of_ne {s : Shared} {k key : OwnerKey} {r : JoinResult} (h : k ≠ key) :
    (s.release key r).map k = s.map k := by
  cases r with
  | ok => rfl
  | err => exact StateMap.releaseRunningPreservePending_of_ne h
  | panicked => exact StateMap.forceIdle_of_ne h
  | joinError => exact StateMap.forceIdle_of_ne h

theorem release_inFlight {s : Shared} {key : OwnerKey} {r : JoinResult} :
    (s.release key r).inFlight = s.inFlight := by
  cases r <;> rfl

/-- A move of a worker leaves the entries of other owners alone. -/
theorem moves_of_ne {e : Event} {w : Worker} {s s' : Shared} {p : Phase} {k : OwnerKey}
    (h : w.Moves fts e s p s') (hk : k ≠ w.key) : s'.map k = s.map k := by
  cases h with
  | spawn _ => rfl
  | thread _ _ ht =>
    rcases Effects.Thread.step_state ht with rfl | ⟨o, r, _, ho⟩
    · rfl
    · rw [(perform_map ho).1]
  | again _ => rfl
  | proceed _ hm =>
    obtain ⟨e', rfl, _⟩ := Shared.markIdleOrContinue_some hm
    exact Function.update_of_ne hk _ _
  | idle _ hm =>
    obtain ⟨_, _, rfl⟩ := Shared.markIdleOrContinue_none hm
    exact Function.update_of_ne hk _ _
  | err _ => rfl
  | abort _ _ _ => rfl
  | observe _ => rfl
  | release _ => exact release_of_ne hk

/-- A move of a worker keeps whether it holds its slot, and the flag, or gives
    up the slot, which clears the flag. -/
theorem moves_holds {e : Event} {w : Worker} {s s' : Shared} {p : Phase}
    (h : w.Moves fts e s p s') :
    (p.holds = w.phase.holds ∧ running w.key s' = running w.key s) ∨
      (w.phase.holds = true ∧ p.holds = false ∧ running w.key s' = 0) := by
  cases h with
  | spawn hp => exact .inl ⟨by rw [hp]; rfl, rfl⟩
  | thread hp _ ht =>
    refine .inl ⟨by rw [hp]; rfl, ?_⟩
    rcases Effects.Thread.step_state ht with rfl | ⟨o, r, _, ho⟩
    · rfl
    · exact running_congr (by rw [(perform_map ho).1])
  | again hp => exact .inl ⟨by rw [hp]; rfl, rfl⟩
  | proceed hp hm =>
    obtain ⟨e', rfl, he⟩ := Shared.markIdleOrContinue_some hm
    have hr : e'.running = (s.map.entry w.key).running := by
      rcases he with ⟨_, _, rfl⟩ | ⟨_, _, rfl⟩ <;> rfl
    refine .inl ⟨by rw [hp]; rfl, ?_⟩
    rw [running_update w.key e' _ rfl, if_pos rfl, hr, running, StateMap.isRunning]
    cases (s.map.entry w.key).running <;> rfl
  | idle hp hm =>
    obtain ⟨_, _, rfl⟩ := Shared.markIdleOrContinue_none hm
    exact .inr ⟨by rw [hp]; rfl, rfl, running_of_clear (by simp)⟩
  | err hp => exact .inl ⟨by rw [hp]; rfl, rfl⟩
  | abort hp hr _ => exact .inl ⟨by rw [hp]; simp [Phase.holds, hr], rfl⟩
  | observe hp => exact .inl ⟨by rw [hp]; rfl, rfl⟩
  | @release r hp =>
    rcases release_entry s w.key r with ⟨rfl, h⟩ | ⟨hr, h⟩
    · exact .inl ⟨by rw [hp]; rfl, by rw [h]⟩
    · exact .inr ⟨by rw [hp]; simp [Phase.holds, hr], rfl, running_of_clear h⟩

/-- A worker that released its slot, and its outer task, change the gauge only. -/
theorem moves_released {e : Event} {w : Worker} {s s' : Shared} {p : Phase}
    (h : w.Moves fts e s p s') (hw : w.phase.holds = false) :
    s' = s ∨ ∃ n, s' = { s with inFlight := n } := by
  cases h with
  | spawn hp => rw [hp] at hw; cases hw
  | thread hp _ _ => rw [hp] at hw; cases hw
  | again hp => rw [hp] at hw; cases hw
  | proceed hp _ => rw [hp] at hw; cases hw
  | idle hp _ => rw [hp] at hw; cases hw
  | err hp => rw [hp] at hw; cases hw
  | abort hp _ _ => rw [hp] at hw; cases hw
  | observe _ => exact .inr ⟨_, rfl⟩
  | @release r hp =>
    have hr : r = .ok := by simpa [hp, Phase.holds] using hw
    exact .inl (hr ▸ rfl)

/-- The gauge counts a worker from when it is spawned until its end is
    observed. -/
theorem moves_inFlight {e : Event} {w : Worker} {s s' : Shared} {p : Phase}
    (h : w.Moves fts e s p s') :
    s'.inFlight + w.phase.inFlight.toNat = s.inFlight + p.inFlight.toNat := by
  cases h with
  | spawn hp => rw [hp]; simp [Phase.inFlight, Worker.start]
  | thread hp _ ht =>
    rcases Effects.Thread.step_state ht with rfl | ⟨o, r, _, ho⟩
    · rw [hp]; rfl
    · rw [hp, (perform_map ho).2]; rfl
  | again hp => rw [hp]; rfl
  | proceed hp hm =>
    obtain ⟨e', rfl, _⟩ := Shared.markIdleOrContinue_some hm
    rw [hp]; rfl
  | idle hp hm =>
    obtain ⟨_, _, rfl⟩ := Shared.markIdleOrContinue_none hm
    rw [hp]; rfl
  | err hp => rw [hp]; rfl
  | abort hp _ _ => rw [hp]; rfl
  | observe hp => rw [hp]; simp [Phase.inFlight]
  | release hp => rw [hp, release_inFlight]; rfl

/-- A move of a worker keeps the count. -/
theorem SlotsCounted.moves {i : ℕ} {w : Worker} {p : Phase} {sh : Shared} {e : Event}
    (h : SlotsCounted s) (hi : s.workers[i]? = some w) (hm : w.Moves fts e s.shared p sh) :
    SlotsCounted (s.setWorker i { w with phase := p } sh) := by
  refine ⟨fun k => ?_, ?_⟩
  · have hcount := countP_set (p := (·.holdsSlot k)) (b := { w with phase := p }) hi
    have hk := h.slots k
    by_cases hkey : k = w.key
    · subst hkey
      rw [holdsSlot_self, holdsSlot_self (w := { w with phase := p })] at hcount
      have hle : running w.key s.shared ≤ 1 := by unfold running; split <;> decide
      rcases moves_holds hm with ⟨h₁, h₂⟩ | ⟨h₁, h₂, h₃⟩
      · simp only [Sys.setWorker]
        rw [h₁] at hcount
        omega
      · simp only [Sys.setWorker]
        rw [h₁, h₂] at hcount
        simp only [Bool.toNat_true, Bool.toNat_false] at hcount
        omega
    · have h₁ := holdsSlot_of_ne (w := w) (Ne.symm hkey)
      have h₂ := holdsSlot_of_ne (w := { w with phase := p }) (Ne.symm hkey)
      have h₃ := running_congr (congrArg (·.getD {}) (moves_of_ne hm hkey))
      rw [h₁, h₂] at hcount
      simp only [Sys.setWorker]
      omega
  · have hcount := countP_set (p := (·.phase.inFlight)) (b := { w with phase := p }) hi
    have hg := h.gauge
    have hm' := moves_inFlight hm
    simp only [Sys.setWorker] at hcount ⊢
    omega

theorem SlotsCounted.step {l : Step} (h : SlotsCounted s) (hs : s.step fts l = some s') :
    SlotsCounted s' := by
  rcases Sys.step_cases hs with ⟨es, calls, _, rfl⟩ | ⟨i, w, p, sh, _, hi, hm, rfl⟩
  · exact (h.tick l.dt calls).effects es
  · exact SlotsCounted.moves (h.tick l.dt s.calls) hi hm

/-- In every state reached, the slots are counted. -/
theorem reach_slotsCounted {ok : Sys → Step → Prop} (h : Reach Boot (Sys.step fts) ok s) :
    SlotsCounted s := by
  refine h.invariant (fun s hs => ?_) fun s l s' _ hs _ hst => hs.step hst
  refine ⟨fun k => ?_, ?_⟩
  · rw [hs.workers, running, StateMap.isRunning, hs.map]
    rfl
  · rw [hs.workers, hs.inFlight]
    rfl

/-! ## At most one worker per owner -/

/-- In every state reached, an owner has at most one worker holding its slot,
    and is running if and only if it has one; a worker and its outer task leave
    alone the entries of the owners whose slot another worker holds; and the
    gauge is the number of workers whose end has not been observed. -/
theorem one_worker_per_owner (h : Reach Boot (Sys.step fts) (fun _ _ => True) s) :
    (∀ k, (s.workers.filter (·.holdsSlot k)).length ≤ 1) ∧
    (∀ k, s.shared.map.isRunning k = true ↔ ∃ w ∈ s.workers, w.holdsSlot k) ∧
    (∀ (i : ℕ) (l : Step) (s' : Sys), l.event.worker? = some i → s.step fts l = some s' →
      ∀ k, (∃ (j : ℕ) (w : Worker), j ≠ i ∧ s.workers[j]? = some w ∧ w.holdsSlot k) →
        s'.shared.map.entry k = s.shared.map.entry k) ∧
    s.shared.inFlight = (s.workers.filter (·.phase.inFlight)).length := by
  have hc := reach_slotsCounted h
  have hle : ∀ k, (s.workers.filter (·.holdsSlot k)).length ≤ 1 := fun k => by
    rw [← List.countP_eq_length_filter, hc.slots k, running]
    split <;> decide
  refine ⟨hle, fun k => ?_, fun i l s' hl hs k hk => ?_, ?_⟩
  · rw [← List.countP_pos_iff, hc.slots k, running]
    split <;> simp_all
  · obtain ⟨j, w', hne, hj, hw'⟩ := hk
    rcases Sys.step_cases hs with ⟨_, _, he, _⟩ | ⟨i', w, p, sh, hi', hi, hm, rfl⟩
    · cases hev : l.event <;> simp [hev, Sys.effects, Event.worker?] at he hl
    · obtain rfl : i = i' := Option.some.inj (hl.symm.trans hi')
      by_cases hkey : k = w.key
      · -- The slot is held by another worker, so this one released it before.
        have hw : w.phase.holds = false := Bool.eq_false_iff.2 fun hh =>
          hne (hc.unique hj hi hw' (by rw [hkey, holdsSlot_self, hh]))
        rcases moves_released hm hw with rfl | ⟨n, rfl⟩ <;> rfl
      · exact congrArg (·.getD {}) (moves_of_ne hm hkey)
  · rw [hc.gauge, List.countP_eq_length_filter]

/-- A run where a worker fails, and another one is started after it. -/
def restartedRun : List Step :=
  [.rawAppend "u" ⟨"title", "content", "manual", none⟩ "r1", .worker 0 .main .ok,
    .worker 0 .main .ok, .worker 0 .main .fail, .request "u" (.wikiRebuild none), .call 0 "" true,
    .worker 0 .main .ok, .worker 0 .main .ok, .worker 0 .main .ok,
    .rawAppend "u" ⟨"title", "content", "manual", none⟩ "r2", .worker 1 .main .ok].map fun e => ⟨1, e⟩

theorem one_worker_per_owner_restarted : ∃ s : Sys, s.workers.length = 2 ∧
    (s.workers.filter (·.holdsSlot (.personal "u"))).length ≤ 1 ∧
    s.shared.inFlight = (s.workers.filter (·.phase.inFlight)).length := by
  obtain ⟨s, hs, hlen⟩ : ∃ s, exec (Sys.step Fts.nothing) (fun _ _ => true) (.fresh "u" 1)
      restartedRun = some s ∧ s.workers.length = 2 :=
    Option.map_eq_some_iff.1 (by decide)
  have h := one_worker_per_owner (.exec (fun _ _ _ => trivial) (.init (Sys.fresh_boot _ _)) hs)
  exact ⟨s, hlen, h.1 _, h.2.2.2⟩

end LlmMemory
