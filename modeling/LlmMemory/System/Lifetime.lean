import LlmMemory.Lib.Ghosts
import LlmMemory.Lib.Termination
import LlmMemory.System.Slots

/-!
# The life of a worker

What a worker does from when its mode is dispatched until it ends is noted (`Life`),
along the run of the whole system (`watch`): the requests it sees, its sessions, its
calls of `markIdleOrContinue`, the extra appends it forces.

A session starts with locals that say how many of these there were since the last call
(`InSession`), and its result, with what the lookup of the remaining raws found, keeps
this for the next one (`Turn`). A call takes one of the flags that are recorded for the
owner, of which a request sets one, so there are only so many sessions.
-/

namespace LlmMemory

open Effects Runs

/-! ## What is noted -/

/-- What the program of a worker was seen to do: the iterations of its session, whether
    the remaining raws were looked up in it, and whether such a lookup, in any session,
    failed or found some. -/
structure Seen where
  iterations : ℕ := 0
  looked : Bool := false
  met : Bool := false
  deriving DecidableEq, Repr

/-- The lookup fails, or finds raws. -/
def remains (r : Except CoordinatorError (List Raw)) : Bool :=
  (r.toOption.map fun rs => decide (0 < rs.length)).getD true

/-- What is noted of an operation. -/
def Seen.note (g : Seen) : (o : Op) → o.Ans → Seen
  | .startSession _ _, _ => { g with iterations := g.iterations + 1 }
  | .lookupRemaining _ _ _, r => { g with looked := true, met := g.met || remains r }
  | _, _ => g

/-- The life of a worker so far: the requests for its owner that came while it worked,
    the sessions it started, the calls of `markIdleOrContinue`, the sessions since the
    last one, and the appends it forced. -/
structure Life where
  requests : ℕ := 0
  sessions : ℕ := 0
  marks : ℕ := 0
  sinceMark : ℕ := 0
  forced : ℕ := 0
  seen : Seen := {}
  deriving DecidableEq, Repr

/-- The operation starts an iteration. -/
def Op.startsIteration : Op → Bool
  | .startSession _ _ => true
  | _ => false

/-- The effect is a request for a rebuild of `k`. -/
def Effect.requests (k : OwnerKey) : Effect → Bool
  | .tryStart key _ => key = k
  | _ => false

/-- The requests for a rebuild of `k` among the effects of an event. -/
def Sys.requestsFor (s : Sys) (k : OwnerKey) (e : Event) : ℕ :=
  (s.effects e).elim 0 fun x => x.1.countP (·.requests k)

/-- The worker has not ended yet. -/
def Phase.works : Phase → Bool
  | .claimed _ => true
  | .running _ => true
  | _ => false

namespace Life

/-- A session starts. -/
def start (l : Life) : Life :=
  { l with sessions := l.sessions + 1, sinceMark := l.sinceMark + 1,
           seen := { l.seen with iterations := 0, looked := false } }

/-- What is recorded for the owner is taken. -/
def mark (l : Life) : Life := { l with marks := l.marks + 1, sinceMark := 0 }

/-- Another session at once. The count of the sessions cut short is only set back for
    a forced append. -/
def again (l : Life) (loc : Locals) : Life :=
  { l.start with forced := l.forced + if loc.consecutiveCaps = 0 then 1 else 0 }

/-- A move of the worker. -/
def move (fts : Fts) (input : Input) (w : Worker) (s : Shared) (l : Life) : Life :=
  match w.phase with
  | .claimed _ => l.start
  | .running (.seq (.ret (.ok (.again loc)))) => l.again loc
  | .running (.seq (.ret (.ok (.markIdleOrContinue _ _)))) =>
    match s.markIdleOrContinue w.key with
    | (some _, _) => l.mark.start
    | (none, _) => l.mark
  | .running th => { l with seen := th.noted Seen.note (perform fts input) l.seen s }
  | _ => l

/-- The life of the `i`-th worker after an event. -/
def after (fts : Fts) (i : ℕ) (s : Sys) (e : Event) (l : Life) : Life :=
  match s.workers[i]? with
  | none => l
  | some w =>
    match e with
    | .worker j _ input => if j = i then l.move fts input w s.shared else l
    | _ =>
      if w.phase.works then { l with requests := l.requests + s.requestsFor w.key e } else l

end Life

/-- A step of the system, the `i`-th worker being watched. -/
def watch (fts : Fts) (i : ℕ) (x : Sys × Life) (l : Step) : Option (Sys × Life) :=
  (x.1.step fts l).map fun s' => (s', x.2.after fts i (x.1.tick l.dt) l.event)

/-! ## A turn of the loop -/

/-- The session may do another iteration. -/
def Unfinished (g : Seen) (o : Op) : Prop := o.startsIteration = true → g.iterations < MAX_ITERATIONS

/-- The operation is neither the start of an iteration, nor a lookup of the raws that
    remain. -/
def Op.Plain : Op → Prop
  | .startSession _ _ => False
  | .lookupRemaining _ _ _ => False
  | _ => True

/-- A plain operation is not noted. -/
theorem Op.Plain.unnoted {g : Seen} (o : Op) (h : o.Plain) :
    Unfinished g o ∧ ∀ r, g.note o r = g := by
  cases o <;> first | exact h.elim | exact ⟨nofun, fun _ => rfl⟩

/-- How a session that started with the locals `l` is followed, given what was seen: raws
    remained at some lookup if and only if the extra append was used. What is recorded is
    taken after a session that was not cut short, or after a lookup. -/
def Turn (l : Locals) (g : Seen) : Next → Prop
  | .markIdleOrContinue caps used => used = l.remainderDrainUsed ∧ g.met = used ∧
      (caps = 0 ∨ (MAX_CONSECUTIVE_CAPS ≤ caps ∧ g.looked = true))
  | .again l' => l'.mode = .append ∧ g.met = l'.remainderDrainUsed ∧
      ((l.consecutiveCaps + 1 < MAX_CONSECUTIVE_CAPS ∧
          l'.consecutiveCaps = l.consecutiveCaps + 1 ∧
          l'.remainderDrainUsed = l.remainderDrainUsed) ∨
        (l.remainderDrainUsed = false ∧ l'.consecutiveCaps = 0 ∧ l'.remainderDrainUsed = true))

namespace Seen

open Attempt.Notes

variable {k : OwnerKey} {g : Seen}

theorem plan_plain {newRaws : List Raw} {existing : List String} (mode : RebuildMode) :
    (plan k newRaws existing mode).Only Op.Plain fun _ => False := by
  cases mode with
  | append =>
    rw [plan]
    split
    · exact .pure
    · refine .andThen (.andThen (.call trivial) fun _ => .call trivial) fun _ => ?_
      exact .andThen (.call trivial) fun _ => .pure
  | manual c =>
    cases c with
    | none => exact .pure
    | some c =>
      rw [plan]
      split
      · exact .pure
      · refine .andThen (.call trivial) fun n => ?_
        split <;> exact .pure

/-- A query that is not noted. -/
theorem query_plain {α : Type} {o : Op} {f : o.Ans → Except CoordinatorError α}
    {B : Seen → α → Prop} (ho : o.Plain) (h : ∀ a, B g a) :
    (query o f : Rebuild α).Notes note Unfinished B (fun _ => True) g := by
  refine call (ho.unnoted o).1 fun r => ?_
  rw [(ho.unnoted o).2 r]
  cases f r with
  | ok a => exact h a
  | error e => exact trivial

/-- The iterations of a session that are left, all that were not done yet. -/
theorem iterate_notes (left : ℕ) (mode : RebuildMode) (h : g.iterations + left ≤ MAX_ITERATIONS) :
    (iterate k left mode).Notes note Unfinished (fun g' _ => g'.met = g.met) (fun _ => True) g := by
  induction left generalizing mode g with
  | zero => exact pure rfl
  | succ left ih =>
    refine andThen (B := fun g' _ => g' = { g with iterations := g.iterations + 1 })
      (call (fun _ => by omega) fun _ => by exact rfl) ?_
    rintro _ startedAt rfl
    -- the rest of the loop has one iteration less, and the budget has one more used
    have hnext : ∀ mode, (iterate k left mode).Notes note Unfinished
        (fun g' _ => g'.met = g.met) (fun _ => True) { g with iterations := g.iterations + 1 } :=
      fun mode => ih (g := { g with iterations := g.iterations + 1 }) mode (by dsimp only; omega)
    refine andThen (B := fun g' _ => g' = { g with iterations := g.iterations + 1 })
      (query_plain trivial fun _ => rfl) ?_
    rintro _ watermark rfl
    refine andThen (B := fun g' _ => g' = { g with iterations := g.iterations + 1 })
      (query_plain trivial fun _ => rfl) ?_
    rintro _ newRaws rfl
    refine andThen (B := fun g' _ => g' = { g with iterations := g.iterations + 1 })
      (query_plain trivial fun _ => rfl) ?_
    rintro _ existing rfl
    refine andThen (unnoted (plan_plain mode) Op.Plain.unnoted trivial) ?_
    rintro _ p rfl
    -- the outcomes of the plan: done, one more iteration, or pages to synthesize
    cases p with
    | drained => exact pure rfl
    | rejected => exact hnext _
    | synthesize affected =>
      show Attempt.Notes _ _ _ _ _ (if affected.isEmpty then _ else _)
      split
      · exact pure rfl
      · refine andThen (B := fun g' _ => g' = { g with iterations := g.iterations + 1 })
          (fork (by decide) rfl) ?_
        rintro _ _ rfl
        split
        · exact pure rfl
        · exact hnext _

/-- The lookup of the raws that remain is noted. -/
theorem lookupRemaining_notes {watermark : Int} : (lookupRemaining k watermark).Notes note
    Unfinished (fun g' rs => g'.looked = true ∧
      g'.met = (g.met || (rs.map fun rs => decide (0 < rs.length)).getD true)) (fun _ => True) g := by
  refine andThen (B := fun g' _ => g' = g) (call nofun fun _ => by exact rfl) ?_
  rintro _ now rfl
  exact call nofun fun r => ⟨rfl, rfl⟩

/-- A turn of the loop. -/
theorem runWorker_notes (l : Locals) (h : g.iterations = 0) (hmet : g.met = l.remainderDrainUsed) :
    (runWorker k l).Notes note Unfinished (Turn l) (fun _ => True) g := by
  refine andThen (iterate_notes MAX_ITERATIONS l.mode (by rw [h, Nat.zero_add])) ?_
  rintro g' (_ | _) hg'
  · exact pure ⟨rfl, hg'.trans hmet, .inl rfl⟩
  · dsimp only
    split
    · rename_i hcaps
      refine andThen (B := fun g' _ => g'.met = g.met) (query_plain trivial fun _ => hg') ?_
      intro g₁ watermark hg₁
      -- the remainder is drained once, by a further append, if raws remained and it was not before
      refine andThen lookupRemaining_notes ?_
      intro g₂ remaining hlook
      obtain ⟨hlooked, hg₂⟩ := hlook
      rw [hg₁, hmet] at hg₂
      cases hr : (remaining.map fun rs => decide (0 < rs.length)).getD true <;>
        cases hu : l.remainderDrainUsed <;> rw [hr, hu] at hg₂ <;>
        simp only [Bool.not_false, Bool.not_true, and_self, and_false, Bool.false_eq_true, if_true,
          if_false]
      · exact pure ⟨hu.symm, hg₂, .inr ⟨hcaps, hlooked⟩⟩
      · exact pure ⟨hu.symm, hg₂, .inr ⟨hcaps, hlooked⟩⟩
      · exact pure ⟨rfl, hg₂, .inr ⟨hu, rfl, rfl⟩⟩
      · exact pure ⟨hu.symm, hg₂, .inr ⟨hcaps, hlooked⟩⟩
    · rename_i hcaps
      exact pure ⟨rfl, hg'.trans hmet, .inl ⟨not_le.1 hcaps, rfl, rfl⟩⟩

end Seen

/-! ## What is recorded for the owner -/

/-- How many of the flags are set. -/
def RebuildState.flags (e : RebuildState) : ℕ := e.appendMissed.toNat + e.manualPending.isSome.toNat

theorem RebuildState.flags_le (e : RebuildState) : e.flags ≤ 2 := by
  have h₁ := Bool.toNat_le e.appendMissed
  have h₂ := Bool.toNat_le e.manualPending.isSome
  unfold flags
  omega

/-- A request seen by a running worker sets at most one more flag. -/
theorem flags_tryStart {s s' : Shared} {key : OwnerKey} {mode : RebuildMode}
    (h : s.tryStart key mode = (none, s')) :
    (s'.map.entry key).flags ≤ (s.map.entry key).flags + 1 := by
  obtain ⟨e', rfl, _, ⟨_, rfl⟩ | ⟨_, rfl⟩⟩ := Shared.tryStart_none h
  · have := Bool.toNat_le (s.map.entry key).appendMissed
    simp only [StateMap.entry_update_self, RebuildState.flags, Bool.toNat_true]
    omega
  · have := Bool.toNat_le (s.map.entry key).manualPending.isSome
    simp only [StateMap.entry_update_self, RebuildState.flags, Option.isSome_some, Bool.toNat_true]
    omega

/-- A session that is followed by what is recorded takes a flag. -/
theorem flags_proceed {s s' : Shared} {key : OwnerKey} {mode : RebuildMode}
    (h : s.markIdleOrContinue key = (some mode, s')) :
    (s'.map.entry key).flags + 1 = (s.map.entry key).flags := by
  obtain ⟨e', rfl, ⟨hm, _, rfl⟩ | ⟨hm, hp, rfl⟩⟩ := Shared.markIdleOrContinue_some h
  · simp only [Shared.noteDispatched, StateMap.entry_update_self, RebuildState.flags, hm,
      Bool.toNat_true, Bool.toNat_false]
    omega
  · simp only [Shared.noteDispatched, StateMap.entry_update_self, RebuildState.flags, hm, hp,
      Option.isSome_some, Option.isSome_none, Bool.toNat_true, Bool.toNat_false]

/-- The effects of an event leave the workers there are. -/
theorem workers_effects (es : List Effect) (s : Sys) :
    s.workers <+: (es.foldl Sys.effect s).workers := by
  induction es generalizing s with
  | nil => exact List.prefix_rfl
  | cons e es ih =>
    refine List.IsPrefix.trans ?_ (ih (s.effect e))
    cases e with
    | tryStart key mode =>
      rw [Sys.effect]
      split
      · exact List.prefix_append _ _
      · exact List.prefix_rfl
    | _ => exact List.prefix_rfl

/-- Where `k` is running, the effects of an event set at most as many flags as there are
    requests among them. -/
theorem flags_effects {k : OwnerKey} (es : List Effect) {s : Sys}
    (h : (s.shared.map.entry k).running = true) :
    ((es.foldl Sys.effect s).shared.map.entry k).flags ≤
      (s.shared.map.entry k).flags + es.countP (·.requests k) := by
  induction es generalizing s with
  | nil => exact le_rfl
  | cons e es ih =>
    rw [List.foldl_cons, List.countP_cons]
    have hstep : ((s.effect e).shared.map.entry k).running = true ∧
        ((s.effect e).shared.map.entry k).flags ≤
          (s.shared.map.entry k).flags + (if e.requests k then 1 else 0) := by
      cases e with
      | tryStart key mode =>
        simp only [Sys.effect, Effect.requests, decide_eq_true_eq]
        by_cases hk : key = k
        · subst hk
          split
          -- the slot is held, so that the request starts nothing
          · rename_i m sh ht
            obtain ⟨_, _, hfree, _⟩ := Shared.tryStart_some ht
            rw [h] at hfree
            cases hfree
          · rename_i sh ht
            refine ⟨?_, by rw [if_pos rfl]; exact flags_tryStart ht⟩
            obtain ⟨e', rfl, hr, ⟨_, rfl⟩ | ⟨_, rfl⟩⟩ := Shared.tryStart_none ht
            · simpa using hr
            · simpa using hr
        -- a request for another owner
        · have hne : k ≠ key := Ne.symm hk
          split
          · rename_i m sh ht
            obtain ⟨e', rfl, _⟩ := Shared.tryStart_some ht
            simp only [Shared.noteDispatched, StateMap.entry_update_of_ne hne]
            exact ⟨h, Nat.le_add_right _ _⟩
          · rename_i sh ht
            obtain ⟨e', rfl, _⟩ := Shared.tryStart_none ht
            simp only [StateMap.entry_update_of_ne hne]
            exact ⟨h, Nat.le_add_right _ _⟩
      | _ => exact ⟨h, Nat.le_add_right _ _⟩
    have hrest := ih hstep.1
    have hflags := hstep.2
    omega

/-! ## The bounds -/

/-- The bounds on the life of a worker that started with `f` flags. -/
structure Bounded (f : ℕ) (l : Life) : Prop where
  sinceMark : l.sinceMark ≤ 2 * MAX_CONSECUTIVE_CAPS
  forced : l.forced ≤ 1
  iterations : l.seen.iterations ≤ MAX_ITERATIONS
  sessions : l.sessions ≤ 2 * MAX_CONSECUTIVE_CAPS * (l.requests + f + 1)

/-- A session that started with the locals `loc` is going on, and `flags` are set. -/
structure InSession (f flags : ℕ) (loc : Locals) (l : Life) : Prop where
  streak : l.sinceMark ≤ loc.consecutiveCaps + 1 +
    if loc.remainderDrainUsed then MAX_CONSECUTIVE_CAPS else 0
  low : loc.consecutiveCaps < MAX_CONSECUTIVE_CAPS ∨ l.sinceMark ≤ 1
  forced : l.forced = if loc.remainderDrainUsed then 1 else 0
  iterations : l.seen.iterations ≤ MAX_ITERATIONS
  sessions : l.sessions ≤ 2 * MAX_CONSECUTIVE_CAPS * l.marks + l.sinceMark
  flags : l.marks + flags ≤ f + l.requests

namespace InSession

variable {f flags : ℕ} {loc : Locals} {l : Life}

/-- The life within a session is bounded. -/
theorem bounded (h : InSession f flags loc l) : Bounded f l := by
  have hsince : l.sinceMark ≤ 2 * MAX_CONSECUTIVE_CAPS := by
    have hstreak := h.streak
    have hlow := h.low
    unfold MAX_CONSECUTIVE_CAPS at *
    split at hstreak <;> omega
  refine ⟨hsince, ?_, h.iterations, ?_⟩
  · rw [h.forced]
    split <;> decide
  · have hsessions := h.sessions
    have hflags := h.flags
    unfold MAX_CONSECUTIVE_CAPS at *
    omega

/-- The first session. -/
theorem first {mode : RebuildMode} {n : ℕ} (h : flags ≤ f + n) :
    InSession f flags { mode := mode } ({ requests := n } : Life).start :=
  ⟨le_rfl, .inl (Nat.succ_pos 2), rfl, Nat.zero_le _, by simp [Life.start],
    by simpa [Life.start] using h⟩

/-- What is noted of the program leaves the counts. -/
theorem seen (h : InSession f flags loc l) {g : Seen} (hg : g.iterations ≤ MAX_ITERATIONS) :
    InSession f flags loc { l with seen := g } :=
  ⟨h.streak, h.low, h.forced, hg, h.sessions, h.flags⟩

/-- Requests are seen, which set flags. -/
theorem request (h : InSession f flags loc l) {n flags' : ℕ} (hn : flags' ≤ flags + n) :
    InSession f flags' loc { l with requests := l.requests + n } := by
  refine ⟨h.streak, h.low, h.forced, h.iterations, h.sessions, ?_⟩
  have := h.flags
  dsimp only
  omega

/-- Another session at once. -/
theorem again (h : InSession f flags loc l) {loc' : Locals} (ht : Turn loc l.seen (.again loc')) :
    InSession f flags loc' (l.again loc') := by
  obtain ⟨_, _, ⟨hlt, hc, hu⟩ | ⟨hused, hc, hu⟩⟩ := ht
  · -- the streak goes on
    refine ⟨?_, .inl (hc ▸ hlt), ?_, Nat.zero_le _, ?_, h.flags⟩
    · have := h.streak
      rw [hu, hc]
      simp only [Life.again, Life.start]
      omega
    · rw [hu, ← h.forced, Life.again, hc]
      simp
    · have := h.sessions
      simp only [Life.again, Life.start]
      omega
  · -- the extra append
    have hstreak := h.streak
    have hlow := h.low
    have hforced := h.forced
    rw [hused] at hstreak hforced
    refine ⟨?_, .inl (by rw [hc]; decide), ?_, Nat.zero_le _, ?_, h.flags⟩
    · rw [hu, hc]
      simp only [Life.again, Life.start, Bool.false_eq_true, if_true, if_false] at hstreak ⊢
      unfold MAX_CONSECUTIVE_CAPS at *
      omega
    · rw [hu, Life.again, hc, hforced]
      rfl
    · have := h.sessions
      simp only [Life.again, Life.start]
      omega

/-- The next session, of what was recorded. -/
theorem proceed (h : InSession f flags loc l) {mode : RebuildMode} {caps flags' : ℕ} {used : Bool}
    (ht : Turn loc l.seen (.markIdleOrContinue caps used)) (hf : flags' + 1 = flags) :
    InSession f flags' ⟨mode, caps, used⟩ l.mark.start := by
  obtain ⟨rfl, _⟩ := ht
  have hb := h.bounded.sinceMark
  refine ⟨?_, .inr le_rfl, h.forced, Nat.zero_le _, ?_, ?_⟩
  · simp only [Life.mark, Life.start]
    omega
  · have := h.sessions
    simp only [Life.mark, Life.start]
    unfold MAX_CONSECUTIVE_CAPS at *
    omega
  · have := h.flags
    simp only [Life.mark, Life.start]
    omega

end InSession

theorem Bounded.mark {f : ℕ} {l : Life} (h : Bounded f l) : Bounded f l.mark :=
  ⟨Nat.zero_le _, h.forced, h.iterations, h.sessions⟩

/-! ## Runs -/

/-- What is kept of a worker that started with `f` flags, its owner having the entry
    `e`. -/
def Alive (f : ℕ) (e : RebuildState) (l : Life) : Phase → Prop
  | .claimed _ => l = { requests := l.requests } ∧ e.flags ≤ f + l.requests
  | .running th => ∃ loc, InSession f e.flags loc l ∧
      th.Notes Seen.note Unfinished (Result (Turn loc) fun _ => True) l.seen
  | _ => Bounded f l

namespace Alive

variable {f : ℕ} {e : RebuildState} {l : Life} {p : Phase}

theorem bounded (h : Alive f e l p) : Bounded f l := by
  cases p with
  | claimed mode =>
    obtain ⟨hl, _⟩ := h
    rw [hl]
    exact ⟨Nat.zero_le _, Nat.zero_le _, Nat.zero_le _, Nat.zero_le _⟩
  | running th =>
    obtain ⟨loc, hs, _⟩ := h
    exact hs.bounded
  | ended r => exact h
  | observed r => exact h
  | released => exact h

/-- Requests are seen, which set flags. -/
theorem request (h : Alive f e l p) {e' : RebuildState} {n : ℕ} (hw : p.works = true)
    (hn : e'.flags ≤ e.flags + n) : Alive f e' { l with requests := l.requests + n } p := by
  cases p with
  | claimed mode =>
    obtain ⟨hl, hflags⟩ := h
    refine ⟨by rw [hl], ?_⟩
    dsimp only
    omega
  | running th =>
    obtain ⟨loc, hs, hth⟩ := h
    exact ⟨loc, hs.request hn, hth⟩
  | ended r => cases hw
  | observed r => cases hw
  | released => cases hw

/-- A session starts. -/
theorem start {k : OwnerKey} {loc : Locals} (h : InSession f e.flags loc l)
    (hi : l.seen.iterations = 0) (hm : l.seen.met = loc.remainderDrainUsed) :
    Alive f e l (Worker.start k loc) :=
  ⟨loc, h, Seen.runWorker_notes loc hi hm⟩

end Alive

/-- What is noted of a step of the program is within the limit of the iterations. -/
theorem noted_iterations {α : Type} {Q : Seen → α → Prop} {th : Thread RebuildSig α} {g : Seen}
    {act : (o : Op) → Shared → Option (o.Ans × Shared)} {s : Shared}
    (h : th.Notes Seen.note Unfinished Q g) (hg : g.iterations ≤ MAX_ITERATIONS) :
    (th.noted Seen.note act g s).iterations ≤ MAX_ITERATIONS := by
  cases th with
  | par n run w k => exact hg
  | seq p =>
    cases p with
    | ret a => exact hg
    | fork n ts k => exact hg
    | op o k =>
      rw [Thread.noted]
      cases act o s with
      | none => exact hg
      | some x =>
        cases o
        case startSession => exact h.1 rfl
        all_goals exact hg

theorem synthesizeTask_forks_none (t : SynthTask) :
    (synthesizeTask t).Only (fun _ => True) fun _ => False :=
  (synthesizeTask_only rfl).mono fun _ _ => trivial

variable {fts : Fts} {f i : ℕ} {s : Sys} {l : Life}

/-- What is noted of a step of the program. -/
theorem Life.move_thread {input : Input} {w : Worker} {sh : Shared}
    {th : Thread RebuildSig (Except CoordinatorError Next)} (hp : w.phase = .running th)
    (hth : ∀ r, th ≠ .seq (.ret r)) : l.move fts input w sh =
      { l with seen := th.noted Seen.note (perform fts input) l.seen sh } := by
  rw [Life.move, hp]
  split
  · rename_i h
    cases h
  · rename_i h
    cases h
    exact absurd rfl (hth _)
  · rename_i h
    cases h
    exact absurd rfl (hth _)
  · rename_i h
    cases h
    rfl
  · rename_i h
    exact absurd rfl (h _)

/-- A thread that is done does not step. -/
theorem step_ne_ret {α : Type} {code : SynthTask → Prog RebuildSig Unit} {m : Move}
    {act : (o : Op) → Shared → Option (o.Ans × Shared)} {th th' : Thread RebuildSig α}
    {sh sh' : Shared} (h : th.step code act m sh = some (th', sh')) (r : α) :
    th ≠ .seq (.ret r) := by
  rintro rfl
  cases m <;> cases h

/-- A step of the worker, and what is noted of it. -/
theorem Alive.step {input : Input} {m : Move} {w : Worker} {sh sh' : Shared} {p : Phase}
    (h : Alive f (sh.map.entry w.key) l w.phase) (hs : w.step fts input m sh = some (p, sh')) :
    Alive f (sh'.map.entry w.key) (l.move fts input w sh) p := by
  cases Worker.step_moves (e := .worker 0 m input) ⟨0, rfl⟩ hs with
  | @spawn mode hp =>
    rw [hp] at h
    obtain ⟨hl, hflags⟩ := h
    rw [Life.move, hp, hl]
    exact Alive.start (.first hflags) rfl rfl
  | thread hp he ht =>
    obtain ⟨_, he⟩ := he
    cases he
    rw [Life.move_thread hp (step_ne_ret ht)]
    rw [hp] at h
    obtain ⟨loc, hsess, hth⟩ := h
    -- no operation of the program touches the entry, only what comes after it does
    have hentry : sh'.map = sh.map := by
      rcases Effects.Thread.step_state ht with rfl | ⟨o, r, _, ho⟩
      · rfl
      · exact (perform_map ho).1
    rw [hentry]
    exact ⟨loc, hsess.seen (noted_iterations hth hsess.iterations),
      hth.step synthesizeTask_forks_none ht⟩
  | @again loc' hp =>
    rw [hp] at h
    obtain ⟨loc, hsess, hth⟩ := h
    have hturn : Turn loc l.seen (.again loc') := hth.ret
    rw [Life.move, hp]
    exact Alive.start (hsess.again hturn) rfl hturn.2.1
  | @proceed caps used mode _ hp hm =>
    rw [hp] at h
    obtain ⟨loc, hsess, hth⟩ := h
    have hturn : Turn loc l.seen (.markIdleOrContinue caps used) := hth.ret
    simp only [Life.move, hp, hm]
    exact Alive.start (hsess.proceed hturn (flags_proceed hm)) rfl hturn.2.1
  | @idle caps used _ hp hm =>
    rw [hp] at h
    simp only [Life.move, hp, hm]
    exact h.bounded.mark
  | err hp =>
    rw [hp] at h
    rw [Life.move, hp]
    exact h.bounded
  | abort _ _ he =>
    obtain ⟨_, he | he⟩ := he <;> cases he
  | observe hp =>
    rw [hp] at h
    rw [Life.move, hp]
    exact h.bounded
  | release hp =>
    rw [hp] at h
    rw [Life.move, hp]
    exact h.bounded

/-- A worker is only aborted while it runs. -/
theorem Worker.abort_eq {w w' : Worker} {r : JoinResult} (h : w.abort r = some w') :
    (∃ th, w.phase = .running th) ∧ w' = { w with phase := .ended r } := by
  unfold Worker.abort at h
  split at h
  · rename_i th hp
    cases h
    exact ⟨⟨th, hp⟩, rfl⟩
  · cases h

/-- A step that moves the `i`-th worker: it goes on, or is aborted. -/
theorem Sys.step_own {s' : Sys} {st : Step} {w : Worker} (h : s.step fts st = some s')
    (hi : st.event.worker? = some i) (hw : s.workers[i]? = some w) :
    ∃ p sh, s' = (s.tick st.dt).setWorker i { w with phase := p } sh ∧
      ((∃ m input, st.event = .worker i m input ∧
          w.step fts input m (s.shared.tick st.dt) = some (p, sh)) ∨
        ((∃ th, w.phase = .running th) ∧ (∃ r, p = .ended r) ∧
          ∀ m input, st.event ≠ .worker i m input)) := by
  obtain ⟨dt, e⟩ := st
  have hw' : (s.tick dt).workers[i]? = some w := hw
  cases e with
  | worker j m input =>
    cases hi
    simp only [Sys.step, Sys.effects, Sys.workerStep, hw', Option.bind_some] at h
    obtain ⟨_, hx, rfl⟩ := Option.map_eq_some_iff.1 h
    obtain ⟨⟨p, sh⟩, hp, rfl⟩ := Option.map_eq_some_iff.1 hx
    exact ⟨p, sh, rfl, .inl ⟨m, input, rfl, hp⟩⟩
  -- both aborts end the thread where it is
  | panic j =>
    cases hi
    simp only [Sys.step, Sys.effects, Sys.workerStep, hw', Option.bind_some] at h
    obtain ⟨_, hx, rfl⟩ := Option.map_eq_some_iff.1 h
    obtain ⟨_, ha, rfl⟩ := Option.map_eq_some_iff.1 hx
    obtain ⟨hrun, rfl⟩ := Worker.abort_eq ha
    exact ⟨_, _, rfl, .inr ⟨hrun, ⟨_, rfl⟩, fun m input he => by cases he⟩⟩
  | cancel j =>
    cases hi
    simp only [Sys.step, Sys.effects, Sys.workerStep, hw', Option.bind_some] at h
    obtain ⟨_, hx, rfl⟩ := Option.map_eq_some_iff.1 h
    obtain ⟨_, ha, rfl⟩ := Option.map_eq_some_iff.1 hx
    obtain ⟨hrun, rfl⟩ := Worker.abort_eq ha
    exact ⟨_, _, rfl, .inr ⟨hrun, ⟨_, rfl⟩, fun m input he => by cases he⟩⟩
  | request u r => cases hi
  | call j id ok => cases hi
  | rawAppend u a id => cases hi

/-- What is kept while the `i`-th worker, of the owner `k`, is watched. -/
structure Watched (f i : ℕ) (k : OwnerKey) (x : Sys × Life) : Prop where
  slots : SlotsCounted x.1
  alive : ∃ w, x.1.workers[i]? = some w ∧ w.key = k ∧
    Alive f (x.1.shared.map.entry k) x.2 w.phase

/-- The life after an event that does not move the worker. -/
theorem Life.after_other {e : Event} {w : Worker} (hi : s.workers[i]? = some w)
    (he : e.worker? ≠ some i) : l.after fts i s e =
      if w.phase.works then { l with requests := l.requests + s.requestsFor w.key e } else l := by
  simp only [Life.after, hi]
  cases e with
  | worker j m input =>
    dsimp only
    rw [if_neg fun h => he (congrArg some h)]
    split <;> rfl
  | _ => rfl

/-- An owner whose slot a worker holds is running. -/
theorem SlotsCounted.running_of_holds {w : Worker} (hc : SlotsCounted s)
    (hi : s.workers[i]? = some w) (hw : w.phase.holds = true) :
    (s.shared.map.entry w.key).running = true := by
  have hcount := hc.slots w.key
  have hpos : 0 < s.workers.countP (·.holdsSlot w.key) :=
    List.countP_pos_iff.2 ⟨w, List.mem_of_getElem? hi, by rw [holdsSlot_self, hw]⟩
  by_contra hr
  rw [running_of_clear (Bool.eq_false_iff.2 hr)] at hcount
  omega

/-- The entry of an owner whose slot a worker holds, after a move of another one. -/
theorem SlotsCounted.entry_moves {j : ℕ} {w w' : Worker} {e : Event} {p : Phase} {sh : Shared}
    (hc : SlotsCounted s) (hi : s.workers[i]? = some w) (hw : w.phase.holds = true)
    (hj : s.workers[j]? = some w') (hne : i ≠ j) (hm : w'.Moves fts e s.shared p sh) :
    sh.map.entry w.key = s.shared.map.entry w.key := by
  by_cases hkey : w.key = w'.key
  · have hw' : w'.phase.holds = false := Bool.eq_false_iff.2 fun hh =>
      hne (hc.unique hi hj (by rw [holdsSlot_self, hw]) (by rw [hkey, holdsSlot_self, hh]))
    rcases moves_released hm hw' with rfl | ⟨n, rfl⟩ <;> rfl
  · exact congrArg (·.getD {}) (moves_of_ne hm hkey)

/-- A worker that works holds the slot. -/
theorem Phase.holds_of_works {p : Phase} (h : p.works = true) : p.holds = true := by
  cases p <;> first | rfl | cases h

/-- Once a worker ended, nothing that others do is about it. -/
theorem Alive.idle {e e' : RebuildState} {p : Phase} (h : Alive f e l p) (hw : p.works = false) :
    Alive f e' l p := by
  cases p with
  | claimed mode => cases hw
  | running th => cases hw
  | ended r => exact h
  | observed r => exact h
  | released => exact h

/-- What a step is for the `i`-th worker `w`: one of its own, its abort, or one of the
    rest, which may be a request that it sees. -/
theorem watch_cases {st : Step} {x x' : Sys × Life} {w : Worker} (hc : SlotsCounted x.1)
    (hi : x.1.workers[i]? = some w) (h : watch fts i x st = some x') :
    (∃ m input p sh, st.event = .worker i m input ∧
      w.step fts input m (x.1.shared.tick st.dt) = some (p, sh) ∧
      x' = ((x.1.tick st.dt).setWorker i { w with phase := p } sh,
        x.2.move fts input w (x.1.shared.tick st.dt))) ∨
    (∃ th r sh, st.event.worker? = some i ∧ w.phase = .running th ∧
      x' = ((x.1.tick st.dt).setWorker i { w with phase := .ended r } sh, x.2)) ∨
    ∃ n, st.event.worker? ≠ some i ∧ x'.1.workers[i]? = some w ∧
      x'.2 = (if w.phase.works then { x.2 with requests := x.2.requests + n } else x.2) ∧
      (w.phase.works = true → (x'.1.shared.map.entry w.key).flags ≤
        (x.1.shared.map.entry w.key).flags + n) := by
  obtain ⟨s', hst, rfl⟩ := Option.map_eq_some_iff.1 h
  have hlt := (List.getElem?_eq_some_iff.1 hi).1
  have hi' : (x.1.tick st.dt).workers[i]? = some w := hi
  by_cases hown : st.event.worker? = some i
  -- the step is the worker's own
  · obtain ⟨p, sh, rfl, ⟨m, input, he, hw⟩ | ⟨⟨th, hp⟩, ⟨r, rfl⟩, he⟩⟩ := Sys.step_own hst hown hi
    · refine .inl ⟨m, input, p, sh, he, hw, ?_⟩
      simp only [Life.after, hi', he, if_true]
      rfl
    · -- an abort is no request
      refine .inr (.inl ⟨th, r, sh, hown, hp, ?_⟩)
      have hafter : x.2.after fts i (x.1.tick st.dt) st.event = x.2 := by
        simp only [Life.after, hi']
        cases hev : st.event with
        | worker j m input =>
          rw [hev] at hown
          cases hown
          exact absurd hev (he m input)
        | panic j => simp [Sys.requestsFor, Sys.effects]
        | cancel j => simp [Sys.requestsFor, Sys.effects]
        | _ => rw [hev] at hown; cases hown
      rw [hafter]
  · refine .inr (.inr ⟨_, hown, ?_, Life.after_other hi' hown, fun hw => ?_⟩)
    · rcases Sys.step_cases hst with ⟨es, calls, _, rfl⟩ | ⟨j, w', p, sh, hj, _, _, rfl⟩
      -- new workers come after those there are, so that this one keeps its place
      · obtain ⟨ws, hws⟩ := workers_effects es { x.1.tick st.dt with calls := calls }
        rw [← hws]
        exact (List.getElem?_append_left hlt).trans hi
      · exact (List.getElem?_set_ne (by rintro rfl; exact hown hj)).trans hi
    · have htick : SlotsCounted (x.1.tick st.dt) := hc.tick st.dt x.1.calls
      have hholds := Phase.holds_of_works hw
      rcases Sys.step_cases hst with ⟨es, calls, he, rfl⟩ | ⟨j, w', p, sh, hj, hj', hm, rfl⟩
      · rw [Sys.requestsFor, he]
        exact flags_effects es (htick.running_of_holds hi' hholds)
      -- another worker, which does not hold the slot of the owner
      · have hne : i ≠ j := by rintro rfl; exact hown hj
        refine Nat.le_add_right_of_le (le_of_eq (congrArg _ ?_))
        exact htick.entry_moves hi' hholds hj' hne hm

namespace Watched

variable {k : OwnerKey} {st : Step} {x x' : Sys × Life}

/-- A step of the system is watched. -/
theorem step (h : Watched f i k x) (hs : watch fts i x st = some x') : Watched f i k x' := by
  obtain ⟨s', hst, hx⟩ := Option.map_eq_some_iff.1 hs
  refine ⟨hx ▸ h.slots.step hst, ?_⟩
  obtain ⟨w, hi, rfl, ha⟩ := h.alive
  have hlt := (List.getElem?_eq_some_iff.1 hi).1
  rcases watch_cases h.slots hi hs with ⟨m, input, p, sh, _, hw, rfl⟩ | ⟨th, r, sh, _, _, rfl⟩ |
    ⟨n, _, hi', hlife, hflags⟩
  · have ha' : Alive f ((x.1.shared.tick st.dt).map.entry w.key) x.2 w.phase := ha
    exact ⟨{ w with phase := p }, List.getElem?_set_self hlt, rfl, ha'.step hw⟩
  · exact ⟨{ w with phase := .ended r }, List.getElem?_set_self hlt, rfl, ha.bounded⟩
  · refine ⟨w, hi', rfl, ?_⟩
    rw [hlife]
    cases hw : w.phase.works with
    | false => exact ha.idle hw
    | true => exact ha.request hw (hflags hw)

/-- A run of the system is watched. -/
theorem reach {x₀ : Sys × Life} (h : Watched f i k x₀)
    (hx : Reach (· = x₀) (watch fts i) (fun _ _ => True) x) : Watched f i k x :=
  hx.invariant (fun _ hx => hx ▸ h) fun _ _ _ _ hx _ hst => hx.step hst

/-- The program of the worker between two sessions. -/
theorem turn (h : Watched f i k x) {w : Worker} (hi : x.1.workers[i]? = some w) {next : Next}
    (hp : w.phase = .running (.seq (.ret (.ok next)))) : ∃ loc flags,
      InSession f flags loc x.2 ∧ Turn loc x.2.seen next := by
  obtain ⟨w', hi', _, ha⟩ := h.alive
  obtain rfl : w' = w := Option.some.inj (hi'.symm.trans hi)
  rw [hp] at ha
  obtain ⟨loc, hsess, hth⟩ := ha
  exact ⟨loc, _, hsess, hth.ret⟩

end Watched

/-! ## The end -/

/-- Every operation may fail, or is answered in any case. -/
theorem perform_fail (o : Op) (s : Shared) : ∃ x, perform fts .fail o s = some x := by
  cases o <;> exact ⟨_, rfl⟩

/-- A worker that runs steps as its thread does. -/
theorem Worker.step_running {input : Input} {m : Move} {w : Worker} {sh : Shared}
    {th : Thread RebuildSig (Except CoordinatorError Next)} (hp : w.phase = .running th)
    (hth : ∀ r, th ≠ .seq (.ret r)) : w.step fts input m sh =
      (th.step synthesizeTask (perform fts input) m sh).map fun x => (.running x.1, x.2) := by
  rw [Worker.step, hp]
  split
  · rename_i h
    cases h
  · rename_i h
    cases h
    exact absurd rfl (hth _)
  · rename_i h
    cases h
    exact absurd rfl (hth _)
  · rename_i h
    cases h
    exact absurd rfl (hth _)
  · rename_i h
    cases h
    rfl
  · rename_i h
    cases h
  · rename_i h
    cases h
  · rename_i h
    cases h

/-- A worker that is not released can go on. -/
theorem Alive.exists_step {w : Worker} {e : RebuildState} (h : Alive f e l w.phase)
    (hp : w.phase ≠ .released) (sh : Shared) : ∃ m x, w.step fts .fail m sh = some x := by
  obtain ⟨key, phase⟩ := w
  cases phase with
  | claimed mode => exact ⟨.main, _, rfl⟩
  | ended r => exact ⟨.main, _, rfl⟩
  | observed r => exact ⟨.main, _, rfl⟩
  | released => exact absurd rfl hp
  | running th =>
    obtain ⟨loc, _, hth⟩ := h
    rcases hth.exists_step synthesizeTask perform_fail sh with ⟨r, rfl⟩ | ⟨m, x, hx⟩
    · rcases r with e | loc' | ⟨caps, used⟩
      · exact ⟨.main, _, rfl⟩
      · exact ⟨.main, _, rfl⟩
      · obtain ⟨o, s', hm⟩ : ∃ o s', sh.markIdleOrContinue key = (o, s') := ⟨_, _, rfl⟩
        cases o with
        | none => exact ⟨.main, (.ended .ok, s'), by simp only [Worker.step, hm]⟩
        | some mode =>
          exact ⟨.main, (Worker.start key ⟨mode, caps, used⟩, s'), by simp only [Worker.step, hm]⟩
    · refine ⟨m, (.running x.1, x.2), ?_⟩
      obtain ⟨th', sh'⟩ := x
      rw [Worker.step_running rfl (step_ne_ret hx), hx]
      rfl

/-- A worker that is not released can go on. -/
theorem Watched.exists_step {k : OwnerKey} {x : Sys × Life} (h : Watched f i k x) {w : Worker}
    (hi : x.1.workers[i]? = some w) (hp : w.phase ≠ .released) :
    ∃ m input s', x.1.step fts ⟨0, .worker i m input⟩ = some s' := by
  obtain ⟨w', hi', _, ha⟩ := h.alive
  obtain rfl : w' = w := Option.some.inj (hi'.symm.trans hi)
  obtain ⟨m, y, hy⟩ : ∃ m y, w'.step fts .fail m (x.1.tick 0).shared = some y :=
    ha.exists_step hp _
  have hi₀ : (x.1.tick 0).workers[i]? = some w' := hi
  refine ⟨m, .fail, (x.1.tick 0).setWorker i { w' with phase := y.1 } y.2, ?_⟩
  simp only [Sys.step, Sys.effects, Sys.workerStep, hi₀, Option.bind_some, hy, Option.map_some]

/-- How far a worker is from its end, the sessions apart. -/
def Phase.left : Phase → ℕ × Thread RebuildSig (Except CoordinatorError Next)
  | .claimed _ => (4, .seq (.ret (.error .llm)))
  | .running th => (3, th)
  | .ended _ => (2, .seq (.ret (.error .llm)))
  | .observed _ => (1, .seq (.ret (.error .llm)))
  | .released => (0, .seq (.ret (.error .llm)))

/-- What is left of a worker that starts at most `n` sessions. -/
def Life.left (n i : ℕ) (x : Sys × Life) :
    ℕ × ℕ × Thread RebuildSig (Except CoordinatorError Next) :=
  (n - x.2.sessions, ((x.1.workers[i]?).map (·.phase.left)).getD (0, .seq (.ret (.error .llm))))

/-- Less is left: fewer sessions, or less of the session. -/
abbrev Life.Down : ℕ × ℕ × Thread RebuildSig (Except CoordinatorError Next) →
    ℕ × ℕ × Thread RebuildSig (Except CoordinatorError Next) → Prop :=
  Prod.Lex (· < ·) (Prod.Lex (· < ·) Thread.Before)

/-- What is left goes down finitely often. -/
theorem Life.wellFounded_down : WellFounded Life.Down :=
  wellFounded_lt.prod_lex (wellFounded_lt.prod_lex Thread.wellFounded_before)

/-- A move of the worker starts a session, or leaves less of what it does. -/
theorem Phase.left_step {input : Input} {m : Move} {w : Worker} {sh sh' : Shared} {p : Phase}
    (h : w.step fts input m sh = some (p, sh')) :
    (l.move fts input w sh).sessions = l.sessions + 1 ∨
      ((l.move fts input w sh).sessions = l.sessions ∧
        Prod.Lex (· < ·) Thread.Before p.left w.phase.left) := by
  cases Worker.step_moves (e := .worker 0 m input) ⟨0, rfl⟩ h with
  | spawn hp =>
    left
    rw [Life.move, hp]
    rfl
  | thread hp he ht =>
    right
    obtain ⟨_, he⟩ := he
    cases he
    rw [Life.move_thread hp (step_ne_ret ht), hp]
    -- a step of a thread leaves a smaller thread
    exact ⟨rfl, .right _ (Thread.step_before ht)⟩
  | again hp =>
    left
    rw [Life.move, hp]
    rfl
  | proceed hp hm =>
    left
    simp only [Life.move, hp, hm]
    rfl
  | idle hp hm =>
    right
    simp only [Life.move, hp, hm]
    exact ⟨rfl, .left _ _ (by decide)⟩
  | err hp =>
    right
    rw [Life.move, hp]
    exact ⟨rfl, .left _ _ (by decide)⟩
  | abort _ _ he =>
    obtain ⟨_, he | he⟩ := he <;> cases he
  | observe hp =>
    right
    rw [Life.move, hp]
    exact ⟨rfl, .left _ _ (by decide)⟩
  | release hp =>
    right
    rw [Life.move, hp]
    exact ⟨rfl, .left _ _ (by decide)⟩

section Left

variable {k : OwnerKey} {st : Step} {x x' : Sys × Life} {n : ℕ}

/-- What is left for the worker, given where it is. -/
theorem Life.left_of {w : Worker} (hi : x.1.workers[i]? = some w) :
    Life.left n i x = (n - x.2.sessions, w.phase.left) := by
  rw [Life.left, hi]
  rfl

/-- A step of the worker leaves less. -/
theorem Watched.down (h : Watched f i k x) (hs : watch fts i x st = some x')
    (hown : st.event.worker? = some i) (hn : x'.2.sessions ≤ n) :
    Life.Down (Life.left n i x') (Life.left n i x) := by
  obtain ⟨w, hi, rfl, ha⟩ := h.alive
  have hlt := (List.getElem?_eq_some_iff.1 hi).1
  rcases watch_cases h.slots hi hs with ⟨m, input, p, sh, _, hw, rfl⟩ | ⟨th, r, sh, _, hp, rfl⟩ |
    ⟨_, hother, _⟩
  · rw [Life.left_of hi, Life.left_of (w := { w with phase := p }) (List.getElem?_set_self hlt)]
    rcases Phase.left_step (l := x.2) hw with hsess | ⟨hsess, hlex⟩
    · dsimp only at hn ⊢
      exact .left _ _ (by omega)
    · dsimp only at hn ⊢
      rw [hsess]
      exact .right _ hlex
  · rw [Life.left_of hi,
      Life.left_of (w := { w with phase := .ended r }) (List.getElem?_set_self hlt), hp]
    exact .right _ (.left _ _ (by decide))
  · exact absurd hown hother

/-- The other steps leave as much. -/
theorem Watched.same (h : Watched f i k x) (hs : watch fts i x st = some x')
    (hother : st.event.worker? ≠ some i) : Life.left n i x' = Life.left n i x := by
  obtain ⟨w, hi, rfl, ha⟩ := h.alive
  rcases watch_cases h.slots hi hs with ⟨m, input, p, sh, he, _⟩ | ⟨_, _, _, hown, _⟩ |
    ⟨_, _, hi', hlife, _⟩
  · exact absurd (by rw [he]; rfl) hother
  · exact absurd hown hother
  · rw [Life.left_of hi, Life.left_of hi', hlife]
    split <;> rfl

/-- In an infinite run where the worker sees at most `R` requests, it moves finitely
    often. -/
theorem Watched.ends {run : ℕ → Sys × Life} {sts : ℕ → Step} {R : ℕ} (h : Watched f i k (run 0))
    (hrun : ∀ n, watch fts i (run n) (sts n) = some (run (n + 1)))
    (hR : ∀ n, (run n).2.requests ≤ R) : ∃ N, ∀ n, N ≤ n → (sts n).event.worker? ≠ some i := by
  have hw : ∀ n, Watched f i k (run n) := by
    intro n
    induction n with
    | zero => exact h
    | succ n ih => exact ih.step (hrun n)
  have hsess : ∀ n, (run n).2.sessions ≤ 2 * MAX_CONSECUTIVE_CAPS * (R + f + 1) := by
    intro n
    obtain ⟨w, _, _, ha⟩ := (hw n).alive
    have hb := ha.bounded.sessions
    have hRn := hR n
    unfold MAX_CONSECUTIVE_CAPS at *
    omega
  exact eventually_rests Life.wellFounded_down
    (fun n => Life.left (2 * MAX_CONSECUTIVE_CAPS * (R + f + 1)) i (run n))
    (fun n => (sts n).event.worker? = some i)
    (fun n hown => (hw n).down (hrun n) hown (hsess _)) fun n hother => (hw n).same (hrun n) hother

end Left

/-! ## Bounded lives -/

/-- Take a worker of any run whose mode was just dispatched, its owner having flags set.
    However its operations are answered, and whatever else happens meanwhile, it calls
    `markIdleOrContinue` at least once in `2 * MAX_CONSECUTIVE_CAPS` sessions, and forces
    at most one extra append. When a pending request may be taken, it has forced it if and
    only if raws remained at some lookup before, and after a streak of sessions cut short
    they were looked up. A session has at most `MAX_ITERATIONS` iterations, and the
    sessions are bounded by the requests seen and the flags. If the requests are bounded,
    it ends: it can always go on until it is released, and moves finitely often. -/
theorem worker_life {s₀ : Sys} {w₀ : Worker} {mode : RebuildMode}
    (h₀ : Reach Boot (Sys.step fts) (fun _ _ => True) s₀) (hi : s₀.workers[i]? = some w₀)
    (hp : w₀.phase = .claimed mode) :
    (s₀.shared.map.entry w₀.key).flags ≤ 2 ∧
    (∀ s l, Reach (· = (s₀, {})) (watch fts i) (fun _ _ => True) (s, l) →
      l.sinceMark ≤ 2 * MAX_CONSECUTIVE_CAPS ∧ l.forced ≤ 1 ∧
      l.seen.iterations ≤ MAX_ITERATIONS ∧
      l.sessions ≤ 2 * MAX_CONSECUTIVE_CAPS *
        (l.requests + (s₀.shared.map.entry w₀.key).flags + 1) ∧
      ∃ w, s.workers[i]? = some w ∧ w.key = w₀.key ∧
        (∀ caps used, w.phase = .running (.seq (.ret (.ok (.markIdleOrContinue caps used)))) →
          (l.forced = 1 ↔ l.seen.met = true) ∧
            (caps = 0 ∨ (MAX_CONSECUTIVE_CAPS ≤ caps ∧ l.seen.looked = true))) ∧
        (∀ loc, w.phase = .running (.seq (.ret (.ok (.again loc)))) → loc.mode = .append) ∧
        (w.phase ≠ .released → ∃ m input s', s.step fts ⟨0, .worker i m input⟩ = some s')) ∧
    ∀ (run : ℕ → Sys × Life) (sts : ℕ → Step) (R : ℕ), run 0 = (s₀, {}) →
      (∀ n, watch fts i (run n) (sts n) = some (run (n + 1))) →
      (∀ n, (run n).2.requests ≤ R) → ∃ N, ∀ n, N ≤ n → (sts n).event.worker? ≠ some i := by
  have hstart : Watched (s₀.shared.map.entry w₀.key).flags i w₀.key (s₀, {}) :=
    ⟨reach_slotsCounted h₀, w₀, hi, rfl, by rw [hp]; exact ⟨rfl, le_rfl⟩⟩
  refine ⟨RebuildState.flags_le _, fun s l hx => ?_, fun run sts R hrun₀ hrun hR => ?_⟩
  -- the bounds, and what is known of the session between two turns
  · have hw := hstart.reach hx
    obtain ⟨w, hi', hkey, ha⟩ := hw.alive
    have hb := ha.bounded
    refine ⟨hb.sinceMark, hb.forced, hb.iterations, hb.sessions, w, hi', hkey,
      fun caps used hmark => ?_, fun loc hagain => ?_, fun hr => hw.exists_step hi' hr⟩
    · obtain ⟨loc, _, hsess, hused, hmet, hlooked⟩ := hw.turn hi' hmark
      have hforced := hsess.forced
      dsimp only at hforced hmet
      rw [hforced, hmet, hused]
      refine ⟨?_, hlooked⟩
      cases loc.remainderDrainUsed <;> decide
    · obtain ⟨_, _, _, happend, _⟩ := hw.turn hi' hagain
      exact happend
  · exact Watched.ends (hrun₀ ▸ hstart) hrun hR

/-- An iteration of the worker whose only synthesis fails, so that the raws remain. -/
def failedIteration : List Event :=
  List.replicate 5 (.worker 0 .main .ok) ++ [.worker 0 .main (.affected ⟨[], ["alpha"]⟩),
    .worker 0 .main .ok, .worker 0 .main .ok, .worker 0 .start .ok, .worker 0 (.task 0) .fail,
    .worker 0 (.task 0) .ok, .worker 0 .main .ok]

/-- A session that is started, and cut short. -/
def cappedSession : List Event :=
  .worker 0 .main .ok :: (List.replicate MAX_ITERATIONS failedIteration).flatten

/-- As many of these as it takes until the raws that remain are looked up. -/
def cappedSessions : List Event :=
  (List.replicate MAX_CONSECUTIVE_CAPS cappedSession).flatten ++
    List.replicate 3 (.worker 0 .main .ok)

/-- A worker that is cut short until it forces an append, and again until it takes what was
    requested meanwhile. -/
def firstLife : List Step :=
  let requested : List Event := [.request "u" (.wikiRebuild (some "beta")), .call 0 "" true]
  let dispatched : List Event := [.worker 0 .main .ok]
  (cappedSessions ++ requested ++ cappedSessions ++ dispatched).map fun e => ⟨1, e⟩

/-- It had six sessions before the request was dispatched, and started one for it. -/
theorem worker_life_first : ∃ (s : Sys) (l : Life), l = ⟨1, 7, 1, 1, 1, ⟨0, false, true⟩⟩ ∧
    l.sessions ≤ 2 * MAX_CONSECUTIVE_CAPS * (l.requests + 0 + 1) ∧ l.forced ≤ 1 ∧
    ∃ w, s.workers[0]? = some w ∧
      (w.phase ≠ .released → ∃ m input s', s.step Fts.nothing ⟨0, .worker 0 m input⟩ = some s') := by
  obtain ⟨s₀, hs₀, hi, hflags, hlife⟩ : ∃ s₀,
      exec (Sys.step Fts.nothing) (fun _ _ => true) (.fresh "u" 1) (firstRebuild.take 1) = some s₀ ∧
      s₀.workers[0]? = some ⟨.personal "u", .claimed .append⟩ ∧
      (s₀.shared.map.entry (.personal "u")).flags = 0 ∧
      (exec (watch Fts.nothing 0) (fun _ _ => true) (s₀, {}) firstLife).map (·.2) =
        some ⟨1, 7, 1, 1, 1, ⟨0, false, true⟩⟩ :=
    ⟨_, rfl, rfl, rfl, by decide +kernel⟩
  obtain ⟨⟨s, l⟩, hx, hl⟩ := Option.map_eq_some_iff.1 hlife
  have h := (worker_life (.exec (fun _ _ _ => trivial) (.init (Sys.fresh_boot _ _)) hs₀) hi rfl).2.1
    s l (.exec (fun _ _ _ => trivial) (.init rfl) hx)
  rw [hflags] at h
  obtain ⟨_, hforced, _, hsess, w, hw, _, _, _, hgo⟩ := h
  exact ⟨s, l, hl, hsess, hforced, w, hw, hgo⟩

end LlmMemory
