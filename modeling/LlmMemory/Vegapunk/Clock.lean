import LlmMemory.Vegapunk.Exchanges

/-!
# The clock

What is known of the time, after some exchanges, is what they say of it (`clock`).
The waits for jobs go in rounds, until a deadline, and a round but the last one
ends with a pause (`sleepUntil_returns`). If the time does not go back (`Paced`),
the rounds that the loops may have are enough to get to the deadline (`InTime`).
-/

namespace LlmMemory.Vegapunk

open Effects

/-- The time after an operation, if it was `c` before it. A round that timed out
    has lasted for its time, from the instant it began at. -/
def Op.tick (c : Int) : (o : Op) → o.Ans → Int
  | .instant, t => t
  | .sleep ms, _ => c + ms
  | .listJobs _ _ ms, .roundTimedOut => c + ms
  | _, _ => c

/-- The time that it is known to be after the exchanges. -/
def clock (c : Int) : History → Int
  | [] => c
  | e :: es => clock (e.1.tick c e.2) es

/-- The time does not go back. -/
def Paced (c : Int) : History → Prop
  | [] => True
  | e :: es => c ≤ e.1.tick c e.2 ∧ Paced (e.1.tick c e.2) es

section Clock

variable {c : Int} {h es : History}

theorem clock_append : clock c (h ++ es) = clock (clock c h) es := by
  induction h generalizing c with
  | nil => rfl
  | cons e h ih => exact ih

theorem paced_append : Paced c (h ++ es) ↔ Paced c h ∧ Paced (clock c h) es := by
  induction h generalizing c with
  | nil => exact ⟨fun hes => ⟨trivial, hes⟩, And.right⟩
  | cons e h ih =>
    rw [List.cons_append, Paced, Paced, ih, and_assoc]
    rfl

theorem Paced.le_clock (hp : Paced c h) : c ≤ clock c h := by
  induction h generalizing c with
  | nil => exact le_rfl
  | cons e h ih => exact hp.1.trans (ih hp.2)

/-- The exchanges of a pause: the clock, and a sleep. -/
def Pausing (es : History) : Prop := ∀ e ∈ es, e.1 = .instant ∨ ∃ ms, e.1 = .sleep ms

/-- A pause may be a look at the time. -/
theorem pausing_instant {t : Int} : Pausing [⟨.instant, t⟩] :=
  fun _ he => .inl (by rw [List.mem_singleton.1 he])

/-- A pause lasts for the time between two rounds, or until the deadline. -/
theorem sleepUntil_returns {P : History → Op → Prop} {deadline : Int}
    (hinstant : P h .instant) (hsleep : ∀ t ms, 0 < ms → t + ms ≤ deadline →
      P (h ++ [⟨.instant, t⟩]) (.sleep ms)) :
    Returns P (fun h' _ => ∃ es, h' = h ++ es ∧ Pausing es ∧
      ∀ c, Paced c es → min (c + JOB_POLL_INTERVAL_MS) deadline ≤ clock c es) h
      (sleepUntil deadline) := by
  have hinterval : JOB_POLL_INTERVAL_MS = 500 := rfl
  refine perf_returns_then hinstant fun (now : Int) => ?_
  refine ite_returns (fun hzero => ?_) fun hpos => ?_
  · refine Returns.pure ⟨_, rfl, pausing_instant, fun c _ => ?_⟩
    change min _ deadline ≤ now
    omega
  · refine perf_returns (hsleep _ _ (by omega) (by omega))
      fun r => ⟨_, List.append_assoc _ _ _, ?_, ?_⟩
    · intro e he
      rcases List.mem_pair.1 he with rfl | rfl
      · exact .inl rfl
      · exact .inr ⟨_, rfl⟩
    · intro c hc
      have hle : c ≤ now := hc.1
      change _ ≤ now + min JOB_POLL_INTERVAL_MS (max 0 (deadline - now))
      omega

/-- A wait that is over has lasted until the deadline. -/
def Expired (deadline : Int) (h : History) : Prop := ∀ c, Paced c h → deadline ≤ clock c h

/-- The rounds that are left are enough: their pauses last until the deadline. -/
def InTime (deadline : Int) (rounds : ℕ) (h : History) : Prop :=
  ∀ c, Paced c h → ∃ left : ℕ, rounds = left + 1 ∧
    deadline ≤ clock c h + JOB_POLL_INTERVAL_MS * left

variable {deadline now : Int} {rounds : ℕ}

/-- Where no round is left, the time is up. -/
theorem InTime.expired_of_zero (ht : InTime deadline 0 h) : Expired deadline h :=
  fun c hc => absurd (ht c hc) fun ⟨_, he, _⟩ => by cases he

/-- A time read after the deadline says that it is up. -/
theorem expired_instant (hnow : deadline ≤ now) : Expired deadline (h ++ [⟨.instant, now⟩]) := by
  intro c _
  rw [clock_append]
  exact hnow

/-- A round that is not the last one takes its time. -/
theorem InTime.round {pause : History} (ht : InTime deadline (rounds + 1) h)
    (hnow : now < deadline) (hpause : ∀ c, Paced c pause →
      min (c + JOB_POLL_INTERVAL_MS) deadline ≤ clock c pause) :
    InTime deadline rounds (h ++ [⟨.instant, now⟩] ++ es ++ pause) := by
  intro c hc
  obtain ⟨hround, hrest⟩ := paced_append.1 hc
  obtain ⟨hbefore, hes⟩ := paced_append.1 hround
  obtain ⟨hh, hinstant⟩ := paced_append.1 hbefore
  obtain ⟨left, hleft, hdeadline⟩ := ht c hh
  have hle := hes.le_clock
  have hlast := hpause _ hrest
  have hlt : clock c h ≤ now := hinstant.1
  have hclock : clock c (h ++ [⟨.instant, now⟩]) = now := clock_append
  have hinterval : JOB_POLL_INTERVAL_MS = 500 := rfl
  have hend : clock c (h ++ [⟨.instant, now⟩] ++ es) = clock now es := by
    rw [clock_append, hclock]
  rw [hclock] at hle
  rw [hend] at hlast
  rw [clock_append, hend]
  rw [hinterval] at hdeadline hlast ⊢
  -- It was before the deadline, so there is a round left after this one.
  obtain ⟨left, rfl⟩ : ∃ left', left = left' + 1 :=
    Nat.exists_eq_succ_of_ne_zero fun hzero => by
      subst hzero
      omega
  refine ⟨left, by omega, ?_⟩
  push_cast at hdeadline
  omega

end Clock

end LlmMemory.Vegapunk
