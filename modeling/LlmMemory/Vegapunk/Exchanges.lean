import LlmMemory.Lib.Histories
import LlmMemory.Vegapunk.Plain

/-!
# Exchanges

The rules by which the handlers are known after what they were answered, one for
each of the parts that they are made of.
-/

namespace LlmMemory.Vegapunk

open Effects

/-- The operations of a call so far, each with the answer that it got. -/
abbrev History : Type := List (Exchange ToolSig)

section Rules

variable {P : History → Op → Prop} {α β : Type} {Q : History → α → Prop}
  {R : History → β → Prop} {h : History}

/-- An operation, and what follows it. -/
theorem perf_then {o : Op} {f : o.Ans → Tool β} (ho : P h o)
    (hf : ∀ r, Logs P R (h ++ [⟨o, r⟩]) (f r)) : Logs P R h (perf o >>= f) :=
  ⟨ho, hf⟩

theorem perf_returns {o : Op} {Q : History → o.Ans → Prop} (ho : P h o)
    (hr : ∀ r, Q (h ++ [⟨o, r⟩]) r) : Returns P Q h (perf o) :=
  ⟨ho, fun r => ⟨r, rfl, hr r⟩⟩

/-- An operation, and what is returned after it. -/
theorem perf_returns_then {o : Op} {f : o.Ans → Tool β} (ho : P h o)
    (hf : ∀ r, Returns P R (h ++ [⟨o, r⟩]) (f r)) : Returns P R h (perf o >>= f) :=
  ⟨ho, hf⟩

/-- A request that is built, or refused. -/
theorem built_then {method : String} {x : Except String α} {f : α → Tool β}
    (hf : ∀ r, x = .ok r → Logs P R h (f r)) : Logs P R h (built method x >>= f) := by
  cases x with
  | ok r => exact hf r rfl
  | error e => exact Logs.fail

theorem orStatus_then {method : String} {x : Except Status α} {f : α → Tool β}
    (hf : ∀ r, x = .ok r → Logs P R h (f r)) : Logs P R h (orStatus method x >>= f) := by
  cases x with
  | ok r => exact hf r rfl
  | error e => exact Logs.fail

theorem ite_logs {c : Prop} [Decidable c] {p q : Tool α} (hp : c → Logs P Q h p)
    (hq : ¬c → Logs P Q h q) : Logs P Q h (if c then p else q) := by
  split
  · next hc => exact hp hc
  · next hc => exact hq hc

/-- What either of two programs returns. -/
theorem ite_returns {c : Prop} [Decidable c] {p q : Tool α} (hp : c → Returns P Q h p)
    (hq : ¬c → Returns P Q h q) : Returns P Q h (if c then p else q) := by
  split
  · next hc => exact hp hc
  · next hc => exact hq hc

/-- A part of a handler of which it is known what it does: the history grows by a run
    of it. -/
theorem part_then {P' : Op → Prop} {Q : α → Prop} {p : Tool α} {f : α → Tool β}
    (hp : Does P' Q p) (hP : ∀ h o, P' o → P h o)
    (hf : ∀ a es, Q a → (∀ e ∈ es, P' e.1) → p.Gives es (.ok a) → Logs P R (h ++ es) (f a)) :
    Logs P R h (p >>= f) := by
  have hlogs : Logs P (fun h' a => Q a ∧ ∃ es, h' = h ++ es ∧ p.Gives es (.ok a)) h p :=
    Prog.Logs.imp (Logs.gives (Prog.Does.logs hp)) fun h o => hP h o
  refine Logs.bind hlogs ?_
  rintro h' a ⟨ha, es, rfl, hes⟩
  exact hf a es ha (Prog.Does.of_gives hp hes) hes

/-- A part of a handler whose exchanges do not matter: the history grows. -/
theorem does_then {P : Op → Prop} {Q : α → Prop} {p : Tool α} {f : α → Tool β} (hp : Does P Q p)
    (hf : ∀ a es, Q a → Logs (fun _ => P) R (h ++ es) (f a)) :
    Logs (fun _ => P) R h (p >>= f) :=
  part_then hp (fun _ _ => id) fun a es ha _ _ => hf a es ha

end Rules

end LlmMemory.Vegapunk
