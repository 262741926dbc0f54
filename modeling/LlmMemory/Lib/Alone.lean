import LlmMemory.Lib.Ghosts

/-!
# Programs run alone

A program run alone (`Prog.alone`) does its operations one after the other, each
answered as `ans` says, which may depend on what was noted of those before. Its result
comes with these operations, and with what was noted of them.

`alone_bind` and, for programs that may fail, `Attempt.alone_ok` sequence such runs; what
`Notes` says of a program holds of its result (`Notes.alone`).
-/

namespace Effects

variable {E : Sig} {γ α β ε : Type}

/-- The operations of a program, its result, and what was noted, if all operations are
    answered and no task is forked. -/
def Prog.alone (note : γ → (o : E.Op) → E.Ans o → γ) (ans : γ → (o : E.Op) → Option (E.Ans o)) :
    Prog E α → γ → Option (List E.Op × α × γ)
  | .ret a, g => some ([], a, g)
  | .op o k, g => (ans g o).bind fun r => (alone note ans (k r) (note g o r)).map fun x =>
      (o :: x.1, x.2)
  | .fork _ _ _, _ => none

variable {note : γ → (o : E.Op) → E.Ans o → γ} {ans : γ → (o : E.Op) → Option (E.Ans o)}
  {g g' g'' : γ} {os os' : List E.Op}

/-- An operation that is answered, and then the rest. -/
theorem Prog.alone_op {o : E.Op} {k : E.Ans o → Prog E α} {r : E.Ans o} (h : ans g o = some r) :
    (Prog.op o k).alone note ans g =
      ((k r).alone note ans (note g o r)).map fun x => (o :: x.1, x.2) := by
  rw [Prog.alone, h]
  rfl

/-- A program alone, and then another one. -/
theorem Prog.alone_bind {p : Prog E α} {f : α → Prog E β} {a : α} {x : β}
    (hp : p.alone note ans g = some (os, a, g')) (hf : (f a).alone note ans g' = some (os', x, g'')) :
    (p.bind f).alone note ans g = some (os ++ os', x, g'') := by
  induction p generalizing g os with
  | ret a' =>
    cases hp
    exact hf
  | op o k ih =>
    obtain ⟨r, hr, hk⟩ := Option.bind_eq_some_iff.1 hp
    obtain ⟨⟨os₁, y⟩, hy, he⟩ := Option.map_eq_some_iff.1 hk
    cases he
    rw [Prog.bind, Prog.alone_op hr, ih r hy]
    rfl
  | fork n ts k => cases hp

namespace Attempt

/-- The same, of a program that may fail. -/
def alone (note : γ → (o : E.Op) → E.Ans o → γ) (ans : γ → (o : E.Op) → Option (E.Ans o))
    (p : Attempt E ε α) (g : γ) : Option (List E.Op × Except ε α × γ) :=
  Prog.alone note ans p g

/-- A part that only gives a result. -/
theorem alone_pure {a : α} :
    (Pure.pure a : Attempt E ε α).alone note ans g = some ([], .ok a, g) :=
  rfl

/-- A part that succeeds, and then another one. -/
theorem alone_ok {p : Attempt E ε α} {f : α → Attempt E ε β} {a : α} {x : Except ε β}
    (hp : p.alone note ans g = some (os, .ok a, g'))
    (hf : (f a).alone note ans g' = some (os', x, g'')) :
    (p >>= f).alone note ans g = some (os ++ os', x, g'') :=
  Prog.alone_bind hp hf

theorem alone_call {o : E.Op} {k : E.Ans o → Except ε α} {r : E.Ans o} (h : ans g o = some r) :
    (call o k).alone note ans g = some ([o], k r, note g o r) :=
  Prog.alone_op h

end Attempt

/-- What `Notes` says of a program holds of its result. -/
theorem Prog.Notes.alone {P : γ → E.Op → Prop} {Q : γ → α → Prop} {p : Prog E α} {a : α}
    (h : p.Notes note P Q g) (hp : p.alone note ans g = some (os, a, g')) : Q g' a := by
  induction p generalizing g os with
  | ret a' =>
    cases hp
    exact h
  | op o k ih =>
    obtain ⟨r, _, hk⟩ := Option.bind_eq_some_iff.1 hp
    obtain ⟨⟨os', y⟩, hy, he⟩ := Option.map_eq_some_iff.1 hk
    cases he
    exact ih r (h.2 r) hy
  | fork n ts k => cases hp

/-- A program that forks no tasks can be run alone, if its operations are answered. -/
theorem Prog.Notes.exists_alone {P : γ → E.Op → Prop} {Q : γ → α → Prop}
    (hans : ∀ g o, P g o → ∃ r, ans g o = some r) {p : Prog E α} (h : p.Notes note P Q g)
    (hp : p.Only (fun _ => True) fun _ => False) : ∃ x, p.alone note ans g = some x := by
  induction p generalizing g with
  | ret a => exact ⟨_, rfl⟩
  | op o k ih =>
    obtain ⟨r, hr⟩ := hans g o h.1
    obtain ⟨x, hx⟩ := ih r (h.2 r) (hp.2 r)
    exact ⟨_, by rw [Prog.alone_op hr, hx]; rfl⟩
  | fork n ts k => exact hp.1.elim

end Effects
