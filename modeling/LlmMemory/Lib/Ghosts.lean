import LlmMemory.Lib.Effects

/-!
# What a program did

An observer notes the operations of a program, as they are answered: `note g o r` is
what it has noted once `o` was answered `r`, and `g` noted before. `Notes` is what
programs do in terms of what was noted: which operations, and with which results. The
forked tasks are not noted, only that some of them may start.

It has one rule per construct (`Notes.bind`, `Notes.call`, `Notes.fork`), and a
program being run keeps it by each of its steps (`Thread.Notes.step`).
-/

namespace Effects

variable {E : Sig} {S γ α β ε : Type}

section Notes

variable (note : γ → (o : E.Op) → E.Ans o → γ) (P : γ → E.Op → Prop)

/-- From what was noted, the program only does operations as in `P`, only forks where
    tasks can start, and its result is as in `Q`. -/
def Prog.Notes (Q : γ → α → Prop) : γ → Prog E α → Prop
  | g, .ret a => Q g a
  | g, .op o k => P g o ∧ ∀ r, Notes Q (note g o r) (k r)
  | g, .fork n _ k => 0 < n ∧ Notes Q g k

/-- `B` on the result of a program that may fail, and `X` if it failed. -/
def Result (B : γ → α → Prop) (X : γ → Prop) (g : γ) : Except ε α → Prop
  | .ok a => B g a
  | .error _ => X g

/-- The same, of a program that may fail. -/
def Attempt.Notes (B : γ → α → Prop) (X : γ → Prop) (g : γ) (p : Attempt E ε α) : Prop :=
  Prog.Notes note P (Result B X) g p

end Notes

variable {note : γ → (o : E.Op) → E.Ans o → γ} {P : γ → E.Op → Prop} {g : γ}

/-- A program, and then another one. -/
theorem Prog.Notes.bind {Q : γ → α → Prop} {Q' : γ → β → Prop} {p : Prog E α}
    {f : α → Prog E β} (hp : p.Notes note P Q g)
    (hf : ∀ g a, Q g a → (f a).Notes note P Q' g) : (p.bind f).Notes note P Q' g := by
  induction p generalizing g with
  | ret a => exact hf g a hp
  | op o k ih => exact ⟨hp.1, fun r => ih r (hp.2 r)⟩
  | fork n ts k ih => exact ⟨hp.1, ih hp.2⟩

namespace Attempt.Notes

variable {B : γ → α → Prop} {C : γ → β → Prop} {X : γ → Prop}

/-- A part that only gives a result. -/
theorem pure {a : α} (h : B g a) :
    Attempt.Notes note P B X g (Pure.pure a : Attempt E ε α) :=
  h

theorem andThen {p : Attempt E ε α} {f : α → Attempt E ε β} (hp : p.Notes note P B X g)
    (hf : ∀ g a, B g a → (f a).Notes note P C X g) :
    Attempt.Notes note P C X g (p >>= f) := by
  refine Prog.Notes.bind hp fun g r hr => ?_
  cases r with
  | ok a => exact hf g a hr
  | error e => exact hr

/-- A single operation, its answer read by `k`. -/
theorem call {o : E.Op} {k : E.Ans o → Except ε α} (ho : P g o)
    (h : ∀ r, Result B X (note g o r) (k r)) :
    Attempt.Notes note P B X g (Attempt.call o k) :=
  ⟨ho, h⟩

/-- Tasks are started, of which nothing is noted. -/
theorem fork {n : ℕ} {ts : List E.Task} (hn : 0 < n) {B : γ → Unit → Prop} (h : B g ()) :
    Attempt.Notes note P B X g (Attempt.fork n ts : Attempt E ε Unit) :=
  ⟨hn, h⟩

/-- A program whose operations are not noted. -/
theorem unnoted {p : Attempt E ε α} {A : E.Op → Prop} (hp : p.Only A fun _ => False)
    (hA : ∀ o, A o → P g o ∧ ∀ r, note g o r = g) (hX : X g) :
    p.Notes note P (fun g' _ => g' = g) X g := by
  induction p with
  | ret r =>
    cases r with
    | ok a => exact rfl
    | error e => exact hX
  | op o k ih =>
    refine ⟨(hA o hp.1).1, fun r => ?_⟩
    rw [(hA o hp.1).2 r]
    exact ih r (hp.2 r)
  | fork n ts k ih => exact hp.1.elim

end Attempt.Notes

/-! ## Programs being run -/

/-- A program being run notes the operations of its own, not those of its tasks. -/
def Thread.noted (note : γ → (o : E.Op) → E.Ans o → γ)
    (act : (o : E.Op) → S → Option (E.Ans o × S)) (g : γ) (s : S) : Thread E α → γ
  | .seq (.op o _) => (act o s).elim g fun x => note g o x.1
  | _ => g

section Notes

variable (note : γ → (o : E.Op) → E.Ans o → γ) (P : γ → E.Op → Prop) (Q : γ → α → Prop)

/-- What is noted of a thread: of its program, or, while its tasks run, of what follows
    them. -/
def Thread.Notes (g : γ) : Thread E α → Prop
  | .seq p => p.Notes note P Q g
  | .par n run _ k => 0 < n ∧ (∀ p ∈ run, p.Only (fun _ => True) fun _ => False) ∧
      k.Notes note P Q g

end Notes

variable {Q : γ → α → Prop} {code : E.Task → Prog E Unit}
  {act : (o : E.Op) → S → Option (E.Ans o × S)}

/-- A step keeps it, the tasks forking none in turn. -/
theorem Thread.Notes.step (hcode : ∀ t, (code t).Only (fun _ => True) fun _ => False)
    {m : Move} {th th' : Thread E α} {s s' : S} (h : th.Notes note P Q g)
    (hs : th.step code act m s = some (th', s')) :
    th'.Notes note P Q (th.noted note act g s) := by
  match m, th with
  | .main, .seq (.op o k) =>
    obtain ⟨⟨r, s₂⟩, hr, he⟩ := Option.map_eq_some_iff.1 hs
    cases he
    rw [Thread.noted, hr]
    exact h.2 r
  | .main, .seq (.fork n ts k) =>
    cases hs
    exact ⟨h.1, fun _ hp => absurd hp List.not_mem_nil, h.2⟩
  | .main, .par _ [] [] k =>
    cases hs
    exact h.2.2
  -- a task begins: its operations are no notes of the thread
  | .start, .par n run (t :: w) k =>
    simp only [Thread.step] at hs
    split at hs
    · cases hs
      refine ⟨h.1, fun p hp => ?_, h.2.2⟩
      rcases List.mem_append.1 hp with hp | hp
      · exact h.2.1 p hp
      · rw [List.mem_singleton.1 hp]
        exact hcode t
    · cases hs
  | .task j, .par n run w k =>
    simp only [Thread.step] at hs
    split at hs
    · rename_i o k' hj
      obtain ⟨⟨r, s₂⟩, hr, he⟩ := Option.map_eq_some_iff.1 hs
      cases he
      refine ⟨h.1, fun p hp => ?_, h.2.2⟩
      rcases List.mem_or_eq_of_mem_set hp with hp | rfl
      · exact h.2.1 p hp
      · exact (h.2.1 _ (List.mem_of_getElem? hj)).2 r
    · cases hs
      exact ⟨h.1, fun p hp => h.2.1 p (List.mem_of_mem_eraseIdx hp), h.2.2⟩
    · cases hs

/-- What was noted satisfies `P` before an operation of the program. -/
theorem Thread.Notes.op {o : E.Op} {k : E.Ans o → Prog E α}
    (h : (Thread.seq (.op o k)).Notes note P Q g) : P g o :=
  h.1

theorem Thread.Notes.ret {a : α} (h : (Thread.seq (.ret a) : Thread E α).Notes note P Q g) :
    Q g a :=
  h

variable (code) in
/-- A program being run has ended, or can go on, if its operations are answered. -/
theorem Thread.Notes.exists_step (hact : ∀ o s, ∃ x, act o s = some x) {th : Thread E α}
    (h : th.Notes note P Q g) (s : S) :
    (∃ a, th = .seq (.ret a)) ∨ ∃ m x, th.step code act m s = some x := by
  cases th with
  | seq p =>
    cases p with
    | ret a => exact .inl ⟨a, rfl⟩
    | op o k =>
      obtain ⟨x, hx⟩ := hact o s
      exact .inr ⟨.main, (.seq (k x.1), x.2), by rw [Thread.step, hx]; rfl⟩
    | fork n ts k => exact .inr ⟨.main, _, rfl⟩
  | par n run w k =>
    cases run with
    | nil =>
      cases w with
      | nil => exact .inr ⟨.main, _, rfl⟩
      | cons t w => exact .inr ⟨.start, _, if_pos h.1⟩
    | cons p run =>
      cases p with
      | ret a => exact .inr ⟨.task 0, _, rfl⟩
      | op o k' =>
        obtain ⟨x, hx⟩ := hact o s
        exact .inr ⟨.task 0, (.par n (k' x.1 :: run) w k, x.2), by simp [Thread.step, hx]⟩
      | fork n' ts k' => exact (h.2.1 _ List.mem_cons_self).1.elim

end Effects
