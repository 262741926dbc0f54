import Mathlib.Logic.Relation
import Mathlib.Data.Nat.Notation

/-!
# Programs with effects

A *program* (`Prog`) is a tree of operations on a shared state, each followed
by a continuation on its answer. It may also *fork* tasks, which run side by
side, at most `limit` at a time, and wait for all of them.

Programs run interleaved: between any two operations of a program the state
may be changed by others. They are therefore verified by rely and guarantee.
An interpretation (`Interp`) gives what the operations do, the changes others
may make (`rely`), and the changes the program may make (`guar`):

* `Safe`: from here, and whatever others do, every operation of the program
  stays in the guarantee, and its result satisfies the postcondition;
* `Triple`: so from every state satisfying the precondition, with one rule per
  construct (`Triple.ret`, `Triple.op`, `Triple.bind`, `Triple.fork`), and for
  programs that may fail (`Attempt`) a rule for their sequencing
  (`Triple.andThen`);
* `Thread.Safe`: the same about a program being run, kept by the changes of
  others (`Thread.Safe.env`) and by its own steps (`Thread.Safe.step`).
-/

namespace Effects

open Relation

/-- What programs may do: the operations, the answers each may get, and the
    tasks they may fork. -/
structure Sig where
  Op : Type
  Ans : Op → Type
  Task : Type

/-- A program with result in `α`. -/
inductive Prog (E : Sig) (α : Type) where
  | ret (a : α)
  | op (o : E.Op) (k : E.Ans o → Prog E α)
  | fork (limit : ℕ) (ts : List E.Task) (k : Prog E α)

variable {E : Sig} {S : Type} {α β ε : Type}

namespace Prog

/-- A program, and then another one with its result. -/
def bind (f : α → Prog E β) : Prog E α → Prog E β
  | ret a => f a
  | op o k => op o fun r => bind f (k r)
  | fork n ts k => fork n ts (bind f k)

end Prog

/-- A program that may fail with an error in `ε`, which ends it. -/
def Attempt (E : Sig) (ε α : Type) : Type := Prog E (Except ε α)

namespace Attempt

/-- The continuation `f`, on success. -/
def onOk (f : α → Attempt E ε β) : Except ε α → Prog E (Except ε β)
  | .ok a => f a
  | .error e => .ret (.error e)

instance : Monad (Attempt E ε) where
  pure a := .ret (.ok a)
  bind p f := Prog.bind (onOk f) p

/-- A single operation, its answer read by `k`. -/
def call (o : E.Op) (k : E.Ans o → Except ε α) : Attempt E ε α := Prog.op o fun r => .ret (k r)

/-- Fork tasks, and wait for them. -/
def fork (limit : ℕ) (ts : List E.Task) : Attempt E ε Unit :=
  Prog.fork limit ts (.ret (.ok ()))

end Attempt

/-! ## Running -/

/-- A program being run: alone, or waiting for the tasks it forked, those
    `running` and those still `waiting` to start. -/
inductive Thread (E : Sig) (α : Type) where
  | seq (p : Prog E α)
  | par (limit : ℕ) (running : List (Prog E Unit)) (waiting : List E.Task) (k : Prog E α)

/-- What moves in a thread: the program itself, the next waiting task, or the
    `j`-th running one. -/
inductive Move
  | main
  | start
  | task (j : ℕ)
  deriving DecidableEq, Repr

/-- One step of a thread, with `act` the effect of the operations. -/
def Thread.step (code : E.Task → Prog E Unit) (act : (o : E.Op) → S → Option (E.Ans o × S)) :
    Move → Thread E α → S → Option (Thread E α × S)
  | .main, .seq (.op o k), s => (act o s).map fun x => (.seq (k x.1), x.2)
  | .main, .seq (.fork n ts k), s => some (.par n [] ts k, s)
  | .main, .par _ [] [] k, s => some (.seq k, s)
  | .start, .par n run (t :: w) k, s =>
      if run.length < n then some (.par n (run ++ [code t]) w k, s) else none
  | .task j, .par n run w k, s =>
      match run[j]? with
      | some (.op o k') => (act o s).map fun x => (.par n (run.set j (k' x.1)) w k, x.2)
      | some (.ret _) => some (.par n (run.eraseIdx j) w k, s)
      | _ => none
  | _, _, _ => none

/-- The operation that a move does, if it does one. -/
def Thread.nextOp : Move → Thread E α → Option E.Op
  | .main, .seq (.op o _) => some o
  | .task j, .par _ run _ _ =>
    match run[j]? with
    | some (.op o _) => some o
    | _ => none
  | _, _ => none

/-- A program that only returns has no operation to do. -/
theorem Thread.nextOp_ret {m : Move} {a : α} :
    (Thread.seq (.ret a) : Thread E α).nextOp m = none := by
  cases m <;> rfl

/-- A step of a thread changes the state by the operation it does, if at all. -/
theorem Thread.step_state {code : E.Task → Prog E Unit}
    {act : (o : E.Op) → S → Option (E.Ans o × S)} {m : Move} {th th' : Thread E α} {s s' : S}
    (h : th.step code act m s = some (th', s')) :
    s' = s ∨ ∃ o r, th.nextOp m = some o ∧ act o s = some (r, s') := by
  match m, th with
  | .main, .seq (.op o k) =>
    obtain ⟨⟨r, s₂⟩, hr, he⟩ := Option.map_eq_some_iff.1 h
    cases he
    exact .inr ⟨o, r, rfl, hr⟩
  | .main, .seq (.fork n ts k) => cases h; exact .inl rfl
  | .main, .par _ [] [] k => cases h; exact .inl rfl
  | .start, .par n run (t :: w) k =>
    simp only [Thread.step] at h
    split at h
    · cases h; exact .inl rfl
    · cases h
  | .task j, .par n run w k =>
    simp only [Thread.step] at h
    split at h
    · rename_i o k' hj
      obtain ⟨⟨r, s₂⟩, hr, he⟩ := Option.map_eq_some_iff.1 h
      cases he
      exact .inr ⟨o, r, by simp [Thread.nextOp, hj], hr⟩
    · cases h; exact .inl rfl
    · cases h

/-- A step of a thread that has an operation to do does it. -/
theorem Thread.step_of_nextOp {code : E.Task → Prog E Unit}
    {act : (o : E.Op) → S → Option (E.Ans o × S)} {m : Move} {th th' : Thread E α} {s s' : S}
    {o : E.Op} (ho : th.nextOp m = some o) (h : th.step code act m s = some (th', s')) :
    ∃ r, act o s = some (r, s') := by
  match m, th with
  | .main, .seq (.op o' k) =>
    cases ho
    obtain ⟨⟨r, s₂⟩, hr, he⟩ := Option.map_eq_some_iff.1 h
    cases he
    exact ⟨r, hr⟩
  | .task j, .par n run w k =>
    simp only [Thread.nextOp] at ho
    split at ho
    · rename_i o' k' hj
      cases ho
      simp only [Thread.step, hj] at h
      obtain ⟨⟨r, s₂⟩, hr, he⟩ := Option.map_eq_some_iff.1 h
      cases he
      exact ⟨r, hr⟩
    · cases ho

/-! ## Safety -/

/-- How the operations act on the states in `S`, what others may do, and what
    the program may do. -/
structure Interp (E : Sig) (S : Type) where
  perf : (o : E.Op) → S → E.Ans o → S → Prop
  rely : S → S → Prop
  guar : S → S → Prop

/-- What others may do, in any number of steps. -/
abbrev Interp.Env (I : Interp E S) : S → S → Prop := ReflTransGen I.rely

/-- `A` is kept by what others may do. -/
def Interp.Stable (I : Interp E S) (A : S → Prop) : Prop := ∀ s s', A s → I.rely s s' → A s'

/-- When forking tasks is safe, given what is to hold after them: if less is
    to hold it is safe too, and others do not make it unsafe. -/
structure Forks (I : Interp E S) where
  holds : List E.Task → (S → Prop) → S → Prop
  mono : ∀ {ts s} {K K' : S → Prop}, (∀ s, K s → K' s) → holds ts K s → holds ts K' s
  env : ∀ {ts s s'} {K : S → Prop}, holds ts K s → I.rely s s' → holds ts K s'

/-- From `s`, whatever others do, the operations of a program stay in the
    guarantee and its result satisfies `Q`. -/
def Safe (I : Interp E S) (F : Forks I) (Q : α → S → Prop) : Prog E α → S → Prop
  | .ret a, s => ∀ s', I.Env s s' → Q a s'
  | .op o k, s => ∀ s₁, I.Env s s₁ → ∀ r s₂, I.perf o s₁ r s₂ →
      I.guar s₁ s₂ ∧ Safe I F Q (k r) s₂
  | .fork _ ts k, s => F.holds ts (Safe I F Q k) s

/-- From every state where `A` holds, `p` is safe with postcondition `Q`. -/
def Triple (I : Interp E S) (F : Forks I) (A : S → Prop) (p : Prog E α) (Q : α → S → Prop) : Prop :=
  ∀ s, A s → Safe I F Q p s

section Rules

variable {I : Interp E S} {F : Forks I} {A : S → Prop} {Q : α → S → Prop}

/-- A stable assertion is kept by any steps of others. -/
theorem Interp.Stable.star (h : I.Stable A) {s s' : S} (hs : A s) (hr : I.Env s s') : A s' := by
  induction hr with
  | refl => exact hs
  | tail _ hstep ih => exact h _ _ ih hstep

/-- Two assertions that are stable. -/
theorem Interp.Stable.and {B : S → Prop} (hA : I.Stable A) (hB : I.Stable B) :
    I.Stable fun s => A s ∧ B s :=
  fun s s' h hr => ⟨hA s s' h.1 hr, hB s s' h.2 hr⟩

theorem Interp.Stable.or {B : S → Prop} (hA : I.Stable A) (hB : I.Stable B) :
    I.Stable fun s => A s ∨ B s :=
  fun s s' h hr => h.imp (hA s s' · hr) (hB s s' · hr)

/-- An assertion that does not depend on the state. -/
theorem Interp.Stable.const (p : Prop) : I.Stable fun _ => p := fun _ _ h _ => h

/-- A safe program stays safe when others move. -/
theorem Safe.env {p : Prog E α} {s s' : S} (hp : Safe I F Q p s) (hr : I.rely s s') :
    Safe I F Q p s' := by
  cases p with
  | ret a => exact fun s₁ h => hp s₁ (.head hr h)
  | op o k => exact fun s₁ h => hp s₁ (.head hr h)
  | fork n ts k => exact F.env hp hr

/-- A program followed by one that is safe from its results. -/
theorem Safe.bind {f : α → Prog E β} {Q' : β → S → Prop} {p : Prog E α} {s : S}
    (hp : Safe I F (fun a s => Safe I F Q' (f a) s) p s) : Safe I F Q' (p.bind f) s := by
  induction p generalizing s with
  | ret a => exact hp s .refl
  | op o k ih => exact fun s₁ h₁ r s₂ h₂ => (hp s₁ h₁ r s₂ h₂).imp_right (ih r)
  | fork n ts k ih => exact F.mono (fun _ => ih) hp

/-- A program that is safe may claim less. -/
theorem Safe.post {Q' : α → S → Prop} (h : ∀ a s, Q a s → Q' a s) {p : Prog E α} {s : S}
    (hp : Safe I F Q p s) : Safe I F Q' p s := by
  induction p generalizing s with
  | ret a => exact fun s' hr => h a s' (hp s' hr)
  | op o k ih => exact fun s₁ h₁ r s₂ h₂ => (hp s₁ h₁ r s₂ h₂).imp_right (ih r)
  | fork n ts k ih => exact F.mono (fun _ => ih) hp

namespace Triple

theorem ret {a : α} (hst : I.Stable A) (h : ∀ s, A s → Q a s) : Triple I F A (.ret a) Q :=
  fun _ hs s' hr => h s' (hst.star hs hr)

/-- An operation done where `A` holds, giving `B` on its answer. -/
theorem op {o : E.Op} {k : E.Ans o → Prog E α} (B : E.Ans o → S → Prop) (hst : I.Stable A)
    (h : ∀ s r s', A s → I.perf o s r s' → I.guar s s' ∧ B r s')
    (hk : ∀ r, Triple I F (B r) (k r) Q) : Triple I F A (.op o k) Q :=
  fun _ hs s₁ hr r s₂ hp =>
    let ⟨hg, hB⟩ := h s₁ r s₂ (hst.star hs hr) hp
    ⟨hg, hk r s₂ hB⟩

/-- A program, and then another one. -/
theorem bind {p : Prog E α} {f : α → Prog E β} {Q' : β → S → Prop} (hp : Triple I F A p Q)
    (hf : ∀ a, Triple I F (Q a) (f a) Q') : Triple I F A (p.bind f) Q' :=
  fun s hs => Safe.bind (Safe.post (fun a s h => hf a s h) (hp s hs))

theorem pre {A' : S → Prop} {p : Prog E α} (hp : Triple I F A' p Q) (h : ∀ s, A s → A' s) :
    Triple I F A p Q :=
  fun s hs => hp s (h s hs)

theorem post {Q' : α → S → Prop} {p : Prog E α} (hp : Triple I F A p Q)
    (h : ∀ a s, Q a s → Q' a s) : Triple I F A p Q' :=
  fun s hs => Safe.post h (hp s hs)

/-- A fact that the precondition gives, whatever the state, may be assumed. -/
theorem assume {P : Prop} {p : Prog E α} (hA : ∀ s, A s → P) (h : P → Triple I F A p Q) :
    Triple I F A p Q :=
  fun s hs => h (hA s hs) s hs

end Triple

/-! ### Programs that may fail -/

/-- `B` on the result of a program that may fail, and `X` if it failed. -/
def OnOk (B : α → S → Prop) (X : S → Prop) : Except ε α → S → Prop
  | .ok a, s => B a s
  | .error _, s => X s

variable {X : S → Prop} {B : α → S → Prop} {C : β → S → Prop}

namespace Triple

/-- A part that only gives a result. -/
theorem pure {a : α} (hst : I.Stable A) (h : ∀ s, A s → B a s) :
    Triple I F A (Pure.pure a : Attempt E ε α) (OnOk B X) :=
  ret hst h

/-- Sequencing: an error of the first program ends both. -/
theorem andThen {p : Attempt E ε α} {f : α → Attempt E ε β} (hX : I.Stable X)
    (hp : Triple I F A p (OnOk B X)) (hf : ∀ a, Triple I F (B a) (f a) (OnOk C X)) :
    Triple I F A (p >>= f : Attempt E ε β) (OnOk C X) :=
  bind hp fun
    | .ok a => hf a
    | .error _ => ret hX fun _ h => h

/-- A single operation, its answer read by `k`. -/
theorem call {o : E.Op} {k : E.Ans o → Except ε α} (hA : I.Stable A) (hB : ∀ a, I.Stable (B a))
    (hX : I.Stable X)
    (h : ∀ s r s', A s → I.perf o s r s' → I.guar s s' ∧ OnOk B X (k r) s') :
    Triple I F A (Attempt.call o k) (OnOk B X) :=
  op (fun r => OnOk B X (k r)) hA h fun r => ret (by
    cases k r with
    | ok a => exact hB a
    | error e => exact hX) fun _ h => h

end Triple

end Rules

/-! ## Forked tasks -/

/-- Tasks see the changes of others and those of their siblings. -/
def Interp.tasks (I : Interp E S) (J : S → Prop) (T : S → S → Prop) : Interp E S where
  perf := I.perf
  rely s s' := I.rely s s' ∨ (J s ∧ T s s')
  guar := T

/-- A task does not fork in turn. -/
def Forks.never (I : Interp E S) : Forks I where
  holds _ _ _ := False
  mono _ h := h
  env h _ := h

/-- A task is safe, whatever its result. -/
abbrev TaskSafe (I : Interp E S) : Prog E Unit → S → Prop := Safe I (.never I) fun _ _ => True

/-- The tasks `ts` may run side by side where `J` holds, each with the
    guarantee `T`. -/
structure SideBySide (I : Interp E S) (code : E.Task → Prog E Unit) (ts : List E.Task)
    (J : S → Prop) (T : S → S → Prop) : Prop where
  stable : I.Stable J
  guar : ∀ s s', J s → T s s' → J s' ∧ I.guar s s'
  tasks : ∀ t ∈ ts, ∀ s, J s → TaskSafe (I.tasks J T) (code t) s

/-- Forked tasks run side by side, keeping some `J`. -/
def Forks.sideBySide (I : Interp E S) (code : E.Task → Prog E Unit) : Forks I where
  holds ts K s := ∃ J T, J s ∧ SideBySide I code ts J T ∧ ∀ s', J s' → K s'
  mono h := fun ⟨J, T, hJ, hts, hK⟩ => ⟨J, T, hJ, hts, fun s' hs' => h s' (hK s' hs')⟩
  env := fun ⟨J, T, hJ, hts, hK⟩ hr => ⟨J, T, hts.stable _ _ hJ hr, hts, hK⟩

variable {I : Interp E S} {code : E.Task → Prog E Unit}

/-- Tasks that are safe side by side. -/
theorem Triple.fork {limit : ℕ} {ts : List E.Task} {A X : S → Prop} (T : S → S → Prop)
    (h : SideBySide I code ts A T) :
    Triple I (.sideBySide I code) A (Attempt.fork limit ts : Attempt E ε Unit)
      (OnOk (fun _ => A) X) :=
  fun _ hs => ⟨A, T, hs, h, fun _ hs' _ hr => h.stable.star hs' hr⟩

/-- A program being run is safe. -/
def Thread.Safe (I : Interp E S) (code : E.Task → Prog E Unit) (Q : α → S → Prop) :
    Thread E α → S → Prop
  | .seq p, s => Effects.Safe I (.sideBySide I code) Q p s
  | .par _ running waiting k, s => ∃ J T, J s ∧ SideBySide I code waiting J T ∧
      (∀ p ∈ running, TaskSafe (I.tasks J T) p s) ∧
      ∀ s', J s' → Effects.Safe I (.sideBySide I code) Q k s'

/-- A thread stays safe while others move. -/
theorem Thread.Safe.env {Q : α → S → Prop} {th : Thread E α} {s s' : S}
    (h : th.Safe I code Q s) (hr : I.rely s s') : th.Safe I code Q s' := by
  cases th with
  | seq p => exact Effects.Safe.env h hr
  | par n run w k =>
    obtain ⟨J, T, hJ, hw, hrun, hk⟩ := h
    exact ⟨J, T, hw.stable _ _ hJ hr, hw, fun p hp => Effects.Safe.env (hrun p hp) (.inl hr), hk⟩

/-- A step of a safe thread is in the guarantee, and leaves it safe. -/
theorem Thread.Safe.step {Q : α → S → Prop} {act : (o : E.Op) → S → Option (E.Ans o × S)}
    (hact : ∀ o s r s', act o s = some (r, s') → I.perf o s r s') {m : Move} {th th' : Thread E α}
    {s s' : S} (h : th.Safe I code Q s) (hs : th.step code act m s = some (th', s')) :
    (s' = s ∨ I.guar s s') ∧ th'.Safe I code Q s' := by
  match m, th with
  | .main, .seq (.op o k) =>
    obtain ⟨⟨r, s₂⟩, hr, he⟩ := Option.map_eq_some_iff.1 hs
    cases he
    obtain ⟨hg, hk⟩ := h s .refl r _ (hact _ _ _ _ hr)
    exact ⟨.inr hg, hk⟩
  | .main, .seq (.fork n ts k) =>
    cases hs
    obtain ⟨J, T, hJ, hts, hK⟩ := h
    exact ⟨.inl rfl, J, T, hJ, hts, fun _ hp => absurd hp List.not_mem_nil, hK⟩
  -- no task is left: what all of them keep is what the program goes on with
  | .main, .par _ [] [] k =>
    cases hs
    obtain ⟨J, T, hJ, _, _, hk⟩ := h
    exact ⟨.inl rfl, hk _ hJ⟩
  -- a task starts where the invariant of all of them holds
  | .start, .par n run (t :: w) k =>
    obtain ⟨J, T, hJ, hw, hrun, hk⟩ := h
    simp only [Thread.step] at hs
    split at hs
    · cases hs
      refine ⟨.inl rfl, J, T, hJ, ⟨hw.stable, hw.guar, fun t' ht' => hw.tasks t' (.tail _ ht')⟩,
        fun p hp => ?_, hk⟩
      rcases List.mem_append.1 hp with hp | hp
      · exact hrun p hp
      · rw [List.mem_singleton.1 hp]
        exact hw.tasks t List.mem_cons_self _ hJ
    · cases hs
  | .task j, .par n run w k =>
    obtain ⟨J, T, hJ, hw, hrun, hk⟩ := h
    simp only [Thread.step] at hs
    split at hs
    · rename_i o k' hj
      obtain ⟨⟨r, s₂⟩, hr, he⟩ := Option.map_eq_some_iff.1 hs
      cases he
      obtain ⟨hT, hk'⟩ := hrun _ (List.mem_of_getElem? hj) s .refl r _ (hact _ _ _ _ hr)
      obtain ⟨hJ', hg⟩ := hw.guar _ _ hJ hT
      refine ⟨.inr hg, J, T, hJ', hw, fun p hp => ?_, hk⟩
      rcases List.mem_or_eq_of_mem_set hp with hp | rfl
      -- the other tasks rely on what this one guarantees
      · exact Effects.Safe.env (hrun p hp) (.inr ⟨hJ, hT⟩)
      · exact hk'
    · cases hs
      exact ⟨.inl rfl, J, T, hJ, hw, fun p hp => hrun p (List.mem_of_mem_eraseIdx hp), hk⟩
    · cases hs

/-! ## Programs with some operations only -/

/-- The program only does operations in `P`, and forks tasks only if `T`. -/
def Prog.Only (P : E.Op → Prop) (T : List E.Task → Prop) : Prog E α → Prop
  | .ret _ => True
  | .op o k => P o ∧ ∀ r, Only P T (k r)
  | .fork _ ts k => T ts ∧ Only P T k

/-- The same, of a program that may fail. -/
abbrev Attempt.Only (P : E.Op → Prop) (T : List E.Task → Prop) (p : Attempt E ε α) : Prop :=
  Prog.Only P T p

section Only

variable {P : E.Op → Prop} {T : List E.Task → Prop}

/-- A program, and then another one. -/
theorem Prog.Only.bind {p : Prog E α} {f : α → Prog E β} (hp : p.Only P T)
    (hf : ∀ a, (f a).Only P T) : (p.bind f).Only P T := by
  induction p with
  | ret a => exact hf a
  | op o k ih => exact ⟨hp.1, fun r => ih r (hp.2 r)⟩
  | fork n ts k ih => exact ⟨hp.1, ih hp.2⟩

theorem Prog.Only.mono {P' : E.Op → Prop} (h : ∀ o, P o → P' o) {p : Prog E α}
    (hp : p.Only P T) : p.Only P' T := by
  induction p with
  | ret a => exact trivial
  | op o k ih => exact ⟨h o hp.1, fun r => ih r (hp.2 r)⟩
  | fork n ts k ih => exact ⟨hp.1, ih hp.2⟩

namespace Attempt.Only

theorem pure {a : α} : Attempt.Only P T (Pure.pure a : Attempt E ε α) := trivial

theorem andThen {p : Attempt E ε α} {f : α → Attempt E ε β} (hp : p.Only P T)
    (hf : ∀ a, (f a).Only P T) : Attempt.Only P T (p >>= f) :=
  Prog.Only.bind hp fun
    | .ok a => hf a
    | .error _ => trivial

theorem call {o : E.Op} {k : E.Ans o → Except ε α} (h : P o) :
    Attempt.Only P T (Attempt.call o k) :=
  ⟨h, fun _ => trivial⟩

theorem fork {limit : ℕ} {ts : List E.Task} (h : T ts) :
    Attempt.Only P T (Attempt.fork limit ts : Attempt E ε Unit) :=
  ⟨h, trivial⟩

end Attempt.Only

variable (hP : ∀ o s r s', P o → I.perf o s r s' → I.guar s s')
include hP

/-- A task is safe where its operations are in the guarantee. -/
theorem Prog.Only.taskSafe {p : Prog E Unit} (h : p.Only P fun _ => False) (s : S) :
    TaskSafe I p s := by
  induction p generalizing s with
  | ret _ => exact fun _ _ => trivial
  | op o k ih => exact fun s₁ _ r s₂ hp => ⟨hP o s₁ r s₂ h.1 hp, ih r (h.2 r) s₂⟩
  | fork _ _ _ => exact h.1.elim

omit hP in
/-- A program keeps what its operations keep. -/
theorem Prog.Only.keeps {A : S → Prop} {F : Forks I} (hst : I.Stable A)
    (hA : ∀ o s r s', P o → A s → I.perf o s r s' → I.guar s s' ∧ A s') {p : Prog E α}
    (h : p.Only P fun _ => False) : Triple I F A p fun _ => A := by
  induction p with
  | ret _ => exact Triple.ret hst fun _ hs => hs
  | op o k ih =>
    exact Triple.op (fun _ => A) hst (fun s r s' hs hp => hA o s r s' h.1 hs hp) fun r => ih r (h.2 r)
  | fork _ _ _ => exact h.1.elim

/-- A program is safe where its operations and those of its tasks are in the
    guarantee. -/
theorem Prog.Only.safe {p : Prog E α} (h : p.Only P T)
    (hT : ∀ ts, T ts → ∀ t ∈ ts, (code t).Only P fun _ => False) (s : S) :
    Safe I (.sideBySide I code) (fun _ _ => True) p s := by
  induction p generalizing s with
  | ret _ => exact fun _ _ => trivial
  | op o k ih => exact fun s₁ _ r s₂ hp => ⟨hP o s₁ r s₂ h.1 hp, ih r (h.2 r) s₂⟩
  | fork _ ts k ih =>
    refine ⟨fun _ => True, I.guar, trivial, ⟨fun _ _ _ _ => trivial, fun _ _ _ hg => ⟨trivial, hg⟩,
      fun t ht s _ => ?_⟩, fun s' _ => ih h.2 s'⟩
    exact Prog.Only.taskSafe (I := I.tasks _ I.guar) hP (hT ts h.1 t ht) s

end Only

end Effects
