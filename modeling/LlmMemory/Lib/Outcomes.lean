import LlmMemory.Lib.Serving

/-!
# What programs do, whatever the answers

A program may be known by the operations it does and the results it comes to,
whatever the answers it gets (`Prog.Does`): with no state, there is one rule per
construct (`Does.pure`, `Does.bind`, `Does.call`, ...). A server whose handlers
are known so only does, and answers, such things in any run (`Server.does`).
-/

namespace Effects

variable {E : Sig} {α β ε : Type}

/-- The program only does operations in `P`, forks no tasks, and comes to a result
    in `Q`. -/
def Prog.Does (P : E.Op → Prop) (Q : α → Prop) : Prog E α → Prop
  | .ret a => Q a
  | .op o k => P o ∧ ∀ r, Does P Q (k r)
  | .fork _ _ _ => False

/-- The same, of a program that may fail; nothing is said of the error. -/
abbrev Does (P : E.Op → Prop) (Q : α → Prop) (p : Attempt E ε α) : Prop :=
  Prog.Does P (fun x => ∀ a, x = .ok a → Q a) p

/-- The operation that the program comes to after these answers. -/
def Prog.after : List ((o : E.Op) → Option (E.Ans o)) → Prog E α → Option E.Op
  | [], .op o _ => some o
  | f :: fs, .op o k => (f o).bind fun r => after fs (k r)
  | _, _ => none

section Rules

variable {P : E.Op → Prop} {Q Q' : α → Prop} {R : β → Prop}

theorem Prog.Does.mono {p : Prog E α} (h : p.Does P Q) (hQ : ∀ a, Q a → Q' a) : p.Does P Q' := by
  induction p with
  | ret a => exact hQ a h
  | op o k ih => exact ⟨h.1, fun r => ih r (h.2 r)⟩
  | fork limit ts k => exact h.elim

theorem Prog.Does.imp {P' : E.Op → Prop} (hP : ∀ o, P o → P' o) {p : Prog E α} (h : p.Does P Q) :
    p.Does P' Q := by
  induction p with
  | ret a => exact h
  | op o k ih => exact ⟨hP o h.1, fun r => ih r (h.2 r)⟩
  | fork limit ts k => exact h.elim

/-- The program does what it comes to, after any answers. -/
theorem Prog.Does.after {fs : List ((o : E.Op) → Option (E.Ans o))} {p : Prog E α} {o : E.Op}
    (h : p.Does P Q) (ho : p.after fs = some o) : P o := by
  induction fs generalizing p with
  | nil =>
    cases p with
    | op o' k =>
      cases ho
      exact h.1
    | _ => cases ho
  | cons f fs ih =>
    cases p with
    | op o' k =>
      obtain ⟨r, -, hr⟩ := Option.bind_eq_some_iff.1 ho
      exact ih (h.2 r) hr
    | _ => cases ho

/-- A program only does what it does. -/
theorem Prog.Does.only {T : List E.Task → Prop} {p : Prog E α} (h : p.Does P Q) : p.Only P T := by
  induction p with
  | ret a => exact trivial
  | op o k ih => exact ⟨h.1, fun r => ih r (h.2 r)⟩
  | fork limit ts k => exact h.elim

/-- A program, and then another one. -/
theorem Prog.Does.bind {p : Prog E α} {f : α → Prog E β} (hp : p.Does P Q)
    (hf : ∀ a, Q a → (f a).Does P R) : (p.bind f).Does P R := by
  induction p with
  | ret a => exact hf a hp
  | op o k ih => exact ⟨hp.1, fun r => ih r (hp.2 r)⟩
  | fork limit ts k => exact hp.elim

namespace Does

theorem ret {x : Except ε α} (h : ∀ a, x = .ok a → Q a) : Does P Q (Prog.ret x : Attempt E ε α) := h

theorem pure {a : α} (h : Q a) : Does P Q (Pure.pure a : Attempt E ε α) := by
  intro a' ha
  cases ha
  exact h

theorem fail {e : ε} : Does P Q (Prog.ret (.error e) : Attempt E ε α) := by
  intro a ha
  cases ha

theorem bind {p : Attempt E ε α} {f : α → Attempt E ε β} (hp : Does P Q p)
    (hf : ∀ a, Q a → Does P R (f a)) : Does P R (p >>= f) := by
  refine Prog.Does.bind hp fun x hx => ?_
  cases x with
  | ok a => exact hf a (hx a rfl)
  | error e => exact fail

theorem call {o : E.Op} {k : E.Ans o → Except ε α} (ho : P o) (h : ∀ r a, k r = .ok a → Q a) :
    Does P Q (Attempt.call o k) :=
  ⟨ho, fun r => h r⟩

end Does

end Rules

end Effects

namespace Serving

open Effects Runs

variable {E : Sig} {Req α In W S : Type} {sv : Server E Req α In W S} {P : Req → E.Op → Prop}
  {Q : Req → α → Prop}

/-- What was done, and answered, is in `P` and in `Q`, and so is what is to come. -/
structure Doing (P : Req → E.Op → Prop) (Q : Req → α → Prop) (s : Sys E Req α W S) : Prop where
  did : ∀ id req o r, .did id req o r ∈ s.conf.trace → P req o
  answered : ∀ id req a, .answered id req a ∈ s.conf.trace → Q req a
  handling : ∀ h ∈ s.handling, h.prog.Does (P h.req) (Q h.req)

/-- In any run, the requests are handled as their handlers do. -/
theorem Server.does (hsv : ∀ req, (sv.handle req).Does (P req) (Q req)) {Init : S → Prop}
    {ok : Sys E Req α W S → Move Req In W → Prop} {s : Sys E Req α W S}
    (h : Reach (fun s => ∃ st, Init st ∧ s = .start st) sv.step ok s) : Doing P Q s := by
  refine h.invariant (fun s hs => ?_) fun s m s' _ hs _ hst => ?_
  · obtain ⟨st, -, rfl⟩ := hs
    exact ⟨fun _ _ _ _ he => absurd he List.not_mem_nil, fun _ _ _ he => absurd he List.not_mem_nil,
      fun _ hh => absurd hh List.not_mem_nil⟩
  · cases m with
    | request req =>
      cases hst
      refine ⟨hs.did, hs.answered, fun h hh => ?_⟩
      rcases List.mem_append.1 hh with hh | hh
      · exact hs.handling h hh
      · rw [List.mem_singleton.1 hh]
        exact hsv req
    | drop i =>
      rcases step_drop hst with rfl | ⟨-, -, rfl⟩
      · exact hs
      · exact ⟨hs.did, hs.answered, fun h hh => hs.handling h (List.mem_of_mem_eraseIdx hh)⟩
    | world w =>
      obtain ⟨st, -, rfl⟩ := Option.map_eq_some_iff.1 hst
      refine ⟨fun id req o r he => hs.did id req o r ?_,
        fun id req a he => hs.answered id req a ?_, hs.handling⟩
      · exact (Conf.mem_next.1 he).resolve_right fun h => by cases h
      · exact (Conf.mem_next.1 he).resolve_right fun h => by cases h
    | handling i input =>
      -- the request is answered, or one of its operations is performed
      rcases step_handling hst with ⟨n, req, a, hi, rfl⟩ | ⟨n, req, o, k, r, st, hi, -, rfl⟩
      · have hres := hs.handling _ (List.mem_of_getElem? hi)
        refine ⟨fun id req' o r he => ?_, fun id req' a' he => ?_,
          fun h hh => hs.handling h (List.mem_of_mem_eraseIdx hh)⟩
        · exact hs.did id req' o r ((Conf.mem_next.1 he).resolve_right fun h => by cases h)
        · rcases Conf.mem_next.1 he with he | he
          · exact hs.answered id req' a' he
          · cases he
            exact hres
      · obtain ⟨ho, hk⟩ := hs.handling _ (List.mem_of_getElem? hi)
        refine ⟨fun id req' o' r' he => ?_, fun id req' a he => ?_, fun h hh => ?_⟩
        · rcases Conf.mem_next.1 he with he | he
          · exact hs.did id req' o' r' he
          · cases he
            exact ho
        · exact hs.answered id req' a ((Conf.mem_next.1 he).resolve_right fun h => by cases h)
        · rcases List.mem_or_eq_of_mem_set hh with hh | rfl
          · exact hs.handling h hh
          · exact hk r

end Serving
