import LlmMemory.Lib.Serving

/-!
# Answers that are not told apart

Given which answers to an operation are *alike*, two programs *agree* (`Prog.Agrees`) if
they do the same operations as long as their answers are alike, and come to results that
are alike. A program that agrees with itself does not tell alike answers apart.

So it is with a server all of whose handlers agree with themselves (`Server.exec_alike`):
two runs by the same moves, but for inputs that give answers that are alike, do the same
and answer the same.
-/

namespace Effects

variable {E : Sig} {α α' β β' ε : Type}

/-- The programs do the same, and come to results in `Q`, as long as the answers are
    alike. -/
def Prog.Agrees (R : (o : E.Op) → E.Ans o → E.Ans o → Prop) (Q : α → α' → Prop) :
    Prog E α → Prog E α' → Prop
  | .ret a, q => ∃ b, q = .ret b ∧ Q a b
  | .op o k, q => ∃ k', q = .op o k' ∧ ∀ r r', R o r r' → Agrees R Q (k r) (k' r')
  | .fork _ _ _, _ => False

/-- The results are in `Q`, or they are the same error. -/
inductive SameEnd (Q : α → α' → Prop) : Except ε α → Except ε α' → Prop
  | ok {a : α} {b : α'} (h : Q a b) : SameEnd Q (.ok a) (.ok b)
  | error (e : ε) : SameEnd Q (.error e) (.error e)

/-- The same, of programs that may fail. -/
abbrev Agrees (R : (o : E.Op) → E.Ans o → E.Ans o → Prop) (Q : α → α' → Prop)
    (p : Attempt E ε α) (q : Attempt E ε α') : Prop :=
  Prog.Agrees R (SameEnd Q) p q

section Rules

variable {R : (o : E.Op) → E.Ans o → E.Ans o → Prop} {Q Q' : α → α' → Prop} {T : β → β' → Prop}

theorem Prog.Agrees.mono {p : Prog E α} {q : Prog E α'} (h : p.Agrees R Q q)
    (hQ : ∀ a b, Q a b → Q' a b) : p.Agrees R Q' q := by
  induction p generalizing q with
  | ret a =>
    obtain ⟨b, rfl, hb⟩ := h
    exact ⟨b, rfl, hQ a b hb⟩
  | op o k ih =>
    obtain ⟨k', rfl, hk⟩ := h
    exact ⟨k', rfl, fun r r' hr => ih r (hk r r' hr)⟩
  | fork n ts k => exact h.elim

/-- Programs that agree, followed by such programs. -/
theorem Prog.Agrees.bind {p : Prog E α} {q : Prog E α'} {f : α → Prog E β} {g : α' → Prog E β'}
    (h : p.Agrees R Q q) (hf : ∀ a b, Q a b → (f a).Agrees R T (g b)) :
    (p.bind f).Agrees R T (q.bind g) := by
  induction p generalizing q with
  | ret a =>
    obtain ⟨b, rfl, hb⟩ := h
    exact hf a b hb
  | op o k ih =>
    obtain ⟨k', rfl, hk⟩ := h
    exact ⟨_, rfl, fun r r' hr => ih r (hk r r' hr)⟩
  | fork n ts k => exact h.elim

namespace Agrees

theorem pure {a : α} {b : α'} (h : Q a b) :
    Agrees R Q (Pure.pure a : Attempt E ε α) (Pure.pure b) :=
  ⟨_, rfl, .ok h⟩

theorem fail {e : ε} : Agrees R Q (Prog.ret (.error e) : Attempt E ε α) (Prog.ret (.error e)) :=
  ⟨_, rfl, .error e⟩

/-- Parts that agree, followed by such parts. -/
theorem bind {p : Attempt E ε α} {q : Attempt E ε α'} {f : α → Attempt E ε β}
    {g : α' → Attempt E ε β'} (h : Agrees R Q p q) (hf : ∀ a b, Q a b → Agrees R T (f a) (g b)) :
    Agrees R T (p >>= f) (q >>= g) := by
  refine Prog.Agrees.bind h fun x y hxy => ?_
  cases hxy with
  | ok hab => exact hf _ _ hab
  | error e => exact fail

/-- An operation whose answers end alike. -/
theorem call {o : E.Op} {k k' : E.Ans o → Except ε α} {Q : α → α → Prop}
    (h : ∀ r r', R o r r' → SameEnd Q (k r) (k' r')) :
    Agrees R Q (Attempt.call o k) (Attempt.call o k') :=
  ⟨_, rfl, fun r r' hr => ⟨_, rfl, h r r' hr⟩⟩

end Agrees

end Rules

end Effects

namespace Serving

open Effects Runs

variable {E : Sig} {Req α In W S : Type} {R : (o : E.Op) → E.Ans o → E.Ans o → Prop}
  {Rin : In → In → Prop} {sv : Server E Req α In W S}

/-- The events are the same, but for the answers, which are alike. -/
inductive Event.Alike (R : (o : E.Op) → E.Ans o → E.Ans o → Prop) :
    Event E Req α W → Event E Req α W → Prop
  | did {id : ℕ} {req : Req} {o : E.Op} {r r' : E.Ans o} (h : R o r r') :
      Alike R (.did id req o r) (.did id req o r')
  | answered {id : ℕ} {req : Req} {a : α} : Alike R (.answered id req a) (.answered id req a)
  | world {w : W} : Alike R (.world w) (.world w)

/-- The moves are the same, but for the inputs, which are alike. -/
inductive Move.Alike (Rin : In → In → Prop) : Move Req In W → Move Req In W → Prop
  | request {req : Req} : Alike Rin (.request req) (.request req)
  | handling {i : ℕ} {input input' : In} (h : Rin input input') :
      Alike Rin (.handling i input) (.handling i input')
  | drop {i : ℕ} : Alike Rin (.drop i) (.drop i)
  | world {w : W} : Alike Rin (.world w) (.world w)

/-- The request is handled in the same way from here on. -/
structure Handling.Alike (R : (o : E.Op) → E.Ans o → E.Ans o → Prop)
    (h h' : Handling E Req α) : Prop where
  id : h.id = h'.id
  req : h.req = h'.req
  prog : h.prog.Agrees R Eq h'.prog

/-- The states are the same, and the traces and the requests in flight are alike. -/
structure Sys.Alike (R : (o : E.Op) → E.Ans o → E.Ans o → Prop) (s t : Sys E Req α W S) :
    Prop where
  state : s.conf.state = t.conf.state
  trace : List.Forall₂ (Event.Alike R) s.conf.trace t.conf.trace
  handling : List.Forall₂ (Handling.Alike R) s.handling t.handling
  received : s.received = t.received

/-- Handlers do not tell alike answers apart, and inputs that are alike give such answers,
    and the same state. -/
structure Server.Discreet (sv : Server E Req α In W S)
    (R : (o : E.Op) → E.Ans o → E.Ans o → Prop) (Rin : In → In → Prop) : Prop where
  handle : ∀ req, (sv.handle req).Agrees R Eq (sv.handle req)
  perform : ∀ n req input input' o s r s', Rin input input' →
    sv.perform n req input o s = some (r, s') →
    ∃ r', sv.perform n req input' o s = some (r', s') ∧ R o r r'

section Steps

variable {s s' t : Sys E Req α W S}

/-- Handlings at a place are alike. -/
theorem Sys.Alike.getElem? (h : Sys.Alike R s t) {i : ℕ} {hd : Handling E Req α}
    (hi : s.handling[i]? = some hd) : ∃ hd', t.handling[i]? = some hd' ∧ hd.Alike R hd' := by
  obtain ⟨hlt, rfl⟩ := List.getElem?_eq_some_iff.1 hi
  have hlt' : i < t.handling.length := h.handling.length_eq ▸ hlt
  exact ⟨_, List.getElem?_eq_getElem hlt', List.forall₂_iff_get.1 h.handling |>.2 i hlt hlt'⟩

theorem forall₂_snoc {β γ : Type} {P : β → γ → Prop} {l : List β} {l' : List γ} {x : β} {y : γ}
    (h : List.Forall₂ P l l') (hx : P x y) : List.Forall₂ P (l ++ [x]) (l' ++ [y]) :=
  List.rel_append h (.cons hx .nil)

/-- Related lists, with one element each replaced. -/
theorem forall₂_set {β γ : Type} {P : β → γ → Prop} {l : List β} {l' : List γ} {x : β} {y : γ}
    (h : List.Forall₂ P l l') (hx : P x y) (i : ℕ) :
    List.Forall₂ P (l.set i x) (l'.set i y) := by
  induction h generalizing i with
  | nil => exact .nil
  | cons hab hrest ih =>
    cases i with
    | zero => exact .cons hx hrest
    | succ i => exact .cons hab (ih i)

/-- Related lists, with one element each left out. -/
theorem forall₂_eraseIdx {β γ : Type} {P : β → γ → Prop} {l : List β} {l' : List γ}
    (h : List.Forall₂ P l l') (i : ℕ) : List.Forall₂ P (l.eraseIdx i) (l'.eraseIdx i) := by
  induction h generalizing i with
  | nil => exact .nil
  | cons hab hrest ih =>
    cases i with
    | zero => exact hrest
    | succ i => exact .cons hab (ih i)

/-- A step is possible by an alike move, and leads to where things are alike. -/
theorem Server.Discreet.step (hsv : sv.Discreet R Rin) (h : Sys.Alike R s t)
    {m m' : Move Req In W} (hm : m.Alike Rin m') (hst : sv.step s m = some s') :
    ∃ t', sv.step t m' = some t' ∧ Sys.Alike R s' t' := by
  obtain ⟨⟨st, trace⟩, handling, received⟩ := t
  obtain ⟨rfl, htrace, hhandling, rfl⟩ := id h
  cases hm with
  | @request req =>
    cases hst
    exact ⟨_, rfl, rfl, htrace, forall₂_snoc hhandling ⟨rfl, rfl, hsv.handle req⟩, rfl⟩
  | @world w =>
    obtain ⟨st, hw, rfl⟩ := Option.map_eq_some_iff.1 hst
    exact ⟨_, Option.map_eq_some_iff.2 ⟨st, hw, rfl⟩, rfl, forall₂_snoc htrace .world, hhandling,
      rfl⟩
  | @drop i =>
    cases hst
    refine ⟨_, rfl, ?_, ?_, forall₂_eraseIdx hhandling i, rfl⟩
    · show _ = (Option.elim handling[i]? _ _ : Conf E Req α W S).state
      cases hi : s.handling[i]? with
      | none =>
        have hnone : handling[i]? = none := by
          rw [List.getElem?_eq_none_iff] at hi ⊢
          exact hhandling.length_eq ▸ hi
        rw [hnone]
        rfl
      | some hd =>
        obtain ⟨hd', hi', hid, hreq, -⟩ := h.getElem? hi
        rw [hi', Option.elim, Option.elim, hid, hreq]
    · show List.Forall₂ _ (Option.elim s.handling[i]? _ _ : Conf E Req α W S).trace
        (Option.elim handling[i]? _ _ : Conf E Req α W S).trace
      cases s.handling[i]? <;> cases handling[i]? <;> exact htrace
  | @handling i input input' hin =>
    rcases step_handling hst with ⟨n, req, a, hi, rfl⟩ | ⟨n, req, o, k, r, st, hi, hp, rfl⟩
    · obtain ⟨⟨n', req', prog⟩, hi', rfl, rfl, hprog⟩ := h.getElem? hi
      obtain ⟨b, rfl, rfl⟩ := hprog
      have hst' : sv.step ⟨⟨s.conf.state, trace⟩, handling, s.received⟩ (.handling i input') =
          some ⟨Conf.next ⟨s.conf.state, trace⟩ (sv.finish n req a s.conf.state)
            (.answered n req a), handling.eraseIdx i, s.received⟩ := by
        rw [Server.step, hi']
        rfl
      exact ⟨_, hst', rfl, forall₂_snoc htrace .answered, forall₂_eraseIdx hhandling i, rfl⟩
    · obtain ⟨⟨n', req', prog⟩, hi', rfl, rfl, hprog⟩ := h.getElem? hi
      obtain ⟨k', rfl, hk⟩ := hprog
      obtain ⟨r', hp', hr⟩ := hsv.perform _ _ _ _ _ _ _ _ hin hp
      have hst' : sv.step ⟨⟨s.conf.state, trace⟩, handling, s.received⟩ (.handling i input') =
          some ⟨Conf.next ⟨s.conf.state, trace⟩ st (.did n req o r'),
            handling.set i ⟨n, req, k' r'⟩, s.received⟩ := by
        simp only [Server.step, hi', Option.bind_some, Server.advance, hp', Option.map_some]
      have hgo : Handling.Alike R ⟨n, req, k r⟩ ⟨n, req, k' r'⟩ := ⟨rfl, rfl, hk r r' hr⟩
      exact ⟨_, hst', rfl, forall₂_snoc htrace (.did hr), forall₂_set hhandling hgo i, rfl⟩

/-- A run is possible by alike moves, and leads to where things are alike. -/
theorem Server.Discreet.exec (hsv : sv.Discreet R Rin) {ms ms' : List (Move Req In W)}
    (hms : List.Forall₂ (Move.Alike Rin) ms ms') (h : Sys.Alike R s t)
    (hs : Runs.exec sv.step (fun _ _ => true) s ms = some s') :
    ∃ t', Runs.exec sv.step (fun _ _ => true) t ms' = some t' ∧ Sys.Alike R s' t' := by
  induction hms generalizing s t with
  | nil =>
    cases hs
    exact ⟨t, rfl, h⟩
  | cons hm _ ih =>
    obtain ⟨s₁, hst, hs⟩ := Option.bind_eq_some_iff.1 hs
    obtain ⟨t₁, hst', h₁⟩ := hsv.step h hm hst
    obtain ⟨t', ht', hs'⟩ := ih h₁ hs
    exact ⟨t', Option.bind_eq_some_iff.2 ⟨t₁, hst', ht'⟩, hs'⟩

end Steps

/-- What alike events have in common. -/
theorem filterMap_alike {β : Type} {f : Event E Req α W → Option β}
    (hf : ∀ e e', Event.Alike R e e' → f e = f e') {l l' : List (Event E Req α W)}
    (h : List.Forall₂ (Event.Alike R) l l') : l.filterMap f = l'.filterMap f := by
  induction h with
  | nil => rfl
  | cons he _ ih => rw [List.filterMap_cons, List.filterMap_cons, hf _ _ he, ih]

end Serving
