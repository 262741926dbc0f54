import LlmMemory.Lib.Outcomes

/-!
# What programs do, after what they were answered

The *history* of a program is the list of its operations so far, each with the
answer that it got (`Exchange`). A program may be known by what it does, and comes
to, after its history (`Prog.Logs`), whatever the answers. The rules are those of
`Does`, which is the case in which the history is not looked at (`Does.logs`); the
history only grows (`Logs.gives`), by the exchanges of a run of the program
(`Prog.Gives`). A program that may fail may also be known not to (`Returns`).
-/

namespace Effects

variable {E : Sig} {α β ε : Type}

/-- An operation, and the answer to it. -/
abbrev Exchange (E : Sig) : Type := (o : E.Op) × E.Ans o

/-- After the history `h`, and whatever the answers: an operation is in `P` of the
    history before it, and the result is in `Q` of the whole history. -/
def Prog.Logs (P : List (Exchange E) → E.Op → Prop) (Q : List (Exchange E) → α → Prop) :
    List (Exchange E) → Prog E α → Prop
  | h, .ret a => Q h a
  | h, .op o k => P h o ∧ ∀ r, Logs P Q (h ++ [⟨o, r⟩]) (k r)
  | _, .fork _ _ _ => False

/-- The same, of a program that may fail; nothing is said of the error. -/
abbrev Logs (P : List (Exchange E) → E.Op → Prop) (Q : List (Exchange E) → α → Prop)
    (h : List (Exchange E)) (p : Attempt E ε α) : Prop :=
  Prog.Logs P (fun h x => ∀ a, x = .ok a → Q h a) h p

/-- The same, of a program that may fail, but does not. -/
abbrev Returns (P : List (Exchange E) → E.Op → Prop) (Q : List (Exchange E) → α → Prop)
    (h : List (Exchange E)) (p : Attempt E ε α) : Prop :=
  Prog.Logs P (fun h x => ∃ a, x = .ok a ∧ Q h a) h p

/-- The program comes to the result by these exchanges. -/
def Prog.Gives : List (Exchange E) → Prog E α → α → Prop
  | [], .ret a, b => a = b
  | e :: es, .op o k, b => ∃ r, e = ⟨o, r⟩ ∧ Gives es (k r) b
  | _, _, _ => False

section Rules

variable {P P' : List (Exchange E) → E.Op → Prop} {Q Q' : List (Exchange E) → α → Prop}
  {R : List (Exchange E) → β → Prop} {h : List (Exchange E)}

theorem Prog.Logs.mono {p : Prog E α} (hp : p.Logs P Q h) (hQ : ∀ h a, Q h a → Q' h a) :
    p.Logs P Q' h := by
  induction p generalizing h with
  | ret a => exact hQ h a hp
  | op o k ih => exact ⟨hp.1, fun r => ih r (hp.2 r)⟩
  | fork limit ts k => exact hp.elim

/-- More operations may be allowed. -/
theorem Prog.Logs.imp {p : Prog E α} (hp : p.Logs P Q h) (hP : ∀ h o, P h o → P' h o) :
    p.Logs P' Q h := by
  induction p generalizing h with
  | ret a => exact hp
  | op o k ih => exact ⟨hP h o hp.1, fun r => ih r (hp.2 r)⟩
  | fork limit ts k => exact hp.elim

/-- A program, and then another one. -/
theorem Prog.Logs.bind {p : Prog E α} {f : α → Prog E β} (hp : p.Logs P Q h)
    (hf : ∀ h a, Q h a → (f a).Logs P R h) : (p.bind f).Logs P R h := by
  induction p generalizing h with
  | ret a => exact hf h a hp
  | op o k ih => exact ⟨hp.1, fun r => ih r (hp.2 r)⟩
  | fork limit ts k => exact hp.elim

/-- A program known from an empty history, after another one. -/
theorem Prog.Logs.append {p : Prog E α} {es : List (Exchange E)} (hp : p.Logs P Q es)
    (hP : ∀ es o, P es o → P' (h ++ es) o) :
    p.Logs P' (fun h' a => ∃ es, h' = h ++ es ∧ Q es a) (h ++ es) := by
  induction p generalizing es with
  | ret a => exact ⟨es, rfl, hp⟩
  | op o k ih =>
    refine ⟨hP es o hp.1, fun r => ?_⟩
    rw [List.append_assoc]
    exact ih r (hp.2 r)
  | fork limit ts k => exact hp.elim

/-- The operations of a program are after its history. -/
theorem Prog.Logs.after {p : Prog E α} (hp : p.Logs P Q h) :
    p.Logs (fun h' o => P h' o ∧ ∃ es, h' = h ++ es) Q h := by
  have hgrown : ∀ (p : Prog E α) es, p.Logs P Q (h ++ es) →
      p.Logs (fun h' o => P h' o ∧ ∃ es, h' = h ++ es) Q (h ++ es) := by
    intro p
    induction p with
    | ret a => exact fun _ ha => ha
    | op o k ih =>
      intro es hes
      refine ⟨⟨hes.1, es, rfl⟩, fun r => ?_⟩
      have hrest := hes.2 r
      rw [List.append_assoc] at hrest ⊢
      exact ih r _ hrest
    | fork limit ts k => exact fun _ hes => hes.elim
  have hstart := hgrown p []
  rw [List.append_nil] at hstart
  exact hstart hp

/-- A program whose operations are within the first `n` does not do more. -/
theorem Prog.Logs.length_le {n : ℕ} {p : Prog E α} (hp : p.Logs P Q h)
    (hP : ∀ h o, P h o → h.length < n) (hh : h.length ≤ n) :
    p.Logs P (fun h a => h.length ≤ n ∧ Q h a) h := by
  induction p generalizing h with
  | ret a => exact ⟨hh, hp⟩
  | op o k ih =>
    refine ⟨hp.1, fun r => ih r (hp.2 r) ?_⟩
    rw [List.length_append]
    exact hP h o hp.1
  | fork limit ts k => exact hp.elim

/-- A run of the program is after its history. -/
theorem Prog.Logs.of_gives {p : Prog E α} (hp : p.Logs P Q h) {es : List (Exchange E)} {a : α}
    (hes : p.Gives es a) : Q (h ++ es) a := by
  induction es generalizing h p with
  | nil =>
    cases p with
    | ret b =>
      obtain rfl := hes
      rwa [List.append_nil]
    | _ => exact hes.elim
  | cons e es ih =>
    cases p with
    | op o k =>
      obtain ⟨r, rfl, hes⟩ := hes
      have hrest := ih (hp.2 r) hes
      rwa [List.append_assoc, List.singleton_append] at hrest
    | _ => exact hes.elim

/-- A program has one run only by given answers. -/
theorem Prog.Gives.unique {p : Prog E α} {es es' l l' : List (Exchange E)} {a b : α}
    (ha : p.Gives es a) (hb : p.Gives es' b) (he : es ++ l = es' ++ l') :
    es = es' ∧ a = b := by
  induction es generalizing p es' with
  | nil =>
    cases p with
    | ret c =>
      cases es' with
      | nil => exact ⟨rfl, ha.symm.trans hb⟩
      | cons e' es' => exact hb.elim
    | _ => exact ha.elim
  | cons e es ih =>
    cases p with
    | op o k =>
      obtain ⟨r, rfl, ha⟩ := ha
      cases es' with
      | nil => exact hb.elim
      | cons e' es' =>
        obtain ⟨r', rfl, hb⟩ := hb
        obtain ⟨hr, hrest⟩ := List.cons.inj he
        cases hr
        obtain ⟨rfl, hab⟩ := ih ha hb hrest
        exact ⟨rfl, hab⟩
    | _ => exact ha.elim

/-- In a run of the program, each operation is one that it may do. -/
theorem Prog.Does.of_gives {P : E.Op → Prop} {Q : α → Prop} {p : Prog E α} (hp : p.Does P Q)
    {es : List (Exchange E)} {a : α} (hes : p.Gives es a) : ∀ e ∈ es, P e.1 := by
  induction es generalizing p with
  | nil => exact fun e he => absurd he List.not_mem_nil
  | cons e es ih =>
    cases p with
    | op o k =>
      obtain ⟨r, rfl, hes⟩ := hes
      exact List.forall_mem_cons.2 ⟨hp.1, ih (hp.2 r) hes⟩
    | _ => exact hes.elim

/-- The history grows by a run of the program. -/
theorem Prog.Logs.gives {p : Prog E α} (hp : p.Logs P Q h) :
    p.Logs P (fun h' a => Q h' a ∧ ∃ es, h' = h ++ es ∧ p.Gives es a) h := by
  induction p generalizing h with
  | ret a => exact ⟨hp, [], (List.append_nil h).symm, rfl⟩
  | op o k ih =>
    refine ⟨hp.1, fun r => (ih r (hp.2 r)).mono fun h' a ha => ⟨ha.1, ?_⟩⟩
    obtain ⟨es, rfl, hes⟩ := ha.2
    exact ⟨⟨o, r⟩ :: es, by rw [List.append_assoc, List.singleton_append], r, rfl, hes⟩
  | fork limit ts k => exact hp.elim

/-- What does not depend on the history. -/
theorem Prog.Does.logs {P : E.Op → Prop} {Q : α → Prop} {p : Prog E α} (hp : p.Does P Q) :
    p.Logs (fun _ => P) (fun _ => Q) h := by
  induction p generalizing h with
  | ret a => exact hp
  | op o k ih => exact ⟨hp.1, fun r => ih r (hp.2 r)⟩
  | fork limit ts k => exact hp.elim

namespace Logs

/-- A part that only gives a result. -/
theorem pure {a : α} (ha : Q h a) : Logs P Q h (Pure.pure a : Attempt E ε α) := by
  intro a' heq
  cases heq
  exact ha

theorem fail {e : ε} : Logs P Q h (Prog.ret (.error e) : Attempt E ε α) := by
  intro a heq
  cases heq

theorem bind {p : Attempt E ε α} {f : α → Attempt E ε β} (hp : Logs P Q h p)
    (hf : ∀ h a, Q h a → Logs P R h (f a)) : Logs P R h (p >>= f) := by
  refine Prog.Logs.bind hp fun h x hx => ?_
  cases x with
  | ok a => exact hf h a (hx a rfl)
  | error e => exact fail

/-- A check, or a value computed, that may end the program. -/
theorem ret_bind {x : Except ε α} {f : α → Attempt E ε β}
    (hf : ∀ a, x = .ok a → Logs P R h (f a)) :
    Logs P R h ((Prog.ret x : Attempt E ε α) >>= f) := by
  cases x with
  | ok a => exact hf a rfl
  | error e => exact fail

/-- An operation, and what follows it if its answer does not end the program. -/
theorem call_bind {o : E.Op} {k : E.Ans o → Except ε α} {f : α → Attempt E ε β} (ho : P h o)
    (hf : ∀ r a, k r = .ok a → Logs P R (h ++ [⟨o, r⟩]) (f a)) :
    Logs P R h (Attempt.call o k >>= f) := by
  refine ⟨ho, fun r => ?_⟩
  show Prog.Logs P _ _ (Attempt.onOk f (k r))
  cases hk : k r with
  | ok a => exact hf r a hk
  | error e => exact fail

/-- Less may be said of the result. -/
theorem mono {p : Attempt E ε α} (hp : Logs P Q h p) (hQ : ∀ h a, Q h a → Q' h a) :
    Logs P Q' h p :=
  Prog.Logs.mono hp fun h _ hx a ha => hQ h a (hx a ha)

/-- The history grows by a run of the program. -/
theorem gives {p : Attempt E ε α} (hp : Logs P Q h p) :
    Logs P (fun h' a => Q h' a ∧ ∃ es, h' = h ++ es ∧ p.Gives es (.ok a)) h p := by
  refine (Prog.Logs.gives hp).mono fun h' x hx a ha => ⟨hx.1 a ha, ?_⟩
  rw [← ha]
  exact hx.2

end Logs

namespace Returns

/-- A part that only gives a result. -/
theorem pure {a : α} (ha : Q h a) : Returns P Q h (Pure.pure a : Attempt E ε α) :=
  ⟨a, rfl, ha⟩

theorem bind {p : Attempt E ε α} {f : α → Attempt E ε β} (hp : Returns P Q h p)
    (hf : ∀ h a, Q h a → Returns P R h (f a)) : Returns P R h (p >>= f) := by
  refine Prog.Logs.bind hp fun h x hx => ?_
  obtain ⟨a, rfl, ha⟩ := hx
  exact hf h a ha

/-- Less may be said of the result. -/
theorem mono {p : Attempt E ε α} (hp : Returns P Q h p) (hQ : ∀ h a, Q h a → Q' h a) :
    Returns P Q' h p := by
  refine Prog.Logs.mono hp fun h x hx => ?_
  obtain ⟨a, rfl, ha⟩ := hx
  exact ⟨a, rfl, hQ h a ha⟩

/-- The history grows by a run of the program. -/
theorem gives {p : Attempt E ε α} (hp : Returns P Q h p) :
    Returns P (fun h' a => Q h' a ∧ ∃ es, h' = h ++ es ∧ p.Gives es (.ok a)) h p := by
  refine (Prog.Logs.gives hp).mono fun h' x hx => ?_
  obtain ⟨⟨a, rfl, ha⟩, hes⟩ := hx
  exact ⟨a, rfl, ha, hes⟩

/-- A part is known after any history if its operations may come after it. -/
theorem append {p : Attempt E ε α} (hp : Returns P Q [] p)
    (hP : ∀ es o, P es o → P' (h ++ es) o) :
    Returns P' (fun h' a => ∃ es, h' = h ++ es ∧ Q es a) h p := by
  have happ := Prog.Logs.append hp hP
  rw [List.append_nil] at happ
  exact happ.mono fun h' x ⟨es, he, a, hx, ha⟩ => ⟨a, hx, es, he, ha⟩

end Returns

end Rules

end Effects
