import LlmMemory.Lib.Histories

/-!
# The records of requests

In a run of a server, each request has a history of its own (`historyOf`): the
operations of its handling so far, with the answers it got. If the handlers are known
by what they do after their histories (`Prog.Logs`), so are the requests in any run,
however they are interleaved (`Server.recorded`): each operation is one that may come
after the history of its request, and each answer is right of the whole of it, since
nothing is done for a request that was answered. All that is done under a number is for
one request (`Server.oneRequest`).

What a system is about (`About`) are the requests that came in (`about_step`,
`about_of_reach`).
-/

namespace Serving

open Effects Runs

variable {E : Sig} {Req α In W S : Type}

/-- The operation that an event does for the `n`-th request, with its answer. -/
def Event.exchange (n : ℕ) : Event E Req α W → Option (Exchange E)
  | .did id _ o r => if id = n then some ⟨o, r⟩ else none
  | _ => none

/-- The history of the `n`-th request. -/
def historyOf (n : ℕ) (l : List (Event E Req α W)) : List (Exchange E) :=
  l.filterMap (Event.exchange n)

section History

variable {n id : ℕ} {req : Req} {l : List (Event E Req α W)} {e : Event E Req α W} {o : E.Op}
  {r : E.Ans o}

/-- An exchange of a request is added to its history. -/
theorem historyOf_did : historyOf n (l ++ [.did n req o r]) = historyOf n l ++ [⟨o, r⟩] := by
  simp [historyOf, Event.exchange]

theorem historyOf_did_of_ne (h : id ≠ n) :
    historyOf n (l ++ [.did id req o r]) = historyOf n l := by
  simp [historyOf, Event.exchange, h]

theorem historyOf_other (h : ∀ id req o r, e ≠ .did id req o r) :
    historyOf n (l ++ [e]) = historyOf n l := by
  cases e with
  | did id req o r => exact absurd rfl (h id req o r)
  | answered id req a => simp [historyOf, Event.exchange]
  | world w => simp [historyOf, Event.exchange]

/-- The history of a request has what it did. -/
theorem mem_historyOf {x : Exchange E} :
    x ∈ historyOf n l ↔ ∃ req, .did n req x.1 x.2 ∈ l := by
  rw [historyOf, List.mem_filterMap]
  constructor
  · rintro ⟨e, he, hx⟩
    cases e with
    | did id req o r =>
      rw [Event.exchange] at hx
      split at hx
      · next hid =>
        cases hx
        exact ⟨req, hid ▸ he⟩
      · cases hx
    | answered id req a => cases hx
    | world w => cases hx
  · rintro ⟨req, he⟩
    exact ⟨_, he, if_pos rfl⟩

/-- Nothing was done for a request that has not come in. -/
theorem historyOf_eq_nil (h : ∀ id req o r, .did id req o r ∈ l → id < n) :
    historyOf n l = [] := by
  refine List.eq_nil_iff_forall_not_mem.2 fun x hx => ?_
  obtain ⟨req, he⟩ := mem_historyOf.1 hx
  exact absurd (h _ _ _ _ he) (Nat.lt_irrefl n)

end History

/-- What was done came after the history of its request, and the answers are of the
    whole of it; and so it is with what is to come. -/
structure Recorded (P : Req → List (Exchange E) → E.Op → Prop)
    (Q : Req → List (Exchange E) → α → Prop) (s : Sys E Req α W S) : Prop where
  did : ∀ l₁ id req o r l₂, s.conf.trace = l₁ ++ .did id req o r :: l₂ → P req (historyOf id l₁) o
  answered : ∀ id req a, .answered id req a ∈ s.conf.trace →
    Q req (historyOf id s.conf.trace) a ∧ id < s.received ∧ ∀ h ∈ s.handling, h.id ≠ id
  handling : ∀ h ∈ s.handling, h.prog.Logs (P h.req) (Q h.req) (historyOf h.id s.conf.trace)

variable {P : Req → List (Exchange E) → E.Op → Prop} {Q : Req → List (Exchange E) → α → Prop}
  {s s' : Sys E Req α W S}

namespace Recorded

/-- An operation came after the history of its request. -/
theorem of_mem (h : Recorded P Q s) {id : ℕ} {req : Req} {o : E.Op} {r : E.Ans o}
    (he : .did id req o r ∈ s.conf.trace) :
    ∃ l₁, l₁ ⊆ s.conf.trace ∧ P req (historyOf id l₁) o := by
  obtain ⟨l₁, l₂, heq⟩ := List.append_of_mem he
  exact ⟨l₁, heq ▸ List.subset_append_left _ _, h.did l₁ id req o r l₂ heq⟩

/-- The history of a request is made of operations that may come after it. -/
theorem grounded_did (h : Recorded P Q s) (n : ℕ) :
    Logs.Grounded (fun l x => ∃ req, .did n req x.1 x.2 ∈ s.conf.trace ∧ P req l x.1)
      (historyOf n s.conf.trace) := by
  intro h₁ x h₂ heq
  obtain ⟨l₁, rest, htrace, rfl, hrest⟩ := List.filterMap_eq_append_iff.1 heq
  obtain ⟨l', e, l₂, rfl, hnone, hx, -⟩ := List.filterMap_eq_cons_iff.1 hrest
  cases e with
  | did id req o r =>
    rw [Event.exchange] at hx
    split at hx
    · next hid =>
      subst hid
      cases hx
      have hdid := h.did (l₁ ++ l') id req o r l₂ (by rw [htrace, List.append_assoc])
      have hl' : l'.filterMap (Event.exchange id) = [] := List.filterMap_eq_nil_iff.2 hnone
      rw [historyOf, List.filterMap_append, hl', List.append_nil] at hdid
      have hmem : .did id req o r ∈ s.conf.trace := by
        rw [htrace]
        exact List.mem_append.2 (.inr (List.mem_append.2 (.inr List.mem_cons_self)))
      exact ⟨req, hmem, hdid⟩
    · cases hx
  | answered id req a => cases hx
  | world w => cases hx

/-- The history of a request is made of operations that may come after one another. -/
theorem grounded (h : Recorded P Q s) (n : ℕ) :
    Logs.Grounded (fun l x => ∃ req, P req l x.1) (historyOf n s.conf.trace) :=
  fun l x rest heq => (h.grounded_did n l x rest heq).imp fun _ hx => hx.2

/-- An event that is no operation of a request, and no answer to one. -/
theorem other (h : Recorded P Q s) {st : S} {e : Event E Req α W}
    (hdid : ∀ id req o r, e ≠ .did id req o r) (hans : ∀ id req a, e ≠ .answered id req a) :
    Recorded P Q { s with conf := s.conf.next st e } where
  did l₁ id req o r l₂ he := by
    rcases List.eq_nil_or_concat l₂ with rfl | ⟨l₂, e', rfl⟩
    · exact absurd (List.append_inj' he rfl).2 fun hlast => hdid _ _ _ _ (List.cons.inj hlast).1
    · rw [List.concat_eq_append, ← List.cons_append, ← List.append_assoc] at he
      exact h.did l₁ id req o r l₂ (List.append_inj' he rfl).1
  answered id req a he := by
    have hmem := (Conf.mem_next.1 he).resolve_right fun heq => hans _ _ _ heq.symm
    obtain ⟨hq, hover⟩ := h.answered id req a hmem
    refine ⟨?_, hover⟩
    rwa [Conf.next_trace, historyOf_other hdid]
  handling hd hh := by
    rw [Conf.next_trace, historyOf_other hdid]
    exact h.handling hd hh

/-- A request is answered. -/
theorem finish (h : Recorded P Q s) (hnd : (Server.ids s.handling).Nodup)
    (hnum : ∀ hd ∈ s.handling, hd.id < s.received) {i n : ℕ} {req : Req} {a : α} {st : S}
    (hi : s.handling[i]? = some ⟨n, req, .ret a⟩) :
    Recorded P Q { s with
      conf := s.conf.next st (.answered n req a), handling := s.handling.eraseIdx i } where
  did l₁ id req' o r l₂ he := by
    rcases List.eq_nil_or_concat l₂ with rfl | ⟨l₂, e', rfl⟩
    · cases (List.cons.inj (List.append_inj' he rfl).2).1
    · rw [List.concat_eq_append, ← List.cons_append, ← List.append_assoc] at he
      exact h.did l₁ id req' o r l₂ (List.append_inj' he rfl).1
  answered id req' a' he := by
    rw [Conf.next_trace, historyOf_other fun _ _ _ _ heq => by cases heq]
    rcases Conf.mem_next.1 he with he | he
    · obtain ⟨hq, hlt, hover⟩ := h.answered id req' a' he
      exact ⟨hq, hlt, fun hd hh => hover hd (List.mem_of_mem_eraseIdx hh)⟩
    · cases he
      have hmem := List.mem_of_getElem? hi
      refine ⟨h.handling _ hmem, hnum _ hmem, fun hd hh => ?_⟩
      have hid : hd.id ∈ Server.ids (s.handling.eraseIdx i) := List.mem_map_of_mem hh
      exact ((Server.mem_ids_eraseIdx hnd hi).1 hid).2
  handling hd hh := by
    rw [Conf.next_trace, historyOf_other fun _ _ _ _ heq => by cases heq]
    exact h.handling hd (List.mem_of_mem_eraseIdx hh)

/-- An operation of a request is done. -/
theorem op (h : Recorded P Q s) (hnd : (Server.ids s.handling).Nodup) {i n : ℕ} {req : Req} {o : E.Op}
    {k : E.Ans o → Prog E α} {r : E.Ans o} {st : S}
    (hi : s.handling[i]? = some ⟨n, req, .op o k⟩) :
    Recorded P Q { s with
      conf := s.conf.next st (.did n req o r), handling := s.handling.set i ⟨n, req, k r⟩ } := by
  have hmem := List.mem_of_getElem? hi
  obtain ⟨ho, hk⟩ := h.handling _ hmem
  refine ⟨fun l₁ id req' o' r' l₂ he => ?_, fun id req' a he => ?_, fun hd hh => ?_⟩
  · rcases List.eq_nil_or_concat l₂ with rfl | ⟨l₂, e', rfl⟩
    · obtain ⟨rfl, hlast⟩ := List.append_inj' he rfl
      cases hlast
      exact ho
    · rw [List.concat_eq_append, ← List.cons_append, ← List.append_assoc] at he
      exact h.did l₁ id req' o' r' l₂ (List.append_inj' he rfl).1
  · have hold := (Conf.mem_next.1 he).resolve_right fun heq => by cases heq
    obtain ⟨hq, hlt, hover⟩ := h.answered id req' a hold
    have hne : n ≠ id := hover _ hmem
    refine ⟨?_, hlt, fun hd hh => ?_⟩
    · rwa [Conf.next_trace, historyOf_did_of_ne hne]
    · rcases List.mem_or_eq_of_mem_set hh with hh | rfl
      · exact hover hd hh
      · exact hne
  · -- the others have ids of their own
    obtain ⟨j, hj⟩ := List.getElem?_of_mem hh
    rw [List.getElem?_set] at hj
    split at hj
    · split at hj
      · cases hj
        rw [Conf.next_trace, historyOf_did]
        exact hk r
      · cases hj
    · next hij =>
      have hne : n ≠ hd.id := by
        intro heq
        have hlt : i < (Server.ids s.handling).length := by
          rw [Server.ids, List.length_map]
          exact (List.getElem?_eq_some_iff.1 hi).1
        refine hij ((List.getElem?_inj hlt hnd).1 ?_)
        rw [Server.ids, List.getElem?_map, List.getElem?_map, hi, hj, Option.map_some, Option.map_some, heq]
      rw [Conf.next_trace, historyOf_did_of_ne hne]
      exact h.handling hd (List.mem_of_getElem? hj)

/-- An operation that excludes its kind before it is done at most once for a request. -/
theorem countP_le_one (h : Recorded P Q s) {p : E.Op → Bool}
    (hp : ∀ req l o, P req l o → p o = true → ∀ x ∈ l, p x.1 = false) (n : ℕ) :
    (historyOf n s.conf.trace).countP (fun x => p x.1) ≤ 1 :=
  (h.grounded n).countP_le_one fun l x ⟨req, hx⟩ => hp req l x.1 hx

end Recorded

/-- In any run, each request is handled as its handler is known to, after its history. -/
theorem Server.recorded {sv : Server E Req α In W S}
    (hsv : ∀ req, (sv.handle req).Logs (P req) (Q req) []) {Init : S → Prop}
    {ok : Sys E Req α W S → Move Req In W → Prop}
    (h : Reach (fun s => ∃ st, Init st ∧ s = .start st) sv.step ok s) : Recorded P Q s := by
  refine h.invariant (fun s hs => ?_) fun s m s' hr hs _ hst => ?_
  · obtain ⟨st, -, rfl⟩ := hs
    exact ⟨fun l₁ _ _ _ _ _ he => (by cases l₁ <;> cases he),
      fun _ _ _ he => absurd he List.not_mem_nil, fun _ hh => absurd hh List.not_mem_nil⟩
  · cases m with
    | request req =>
      cases hst
      refine ⟨hs.did, fun id req a he => ?_, fun hd hh => ?_⟩
      · obtain ⟨hq, hlt, hover⟩ := hs.answered id req a he
        refine ⟨hq, Nat.lt_succ_of_lt hlt, fun hd hh => ?_⟩
        rcases List.mem_append.1 hh with hh | hh
        · exact hover hd hh
        · rw [List.mem_singleton.1 hh]
          exact (Nat.ne_of_lt hlt).symm
      · rcases List.mem_append.1 hh with hh | hh
        · exact hs.handling hd hh
        · rw [List.mem_singleton.1 hh]
          show Prog.Logs _ _ (historyOf s.received s.conf.trace) _
          rw [historyOf_eq_nil (numbered hr).did]
          exact hsv req
    | drop i =>
      rcases step_drop hst with rfl | ⟨-, -, rfl⟩
      · exact hs
      · refine ⟨hs.did, fun id req a he => ?_, fun hd hh => ?_⟩
        · obtain ⟨hq, hlt, hover⟩ := hs.answered id req a he
          exact ⟨hq, hlt, fun hd hh => hover hd (List.mem_of_mem_eraseIdx hh)⟩
        · exact hs.handling hd (List.mem_of_mem_eraseIdx hh)
    | world w =>
      obtain ⟨st, -, rfl⟩ := Option.map_eq_some_iff.1 hst
      exact hs.other (fun _ _ _ _ he => by cases he) fun _ _ _ he => by cases he
    | handling i input =>
      rcases step_handling hst with ⟨n, req, a, hi, rfl⟩ | ⟨n, req, o, k, r, st, hi, -, rfl⟩
      · exact hs.finish (distinct hr) (numbered hr).handling hi
      · exact hs.op (distinct hr) hi

/-! ## One request for each number -/

/-- What was done, and is to be done, under a number is for one request. -/
structure OneRequest (s : Sys E Req α W S) : Prop where
  did : ∀ {n req o r req' o' r'}, .did n req o r ∈ s.conf.trace →
    .did n req' o' r' ∈ s.conf.trace → req' = req
  handling : ∀ {n req o r}, .did n req o r ∈ s.conf.trace → ∀ h ∈ s.handling, h.id = n → h.req = req

/-- No operation is added to the trace. -/
theorem OneRequest.other (h : OneRequest s) {st : S} {e : Event E Req α W}
    {hs : List (Handling E Req α)} (hdid : ∀ id req o r, e ≠ .did id req o r)
    (hhs : hs ⊆ s.handling) : OneRequest (⟨s.conf.next st e, hs, s.received⟩ : Sys E Req α W S) := by
  have hold : ∀ {n req o r}, .did n req o r ∈ (s.conf.next st e).trace →
      .did n req o r ∈ s.conf.trace := fun he =>
    (Conf.mem_next.1 he).resolve_right fun heq => hdid _ _ _ _ heq.symm
  exact ⟨fun he he' => h.did (hold he) (hold he'), fun he hd hh => h.handling (hold he) hd (hhs hh)⟩

/-- An operation is done for the `i`-th of the requests in flight. -/
theorem OneRequest.op (h : OneRequest s) (hnd : (Server.ids s.handling).Nodup) {i n : ℕ} {req : Req}
    {o : E.Op} {k : E.Ans o → Prog E α} {r : E.Ans o} {st : S}
    (hi : s.handling[i]? = some ⟨n, req, .op o k⟩) :
    OneRequest { s with
      conf := s.conf.next st (.did n req o r), handling := s.handling.set i ⟨n, req, k r⟩ } := by
  have hmem := List.mem_of_getElem? hi
  have hnew : ∀ {m : ℕ} {req' : Req} {o' : E.Op} {r' : E.Ans o'},
      .did m req' o' r' ∈ (s.conf.next st (.did n req o r)).trace →
      .did m req' o' r' ∈ s.conf.trace ∨ m = n ∧ req' = req := fun he =>
    (Conf.mem_next.1 he).imp_right fun heq => by cases heq; exact ⟨rfl, rfl⟩
  have hsame : ∀ hd ∈ s.handling, hd.id = n → hd.req = req := fun hd hh hid =>
    congrArg Handling.req (List.inj_on_of_nodup_map hnd hh hmem hid)
  constructor
  · intro m req₁ o₁ r₁ req₂ o₂ r₂ h₁ h₂
    obtain hold₁ | ⟨hm, rfl⟩ := hnew h₁ <;> obtain hold₂ | ⟨hm', rfl⟩ := hnew h₂
    · exact h.did hold₁ hold₂
    · exact h.handling hold₁ _ hmem hm'.symm
    · exact (h.handling hold₂ _ hmem hm.symm).symm
    · rfl
  · intro m req₁ o₁ r₁ h₁ hd hh hid
    obtain hh' | rfl := List.mem_or_eq_of_mem_set hh <;>
      obtain hold₁ | ⟨hm, rfl⟩ := hnew h₁
    · exact h.handling hold₁ hd hh' hid
    · exact hsame hd hh' (hid.trans hm)
    · exact h.handling hold₁ ⟨n, req, .op o k⟩ hmem hid
    · rfl

/-- In any run, each number is that of one request. -/
theorem Server.oneRequest {sv : Server E Req α In W S} {Init : S → Prop}
    {ok : Sys E Req α W S → Move Req In W → Prop}
    (h : Reach (fun s => ∃ st, Init st ∧ s = .start st) sv.step ok s) : OneRequest s := by
  refine h.invariant (fun s hs => ?_) fun s m s' hr hs _ hst => ?_
  · obtain ⟨st, -, rfl⟩ := hs
    exact ⟨fun he => absurd he List.not_mem_nil, fun he => absurd he List.not_mem_nil⟩
  · cases m with
    | request req =>
      cases hst
      refine ⟨hs.did, fun he hd hh hid => ?_⟩
      rcases List.mem_append.1 hh with hh | hh
      · exact hs.handling he hd hh hid
      · rw [List.mem_singleton.1 hh] at hid
        exact absurd ((numbered hr).did _ _ _ _ he) (hid ▸ Nat.lt_irrefl _)
    | drop i =>
      rcases step_drop hst with rfl | ⟨-, -, rfl⟩
      · exact hs
      · exact ⟨hs.did, fun he hd hh => hs.handling he hd (List.mem_of_mem_eraseIdx hh)⟩
    | world w =>
      obtain ⟨st, -, rfl⟩ := Option.map_eq_some_iff.1 hst
      exact hs.other (fun _ _ _ _ he => by cases he) (List.Subset.refl _)
    | handling i input =>
      rcases step_handling hst with ⟨n, req, a, hi, rfl⟩ | ⟨n, req, o, k, r, st, hi, -, rfl⟩
      · exact hs.other (fun _ _ _ _ he => by cases he) fun _ hh => List.mem_of_mem_eraseIdx hh
      · exact hs.op (distinct hr) hi

/-- The history of a request is made of operations that may come after it, for the request
    that it is. -/
theorem Recorded.grounded_of (h : Recorded P Q s) (hone : OneRequest s) {n : ℕ} {req : Req}
    {o : E.Op} {r : E.Ans o} (he : .did n req o r ∈ s.conf.trace) :
    Logs.Grounded (fun l x => P req l x.1) (historyOf n s.conf.trace) := by
  intro l x rest heq
  obtain ⟨req', he', hx⟩ := h.grounded_did n l x rest heq
  exact hone.did he he' ▸ hx

/-! ## The trace -/

section Trace

variable {sv : Server E Req α In W S} {s s' : Sys E Req α W S}

/-- The trace only grows. -/
theorem Server.trace_step {m : Move Req In W} (hst : sv.step s m = some s') :
    s.conf.trace <+: s'.conf.trace := by
  cases m with
  | request req =>
    cases hst
    exact List.prefix_refl _
  | drop i =>
    rcases step_drop hst with rfl | ⟨hd, -, rfl⟩ <;> exact List.prefix_refl _
  | world w =>
    obtain ⟨st, -, rfl⟩ := Option.map_eq_some_iff.1 hst
    exact List.prefix_append _ _
  | handling i input =>
    rcases step_handling hst with ⟨n, req, a, -, rfl⟩ | ⟨n, req, o, k, r, st, -, -, rfl⟩ <;>
      exact List.prefix_append _ _

theorem Server.trace_of_reach {ok : Sys E Req α W S → Move Req In W → Prop}
    (hr : Reach (· = s) sv.step ok s') : s.conf.trace <+: s'.conf.trace := by
  induction hr with
  | init hs => exact hs ▸ List.prefix_refl _
  | step _ _ hst ih => exact ih.trans (trace_step hst)

end Trace

/-! ## The requests that came in -/

/-- The request is in flight, or an event is one of its handling. -/
def About (req : Req) (s : Sys E Req α W S) : Prop :=
  (∃ h ∈ s.handling, h.req = req) ∨ (∃ id o r, .did id req o r ∈ s.conf.trace) ∨
    ∃ id a, .answered id req a ∈ s.conf.trace

section About

variable {req : Req} {sv : Server E Req α In W S} {s s' : Sys E Req α W S}

/-- The events are those before, or one about a request in flight, and those in flight
    were before. -/
theorem About.of_next {c : Conf E Req α W S} {hs : List (Handling E Req α)} {st : S}
    {e : Event E Req α W} {n : ℕ} (hc : s.conf = c)
    (h : About req (⟨c.next st e, hs, n⟩ : Sys E Req α W S))
    (hhs : ∀ h ∈ hs, ∃ h' ∈ s.handling, h'.req = h.req)
    (hdid : ∀ id req o r, e = .did id req o r → ∃ h ∈ s.handling, h.req = req)
    (hans : ∀ id req a, e = .answered id req a → ∃ h ∈ s.handling, h.req = req) :
    About req s := by
  subst hc
  rcases h with ⟨h, hh, rfl⟩ | ⟨id, o, r, he⟩ | ⟨id, a, he⟩
  · exact .inl (hhs h hh)
  · rcases Conf.mem_next.1 he with he | he
    · exact .inr (.inl ⟨id, o, r, he⟩)
    · exact .inl (hdid id req o r he.symm)
  · rcases Conf.mem_next.1 he with he | he
    · exact .inr (.inr ⟨id, a, he⟩)
    · exact .inl (hans id req a he.symm)

/-- A system is about no other requests than before, but for the one that comes in. -/
theorem about_step {m : Move Req In W} (hst : sv.step s m = some s') (h : About req s') :
    About req s ∨ m = .request req := by
  cases m with
  | request req' =>
    cases hst
    rcases h with ⟨hd, hh, rfl⟩ | h
    · rcases List.mem_append.1 hh with hh | hh
      · exact .inl (.inl ⟨hd, hh, rfl⟩)
      · rw [List.mem_singleton.1 hh]
        exact .inr rfl
    · exact .inl (.inr h)
  | drop i =>
    refine .inl ?_
    rcases Server.step_drop hst with rfl | ⟨_, _, rfl⟩
    · exact h
    · exact Or.imp_left (fun ⟨hd, hh, he⟩ => ⟨hd, List.mem_of_mem_eraseIdx hh, he⟩) h
  | world w =>
    obtain ⟨st, -, rfl⟩ := Option.map_eq_some_iff.1 hst
    exact .inl (h.of_next rfl (fun hd hh => ⟨hd, hh, rfl⟩) (fun _ _ _ _ he => by cases he)
      fun _ _ _ he => by cases he)
  | handling i input =>
    rcases Server.step_handling hst with ⟨n, req', a, hi, rfl⟩ | ⟨n, req', o, k, r, st, hi, -, rfl⟩
    · have hmem := List.mem_of_getElem? hi
      refine .inl (h.of_next rfl (fun hd hh => ⟨hd, List.mem_of_mem_eraseIdx hh, rfl⟩)
        (fun _ _ _ _ he => by cases he) fun id req'' a' he => ?_)
      cases he
      exact ⟨_, hmem, rfl⟩
    · have hmem := List.mem_of_getElem? hi
      refine .inl (h.of_next rfl (fun hd hh => ?_) (fun id req'' o' r' he => ?_)
        fun _ _ _ he => by cases he)
      · rcases List.mem_or_eq_of_mem_set hh with hh | rfl
        · exact ⟨hd, hh, rfl⟩
        · exact ⟨_, hmem, rfl⟩
      · cases he
        exact ⟨_, hmem, rfl⟩

/-- In a run where no request comes in, the system is about the same ones. -/
theorem about_of_reach
    (hr : Reach (· = s) sv.step (fun _ m => ∀ req, m ≠ .request req) s') (h : About req s') :
    About req s := by
  induction hr with
  | init hs => exact hs ▸ h
  | step _ hok hst ih => exact ih ((about_step hst h).resolve_right (hok req))

end About

end Serving
