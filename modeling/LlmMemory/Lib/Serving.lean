import LlmMemory.Lib.Effects
import LlmMemory.Lib.Logs
import LlmMemory.Lib.Runs
import Mathlib.Data.List.InsertIdx
import Mathlib.Data.List.Nodup

/-!
# Servers

A *server* (`Server`) handles requests side by side, each by a program of its
own. In a run (`Server.step`) any number of requests are in flight, interleaved
between their operations in any way; the handling of a request may be dropped at
any point, and the world outside moves too. The *trace* of a run holds all that
was done in it (`Event`), in order: it is written by every step and read by none.

A *protocol* (`Protocol`) fixes what the handlings of requests rely on and
guarantee: an invariant of the state and the trace, what every change keeps, and
what is assumed of the operations done.

* `Obeys K n req P p C`: the program `p`, part of the handling `n` of `req`,
  keeps to the protocol if the fact `P` holds, and ends, unless it fails, with
  the fact `C` about its result; with one rule per construct (`Obeys.pure`,
  `Obeys.bind`, `Obeys.call`, ...);
* `Protocol.Meets`: every request is handled in accord with the protocol;
* `Protocol.Meets.sound`: then every state reached is sound, so that its
  invariant holds; and what every change keeps, a run keeps
  (`Protocol.Meets.keeps`).
-/

namespace Serving

open Effects Runs

/-- A server: how a request is handled, what an operation of the handling does,
    given an input from outside, what the answer leaves in the state, and what
    the world may do to it. If a handling is dropped, it releases what it holds. -/
structure Server (E : Sig) (Req α In W S : Type) where
  handle : Req → Prog E α
  perform : ℕ → Req → In → (o : E.Op) → S → Option (E.Ans o × S)
  finish : ℕ → Req → α → S → S
  world : W → S → Option S
  dropped : ℕ → Req → S → S := fun _ _ s => s

/-- What happens: the handling of the request `req`, the `id`-th one, does an
    operation and gets `r`, or is over with the answer `a`; or the world moves. -/
inductive Event (E : Sig) (Req α W : Type) where
  | did (id : ℕ) (req : Req) (o : E.Op) (r : E.Ans o)
  | answered (id : ℕ) (req : Req) (a : α)
  | world (w : W)

/-- The state, and all that happened so far. -/
structure Conf (E : Sig) (Req α W S : Type) where
  state : S
  trace : List (Event E Req α W) := []

/-- The handling of the request `req`, the `id`-th one. -/
structure Handling (E : Sig) (Req α : Type) where
  id : ℕ
  req : Req
  prog : Prog E α

/-- A server: its state with the trace, the requests in flight, and how many were received. -/
structure Sys (E : Sig) (Req α W S : Type) where
  conf : Conf E Req α W S
  handling : List (Handling E Req α) := []
  received : ℕ := 0

/-- What moves: a request comes in, or the `i`-th one in flight goes on, or is
    dropped; or the world. -/
inductive Move (Req In W : Type) where
  | request (req : Req)
  | handling (i : ℕ) (input : In)
  | drop (i : ℕ)
  | world (w : W)

variable {E : Sig} {Req α In W S : Type}

namespace Conf

/-- The state after an event. -/
def next (c : Conf E Req α W S) (s : S) (e : Event E Req α W) : Conf E Req α W S :=
  ⟨s, c.trace ++ [e]⟩

variable {c : Conf E Req α W S} {s : S} {e e' : Event E Req α W}

@[simp] theorem next_state : (c.next s e).state = s := rfl

@[simp] theorem next_trace : (c.next s e).trace = c.trace ++ [e] := rfl

/-- An event of the trace is an earlier one or the last one. -/
theorem mem_next : e' ∈ (c.next s e).trace ↔ e' ∈ c.trace ∨ e' = e := by simp

end Conf

/-- A server just started. -/
def Sys.start (s : S) : Sys E Req α W S := { conf := { state := s } }

namespace Server

variable (sv : Server E Req α In W S)

/-- One step of the handling of a request: how it goes on, unless it is over,
    and what it leaves. -/
def advance (input : In) (h : Handling E Req α) (c : Conf E Req α W S) :
    Option (Option (Handling E Req α) × Conf E Req α W S) :=
  match h.prog with
  | .ret a => some (none, c.next (sv.finish h.id h.req a c.state) (.answered h.id h.req a))
  | .op o k => (sv.perform h.id h.req input o c.state).map fun x =>
      (some { h with prog := k x.1 }, c.next x.2 (.did h.id h.req o x.1))
  | .fork _ _ _ => none

/-- A step: a request comes in, one in flight moves or is dropped, or the world moves. -/
def step (s : Sys E Req α W S) : Move Req In W → Option (Sys E Req α W S)
  | .request req => some { s with
      handling := s.handling ++ [⟨s.received, req, sv.handle req⟩], received := s.received + 1 }
  | .handling i input => s.handling[i]?.bind fun h => (sv.advance input h s.conf).map fun
      | (some h', c) => { s with conf := c, handling := s.handling.set i h' }
      | (none, c) => { s with conf := c, handling := s.handling.eraseIdx i }
  | .drop i => some { s with
      conf := s.handling[i]?.elim s.conf fun h =>
        { s.conf with state := sv.dropped h.id h.req s.conf.state }
      handling := s.handling.eraseIdx i }
  | .world w => (sv.world w s.conf.state).map fun st => { s with conf := s.conf.next st (.world w) }

/-- What changes the state: an operation of the handling of a request, which
    gets an answer, or else the end of one, or the world. -/
inductive Change (sv : Server E Req α In W S) : S → Option (Σ o : E.Op, E.Ans o) → S → Prop
  | op {n : ℕ} {req : Req} {input : In} {o : E.Op} {r : E.Ans o} {s s' : S}
      (h : sv.perform n req input o s = some (r, s')) : Change sv s (some ⟨o, r⟩) s'
  | finish {n : ℕ} {req : Req} {a : α} {s : S} : Change sv s none (sv.finish n req a s)
  | world {w : W} {s s' : S} (h : sv.world w s = some s') : Change sv s none s'

/-- A request in flight goes on: it is over, or does an operation. -/
theorem step_handling {sv : Server E Req α In W S} {s s' : Sys E Req α W S} {i : ℕ} {input : In}
    (h : sv.step s (.handling i input) = some s') :
    (∃ n req a, s.handling[i]? = some ⟨n, req, .ret a⟩ ∧ s' = { s with
      conf := s.conf.next (sv.finish n req a s.conf.state) (.answered n req a)
      handling := s.handling.eraseIdx i }) ∨
    ∃ n req o k r st, s.handling[i]? = some ⟨n, req, .op o k⟩ ∧
      sv.perform n req input o s.conf.state = some (r, st) ∧ s' = { s with
        conf := s.conf.next st (.did n req o r)
        handling := s.handling.set i ⟨n, req, k r⟩ } := by
  obtain ⟨⟨n, req, prog⟩, hi, h⟩ := Option.bind_eq_some_iff.1 h
  obtain ⟨⟨next, c⟩, hadv, he⟩ := Option.map_eq_some_iff.1 h
  cases prog with
  | ret a =>
    cases hadv
    exact .inl ⟨n, req, a, hi, he.symm⟩
  | op o k =>
    obtain ⟨⟨r, st⟩, hp, hx⟩ := Option.map_eq_some_iff.1 hadv
    cases hx
    exact .inr ⟨n, req, o, k, r, st, hi, hp, he.symm⟩
  | fork limit ts k => cases hadv

/-- A request is dropped: its handling releases what it holds. -/
theorem step_drop {sv : Server E Req α In W S} {s s' : Sys E Req α W S} {i : ℕ}
    (h : sv.step s (.drop i) = some s') :
    s' = s ∨ ∃ hd, s.handling[i]? = some hd ∧ s' = { s with
      conf := { s.conf with state := sv.dropped hd.id hd.req s.conf.state }
      handling := s.handling.eraseIdx i } := by
  cases h
  cases hi : s.handling[i]? with
  | none => exact .inl (by simp [List.eraseIdx_of_length_le (List.getElem?_eq_none_iff.1 hi)])
  | some hd => exact .inr ⟨hd, rfl, by simp⟩

/-- Where dropped requests hold nothing, only they change. -/
theorem step_drop_eq {sv : Server E Req α In W S} {s s' : Sys E Req α W S} {i : ℕ}
    (hsv : ∀ n req st, sv.dropped n req st = st) (h : sv.step s (.drop i) = some s') :
    s' = { s with handling := s.handling.eraseIdx i } := by
  cases h
  cases s.handling[i]? with
  | none => rfl
  | some hd => rw [Option.elim, hsv]

/-- The operations done are of requests received, and so are those in flight. -/
structure Numbered (s : Sys E Req α W S) : Prop where
  did : ∀ id req o r, .did id req o r ∈ s.conf.trace → id < s.received
  handling : ∀ h ∈ s.handling, h.id < s.received

variable {sv}

/-- In any run, the requests are numbered as they came in. -/
theorem numbered {Init : S → Prop} {ok : Sys E Req α W S → Move Req In W → Prop}
    {s : Sys E Req α W S} (h : Reach (fun s => ∃ st, Init st ∧ s = .start st) sv.step ok s) :
    Numbered s := by
  refine h.invariant (fun s hs => ?_) fun s m s' _ hs _ hst => ?_
  · obtain ⟨st, -, rfl⟩ := hs
    exact ⟨fun _ _ _ _ he => absurd he List.not_mem_nil, fun _ hh => absurd hh List.not_mem_nil⟩
  · cases m with
    | request req =>
      cases hst
      refine ⟨fun id req o r he => Nat.lt_succ_of_lt (hs.did id req o r he), fun h hh => ?_⟩
      rcases List.mem_append.1 hh with hh | hh
      · exact Nat.lt_succ_of_lt (hs.handling h hh)
      · rw [List.mem_singleton.1 hh]
        exact Nat.lt_succ_self _
    | drop i =>
      rcases step_drop hst with rfl | ⟨-, -, rfl⟩
      · exact hs
      · exact ⟨hs.did, fun h hh => hs.handling h (List.mem_of_mem_eraseIdx hh)⟩
    | world w =>
      obtain ⟨st, -, rfl⟩ := Option.map_eq_some_iff.1 hst
      refine ⟨fun id req o r he => hs.did id req o r ?_, hs.handling⟩
      exact (Conf.mem_next.1 he).resolve_right nofun
    | handling i input =>
      rcases step_handling hst with ⟨n, req, a, hi, rfl⟩ | ⟨n, req, o, k, r, st, hi, -, rfl⟩
      · exact ⟨fun id req o r he => hs.did id req o r ((Conf.mem_next.1 he).resolve_right nofun),
          fun h hh => hs.handling h (List.mem_of_mem_eraseIdx hh)⟩
      -- an operation is recorded under the number of a request that came in
      · have hn : n < s.received := hs.handling _ (List.mem_of_getElem? hi)
        refine ⟨fun id req' o' r' he => ?_, fun h hh => ?_⟩
        · rcases Conf.mem_next.1 he with he | he
          · exact hs.did id req' o' r' he
          · cases he; exact hn
        · rcases List.mem_or_eq_of_mem_set hh with hh | rfl
          · exact hs.handling h hh
          · exact hn

/-! ### Requests in flight -/

/-- The numbers of the requests in flight. -/
def ids (hs : List (Handling E Req α)) : List ℕ := hs.map (·.id)

section Ids

variable {hs : List (Handling E Req α)} {h h' : Handling E Req α} {i n : ℕ}

theorem mem_ids_concat : n ∈ ids (hs ++ [h]) ↔ n ∈ ids hs ∨ n = h.id := by
  rw [ids, List.map_append, List.mem_append, List.map_singleton, List.mem_singleton, ids]

/-- A request in flight has its id. -/
theorem mem_ids_of_getElem? (hi : hs[i]? = some h) : h.id ∈ ids hs :=
  List.mem_map.2 ⟨h, List.mem_of_getElem? hi, rfl⟩

/-- A request that goes on is in flight. -/
theorem ids_set (hi : hs[i]? = some h) (hid : h'.id = h.id) : ids (hs.set i h') = ids hs := by
  have hget : (ids hs)[i]? = some h.id := by rw [ids, List.getElem?_map, hi, Option.map_some]
  obtain ⟨hlt, hget⟩ := List.getElem?_eq_some_iff.1 hget
  calc ids (hs.set i h') = (ids hs).set i h.id := by rw [ids, List.map_set, hid, ids]
    _ = ids hs := by rw [← hget, List.set_getElem_self]

/-- The ids without one of the requests. -/
theorem ids_eraseIdx : ids (hs.eraseIdx i) = (ids hs).eraseIdx i := (List.eraseIdx_map _ _ _).symm

/-- A request that is over is not in flight any more. -/
theorem mem_ids_eraseIdx (hnd : (ids hs).Nodup) (hi : hs[i]? = some h) :
    n ∈ ids (hs.eraseIdx i) ↔ n ∈ ids hs ∧ n ≠ h.id := by
  have hget : (ids hs)[i]? = some h.id := by rw [ids, List.getElem?_map, hi, Option.map_some]
  obtain ⟨hlt, -⟩ := List.getElem?_eq_some_iff.1 hget
  rw [ids_eraseIdx, List.mem_eraseIdx_iff_getElem?]
  constructor
  · rintro ⟨j, hj, hn⟩
    refine ⟨List.mem_of_getElem? hn, ?_⟩
    rintro rfl
    exact hj ((List.getElem?_inj hlt hnd).1 (hget.trans hn.symm)).symm
  · rintro ⟨hn, hne⟩
    obtain ⟨j, hj⟩ := List.getElem?_of_mem hn
    refine ⟨j, ?_, hj⟩
    rintro rfl
    exact hne (Option.some.inj (hj.symm.trans hget))

end Ids

/-- No two requests in flight have the same number. -/
theorem distinct {Init : S → Prop} {ok : Sys E Req α W S → Move Req In W → Prop}
    {s : Sys E Req α W S} (h : Reach (fun s => ∃ st, Init st ∧ s = .start st) sv.step ok s) :
    (ids s.handling).Nodup := by
  refine h.invariant (P := fun s => (ids s.handling).Nodup) (fun s hs => ?_)
    fun s m s' hr hs _ hst => ?_
  · obtain ⟨st, -, rfl⟩ := hs
    exact List.nodup_nil
  · cases m with
    | request req =>
      cases hst
      have hnew : s.received ∉ ids s.handling := by
        intro hmem
        obtain ⟨h, hh, hid⟩ := List.mem_map.1 hmem
        exact absurd hid (Nat.ne_of_lt ((numbered hr).handling h hh))
      rw [ids, List.map_append]
      exact List.Nodup.append hs (List.nodup_singleton _) (List.disjoint_singleton.2 hnew)
    | drop i =>
      rcases step_drop hst with rfl | ⟨-, -, rfl⟩
      · exact hs
      · exact (ids_eraseIdx : ids (s.handling.eraseIdx i) = _) ▸ hs.eraseIdx i
    | world w =>
      obtain ⟨st, -, rfl⟩ := Option.map_eq_some_iff.1 hst
      exact hs
    | handling i input =>
      rcases step_handling hst with ⟨n, req, a, -, rfl⟩ | ⟨n, req, o, k, r, st, hi, -, rfl⟩
      · exact (ids_eraseIdx : ids (s.handling.eraseIdx i) = _) ▸ hs.eraseIdx i
      · exact (ids_set hi rfl : ids (s.handling.set i ⟨n, req, k r⟩) = _) ▸ hs

end Server

/-! ## Protocols -/

/-- What the handlings of the requests to a server guarantee to each other: the
    invariant `inv`, and that every change is one that `keeps`; given that the
    operations done, and the moves of the world, are among those `allowed`. -/
structure Protocol (E : Sig) (Req α In W S : Type) where
  server : Server E Req α In W S
  inv : Conf E Req α W S → Prop
  keeps : S → S → Prop
  allowed : ℕ → Req → E.Op → Conf E Req α W S → Prop := fun _ _ _ _ => True
  allowedWorld : W → Conf E Req α W S → Prop := fun _ _ => True

namespace Protocol

variable (K : Protocol E Req α In W S)

/-- How the state may change: the trace goes on, and the protocol is kept. -/
structure Evolves (c c' : Conf E Req α W S) : Prop where
  trace : c.trace <+: c'.trace
  keeps : K.keeps c.state c'.state
  inv : K.inv c → K.inv c'

/-- The operations of the handling `n` of the request `req`. -/
def interp (n : ℕ) (req : Req) : Interp E (Conf E Req α W S) where
  perf o c r c' := K.allowed n req o c ∧ ∃ input s,
    K.server.perform n req input o c.state = some (r, s) ∧ c' = c.next s (.did n req o r)
  rely := K.Evolves
  guar := K.Evolves

/-- Every request is handled in accord with the protocol, up to its answer,
    where `post` holds. -/
structure Meets (post : ℕ → Req → α → Conf E Req α W S → Prop) : Prop where
  handle : ∀ n req c, K.inv c →
    Safe (K.interp n req) (.never _) (post n req) (K.server.handle req) c
  finish : ∀ n req a c, K.inv c → post n req a c →
    K.Evolves c (c.next (K.server.finish n req a c.state) (.answered n req a))
  world : ∀ w c s, K.inv c → K.allowedWorld w c → K.server.world w c.state = some s →
    K.Evolves c (c.next s (.world w))
  dropped : ∀ n req (c : Conf E Req α W S), K.inv c →
      { c with state := K.server.dropped n req c.state } = c ∨
      K.Evolves c { c with state := K.server.dropped n req c.state } := by
    intros; exact .inl rfl

/-- The step does what is allowed. -/
def Allows (s : Sys E Req α W S) : Move Req In W → Prop
  | .handling i _ => ∀ h o k, s.handling[i]? = some h → h.prog = .op o k →
      K.allowed h.id h.req o s.conf
  | .world w => K.allowedWorld w s.conf
  | _ => True

/-- The invariant holds, and the requests in flight keep to the protocol. -/
structure Sound (post : ℕ → Req → α → Conf E Req α W S → Prop) (s : Sys E Req α W S) : Prop where
  inv : K.inv s.conf
  handling : ∀ h ∈ s.handling, Safe (K.interp h.id h.req) (.never _) (post h.id h.req) h.prog s.conf

variable {K} {post : ℕ → Req → α → Conf E Req α W S → Prop} {s s' : Sys E Req α W S}

namespace Sound

/-- A server that starts is sound if its invariant holds. -/
theorem start {st : S} (h : K.inv { state := st }) : K.Sound post (.start st) :=
  ⟨h, fun _ hh => absurd hh List.not_mem_nil⟩

/-- A change in accord with the protocol, on which some requests in flight are
    over. -/
theorem evolves {c : Conf E Req α W S} {hs : List (Handling E Req α)} {n : ℕ}
    (h : K.Sound post s) (hc : K.Evolves s.conf c) (hsub : hs ⊆ s.handling) :
    K.Sound post ⟨c, hs, n⟩ :=
  ⟨hc.inv h.inv, fun h' hh => (h.handling h' (hsub hh)).env (I := K.interp h'.id h'.req) hc⟩

/-- A step allowed leaves the state as it is, or evolves it. -/
theorem step (hK : K.Meets post) (h : K.Sound post s) {m : Move Req In W} (hok : K.Allows s m)
    (hst : K.server.step s m = some s') :
    K.Sound post s' ∧ (s'.conf = s.conf ∨ K.Evolves s.conf s'.conf) := by
  cases m with
  | request req =>
    cases hst
    refine ⟨⟨h.inv, fun h' hh => ?_⟩, .inl rfl⟩
    rcases List.mem_append.1 hh with hh | hh
    · exact h.handling h' hh
    · rw [List.mem_singleton.1 hh]
      exact hK.handle _ req s.conf h.inv
  | handling i input =>
    rcases Server.step_handling hst with ⟨n, req, a, hi, rfl⟩ | ⟨n, req, o, k, r, st, hi, hp, rfl⟩
    · have hpost := h.handling _ (List.mem_of_getElem? hi) s.conf .refl
      have hev := hK.finish n req a s.conf h.inv hpost
      exact ⟨h.evolves hev fun h' hh => List.mem_of_mem_eraseIdx hh, .inr hev⟩
    · obtain ⟨hev, hk⟩ := h.handling _ (List.mem_of_getElem? hi) s.conf .refl r _
        ⟨hok _ o k hi rfl, input, st, hp, rfl⟩
      have hothers : K.Sound post ⟨_, s.handling, s.received⟩ := h.evolves hev (List.Subset.refl _)
      -- the others see the change, and this one goes on by its own triple
      refine ⟨⟨hothers.inv, fun h' hh => ?_⟩, .inr hev⟩
      rcases List.mem_or_eq_of_mem_set hh with hh | rfl
      · exact hothers.handling h' hh
      · exact hk
  | drop i =>
    rcases Server.step_drop hst with rfl | ⟨hd, -, rfl⟩
    · exact ⟨h, .inl rfl⟩
    · rcases hK.dropped hd.id hd.req s.conf h.inv with heq | hev
      · rw [heq]
        exact ⟨⟨h.inv, fun h' hh => h.handling h' (List.mem_of_mem_eraseIdx hh)⟩, .inl rfl⟩
      · exact ⟨h.evolves hev fun h' hh => List.mem_of_mem_eraseIdx hh, .inr hev⟩
  | world w =>
    obtain ⟨st, hw, rfl⟩ := Option.map_eq_some_iff.1 hst
    have hev := hK.world w s.conf st h.inv hok hw
    exact ⟨h.evolves hev (List.Subset.refl _), .inr hev⟩

end Sound

/-- Every state reached by the steps allowed is sound. -/
theorem Meets.sound (hK : K.Meets post) {Init : S → Prop}
    {ok : Sys E Req α W S → Move Req In W → Prop} (hinit : ∀ st, Init st → K.inv { state := st })
    (hok : ∀ s m, ok s m → K.Allows s m)
    (h : Reach (fun s => ∃ st, Init st ∧ s = .start st) K.server.step ok s) : K.Sound post s :=
  h.invariant (fun _ ⟨st, hst, hs⟩ => hs ▸ .start (hinit st hst))
    fun s m _ _ hs hm hst => (hs.step hK (hok s m hm) hst).1

/-- What every change keeps, a whole run keeps. -/
theorem Meets.keeps (hK : K.Meets post) {ok : Sys E Req α W S → Move Req In W → Prop}
    (hok : ∀ s m, ok s m → K.Allows s m) (hrefl : ∀ st, K.keeps st st)
    (htrans : ∀ {a b c}, K.keeps a b → K.keeps b c → K.keeps a c) (hs : K.Sound post s)
    (h : Reach (· = s) K.server.step ok s') : K.keeps s.conf.state s'.conf.state := by
  have hboth : K.Sound post s' ∧ K.keeps s.conf.state s'.conf.state := by
    induction h with
    | init he =>
      subst he
      exact ⟨hs, hrefl _⟩
    | step _ hm hst ih =>
      obtain ⟨hs', hconf | hev⟩ := ih.1.step hK (hok _ _ hm) hst
      · exact ⟨hs', hconf ▸ ih.2⟩
      · exact ⟨hs', htrans ih.2 hev.keeps⟩
  exact hboth.2

end Protocol

/-! ## Facts -/

/-- A property that others do not make false: it lasts when the trace goes on
    and the protocol is kept. -/
structure Lasting (K : Protocol E Req α In W S) where
  holds : Conf E Req α W S → Prop
  lasts : ∀ {c c' : Conf E Req α W S}, c.trace <+: c'.trace → K.keeps c.state c'.state →
    holds c → holds c'

namespace Lasting

variable {K : Protocol E Req α In W S}

/-- Nothing is known. -/
def none : Lasting K := ⟨fun _ => True, fun _ _ h => h⟩

/-- Both properties hold. -/
def and (P Q : Lasting K) : Lasting K :=
  ⟨fun c => P.holds c ∧ Q.holds c, fun ht hk h => ⟨P.lasts ht hk h.1, Q.lasts ht hk h.2⟩⟩

/-- A property that does not depend on the state. -/
def const (p : Prop) : Lasting K := ⟨fun _ => p, fun _ _ h => h⟩

/-- An event happened. -/
def happened (e : Event E Req α W) : Lasting K := ⟨fun c => e ∈ c.trace, fun ht _ h => ht.subset h⟩

/-- A fact about what a query found, if it found something. -/
def found {γ : Type} (P : γ → Lasting K) (x : Option γ) : Lasting K :=
  ⟨fun c => ∀ a, x = some a → (P a).holds c, fun ht hk h a ha => (P a).lasts ht hk (h a ha)⟩

end Lasting

/-! ## Triples -/

/-- The invariant and a fact hold. -/
def Holding (K : Protocol E Req α In W S) (P : Lasting K) (c : Conf E Req α W S) : Prop :=
  K.inv c ∧ P.holds c

/-- `p`, part of the handling `n` of the request `req`, keeps to the protocol,
    given the fact `P`, and ends with the fact `C` about its result, or fails. -/
abbrev Obeys (K : Protocol E Req α In W S) (n : ℕ) (req : Req) {ε γ : Type} (P : Lasting K)
    (p : Attempt E ε γ) (C : γ → Lasting K) : Prop :=
  Triple (K.interp n req) (.never _) (Holding K P) p (OnOk (fun a => Holding K (C a)) fun _ => True)

section Rules

variable {K : Protocol E Req α In W S} {n : ℕ} {req : Req} {ε γ δ : Type} {P P' : Lasting K}
  {C C' : γ → Lasting K} {D : δ → Lasting K} {c c' : Conf E Req α W S}

/-- What holds is kept by what others do. -/
theorem Holding.evolves (h : Holding K P c) (he : K.Evolves c c') : Holding K P c' :=
  ⟨he.inv h.1, P.lasts he.trace he.keeps h.2⟩

theorem holding_stable : (K.interp n req).Stable (Holding K P) := fun _ _ h hr => h.evolves hr

namespace Obeys

theorem pre {p : Attempt E ε γ} (h : Obeys K n req P p C) (hP : ∀ c, P'.holds c → P.holds c) :
    Obeys K n req P' p C :=
  Triple.pre h fun c hc => ⟨hc.1, hP c hc.2⟩

theorem post {p : Attempt E ε γ} (h : Obeys K n req P p C)
    (hC : ∀ a c, (C a).holds c → (C' a).holds c) : Obeys K n req P p C' :=
  Triple.post h fun
    | .ok a => fun c hc => ⟨hc.1, hC a c hc.2⟩
    | .error _ => fun _ h => h

/-- What the fact says whatever the state may be assumed. -/
theorem assume {A : Prop} {p : Attempt E ε γ} (hA : ∀ c, P.holds c → A)
    (h : A → Obeys K n req P p C) : Obeys K n req P p C :=
  Triple.assume (fun c hc => hA c hc.2) h

/-- A part that only gives a result. -/
theorem pure {a : γ} (h : ∀ c, P.holds c → (C a).holds c) :
    Obeys K n req P (Pure.pure a : Attempt E ε γ) C :=
  Triple.pure holding_stable fun c hc => ⟨hc.1, h c hc.2⟩

theorem fail {e : ε} : Obeys K n req P (Prog.ret (.error e) : Attempt E ε γ) C :=
  fun _ _ _ _ => trivial

theorem bind {p : Attempt E ε γ} {f : γ → Attempt E ε δ} (hp : Obeys K n req P p C)
    (hf : ∀ a, Obeys K n req (C a) (f a) D) : Obeys K n req P (p >>= f) D :=
  Triple.andThen (fun _ _ _ _ => trivial) hp hf

/-- A check, or a value computed, that may end the program. -/
theorem ret_bind {x : Except ε γ} {f : γ → Attempt E ε δ}
    (h : ∀ a, x = .ok a → Obeys K n req P (f a) D) :
    Obeys K n req P ((Prog.ret x : Attempt E ε γ) >>= f) D := by
  cases x with
  | ok a => exact h a rfl
  | error e => exact fail

/-- An operation, its answer read by `k`. -/
theorem call {o : E.Op} {k : E.Ans o → Except ε γ}
    (h : ∀ c r s input, Holding K P c → K.allowed n req o c →
      K.server.perform n req input o c.state = some (r, s) →
      K.Evolves c (c.next s (.did n req o r)) ∧
        ∀ a, k r = .ok a → (C a).holds (c.next s (.did n req o r))) :
    Obeys K n req P (Attempt.call o k) C :=
  Triple.call holding_stable (fun _ => holding_stable) (fun _ _ _ _ => trivial)
    fun c r c' hc ⟨hok, input, s, hp, he⟩ => by
      subst he
      obtain ⟨hev, hC⟩ := h c r s input hc hok hp
      refine ⟨hev, ?_⟩
      cases hk : k r with
      | ok a => exact ⟨hev.inv hc.1, hC a hk⟩
      | error e => trivial

end Obeys

/-! ### Free operations -/

variable (K) in
/-- Whoever does the operation, it keeps to the protocol. -/
def Protocol.Free (o : E.Op) : Prop :=
  ∀ n req input c r s, K.inv c → K.allowed n req o c →
    K.server.perform n req input o c.state = some (r, s) →
    K.Evolves c (c.next s (.did n req o r))

variable (K) in
/-- A program of free operations. -/
abbrev FreeProgram (p : Attempt E ε γ) : Prop := Attempt.Only K.Free (fun _ => False) p

namespace FreeProgram

theorem ret {x : Except ε γ} : FreeProgram K (Prog.ret x : Attempt E ε γ) := trivial

theorem call {o : E.Op} {k : E.Ans o → Except ε γ} (ho : K.Free o) :
    FreeProgram K (Attempt.call o k) :=
  Attempt.Only.call ho

theorem bind {p : Attempt E ε γ} {f : γ → Attempt E ε δ} (hp : FreeProgram K p)
    (hf : ∀ a, FreeProgram K (f a)) : FreeProgram K (p >>= f) :=
  Attempt.Only.andThen hp hf

end FreeProgram

/-- A program of free operations keeps every fact. -/
theorem Obeys.free {p : Attempt E ε γ} (h : FreeProgram K p) : Obeys K n req P p fun _ => P :=
  Triple.post (Prog.Only.keeps holding_stable (fun o c r c' ho hc ⟨hok, input, s, hp, he⟩ => by
    subst he
    have hev := ho n req input c r s hc.1 hok hp
    exact ⟨hev, hc.evolves hev⟩) h) fun
    | .ok _ => fun _ h => h
    | .error _ => fun _ _ => trivial

/-- A free operation, which happens. -/
theorem Obeys.keep {o : E.Op} {k : E.Ans o → Except ε γ} (ho : K.Free o) :
    Obeys K n req P (Attempt.call o k) fun a =>
      ⟨fun c => P.holds c ∧ ∃ r, k r = .ok a ∧ .did n req o r ∈ c.trace,
        fun ht hk h => ⟨P.lasts ht hk h.1, h.2.imp fun _ hr => ⟨hr.1, ht.subset hr.2⟩⟩⟩ :=
  Obeys.call fun c r s input hc hok hp => by
    have hev := ho n req input c r s hc.1 hok hp
    exact ⟨hev, fun a ha => ⟨P.lasts hev.trace hev.keeps hc.2, r, ha, by simp⟩⟩

end Rules

end Serving
