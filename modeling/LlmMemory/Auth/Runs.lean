import LlmMemory.Auth.Server
import LlmMemory.Lib.Serving
import Mathlib.Data.List.InsertIdx

/-!
# Runs of the authorization server, with their trace

The authorization server as a server of `LlmMemory.Lib.Serving` (`server`), so
that the trace of a run holds every operation done, with its answer. The world
lets time pass, and an operator may revoke a client, by setting the `revoked_at`
of its row.

The runs of `LlmMemory.Auth.Server` are runs of this server (`AsSys.served`).
-/

namespace LlmMemory.Auth

open Effects Runs

/-- Mark the row of a client as revoked, as an administrator does. -/
def Db.revokeClient (db : Db) (id : String) (now : Int) : Db :=
  { db with clients := db.clients.map fun c =>
      if c.id = id then { c with revokedAt := some now } else c }

/-- What the world does: `dt` milliseconds pass, or a client is revoked. -/
inductive World
  | tick (dt : ℕ)
  | revokeClient (id : String)
  deriving DecidableEq, Repr

/-- The effect of the world on the state. -/
def AsState.world (s : AsState) : World → AsState
  | .tick dt => { s with now := s.now + dt }
  | .revokeClient id => { s with db := s.db.revokeClient id s.now }

/-- The authorization server: its handlers, their operations, and the world around. -/
def server (cfg : Config) :
    Serving.Server AuthSig Request (Except Rejection Response) Input World AsState where
  handle := handle cfg
  perform n req input := perform cfg.pkgs n req input
  finish n req r s := s.note n req (.answered (respond r))
  world w s := some (s.world w)

/-- An event of the trace, as opposed to one of the log of `AsState`. -/
abbrev Done : Type := Serving.Event AuthSig Request (Except Rejection Response) World

/-- The trace and the state. -/
abbrev Conf : Type := Serving.Conf AuthSig Request (Except Rejection Response) World AsState

/-- The server with its requests in flight. -/
abbrev Sys : Type := Serving.Sys AuthSig Request (Except Rejection Response) World AsState

/-- The server just started, on tables where `P` holds. -/
def Starts (P : Db → Prop) (s : AsState) : Prop := P s.db ∧ s.sessions = {} ∧ s.log = []

/-- The runs of the server from tables where `P` holds, by steps that are `ok`. -/
abbrev Reached (cfg : Config) (P : Db → Prop) (ok : Sys → Serving.Move Request Input World → Prop) :
    Sys → Prop :=
  Reach (fun s => ∃ st, Starts P st ∧ s = .start st) (server cfg).step ok

/-! ## Programs of the handlers -/

/-- The operation is part of the provisioning of a user. -/
def Op.provisions : Op → Bool
  | .insertUser _ => true
  | .ensureSchema _ => true
  | .putCode _ _ => true
  | _ => false

/-- The operations of the program are among those in `A`, and it forks no tasks. -/
abbrev DoesOnly {α : Type} (A : Op → Prop) (p : Handler α) : Prop :=
  Attempt.Only A (fun _ => False) p

section DoesOnly

variable {α β : Type} {A : Op → Prop}

theorem only_ret {x : Except Rejection α} : DoesOnly A (Prog.ret x : Handler α) := trivial

/-- A call of an operation in `A`. -/
theorem only_call {o : Op} {k : o.Ans → Except Rejection α} (ho : A o) :
    DoesOnly A (Attempt.call o k) :=
  Attempt.Only.call ho

/-- A program and what follows it. -/
theorem only_bind {p : Handler α} {f : α → Handler β} (hp : DoesOnly A p)
    (hf : ∀ a, DoesOnly A (f a)) : DoesOnly A (p >>= f) :=
  Attempt.Only.andThen hp hf

/-- A parameter is required without an operation. -/
theorem only_required {x : Option α} {r : Rejection} : DoesOnly A (required x r) := by
  cases x <;> exact trivial

theorem findOrProvision_only {newId provider subject schema : String} {email : Option String}
    (hA : ∀ o, A o) : DoesOnly A (findOrProvision newId provider subject email schema) := by
  refine only_bind (only_call (hA _)) fun x => ?_
  cases x with
  | some existing => exact only_ret
  | none =>
    refine only_bind (only_call (hA _)) fun now => only_bind (only_call (hA _)) fun _ =>
      only_bind (only_call (hA _)) fun x => ?_
    cases x <;> exact only_ret

theorem callbackGoogle_only {sharedSchema : String} {cb : CallbackParams} (hA : ∀ o, A o) :
    DoesOnly A (callbackGoogle sharedSchema cb) := by
  refine only_bind (only_call (hA _)) fun x => ?_
  cases x with
  | none => exact only_ret
  | some pending =>
    exact only_bind (only_call (hA _)) fun _ => only_bind (only_call (hA _)) fun info =>
      only_bind (only_call (hA _)) fun newId => only_bind (findOrProvision_only hA) fun _ =>
      only_bind (only_call (hA _)) fun _ => only_bind (only_call (hA _)) fun _ =>
      only_bind (only_call (hA _)) fun _ => only_bind (only_call (hA _)) fun _ =>
      only_bind (only_call (hA _)) fun _ => only_ret

variable (hA : ∀ o, o.provisions = false → A o)
include hA

theorem register_only {pkgs : Packages} {body : Dcr.DcrRequest} :
    DoesOnly A (register pkgs body) := by
  rw [register]
  split
  · exact only_ret
  · exact only_bind (only_call (hA _ rfl)) fun _ => only_ret

theorem authorize_only {p : AuthorizeParams} : DoesOnly A (authorize p) := by
  refine only_bind only_ret fun _ => only_bind (only_call (hA _ rfl)) fun x => ?_
  cases x with
  | none => exact only_ret
  | some client =>
    exact only_bind only_ret fun _ => only_bind (only_call (hA _ rfl)) fun _ =>
      only_bind (only_call (hA _ rfl)) fun _ => only_bind (only_call (hA _ rfl)) fun _ =>
      only_bind (only_call (hA _ rfl)) fun _ => only_ret

theorem clientGrantTypes_only {clientId : String} : DoesOnly A (clientGrantTypes clientId) := by
  refine only_bind (only_call (hA _ rfl)) fun x => ?_
  cases x with
  | none => exact only_ret
  | some client =>
    dsimp only
    split <;> exact only_ret

theorem issueTokens_only {userId clientId : String} {refresh : Bool} :
    DoesOnly A (issueTokens userId clientId refresh) := by
  refine only_bind (only_call (hA _ rfl)) fun access => ?_
  cases refresh with
  | false => exact only_ret
  | true =>
    exact only_bind (only_call (hA _ rfl)) fun _ => only_bind (only_call (hA _ rfl)) fun _ =>
      only_bind (only_call (hA _ rfl)) fun _ => only_ret

theorem grantAuthCode_only {pkgs : Packages} {body : TokenForm} :
    DoesOnly A (grantAuthCode pkgs body) := by
  refine only_bind only_required fun code => only_bind only_required fun verifier =>
    only_bind (only_call (hA _ rfl)) fun x => ?_
  cases x with
  | none => exact only_ret
  | some entry =>
    refine only_bind only_ret fun _ => only_bind (clientGrantTypes_only hA) fun grants => ?_
    cases grants with
    | none => exact only_ret
    | some grants => exact issueTokens_only hA

theorem grantRefresh_only {body : TokenForm} : DoesOnly A (grantRefresh body) := by
  refine only_bind only_required fun tok => only_bind (only_call (hA _ rfl)) fun now =>
    only_bind (only_call (hA _ rfl)) fun x => ?_
  cases x with
  | none => exact only_ret
  | some x =>
    refine only_bind (clientGrantTypes_only hA) fun grants => ?_
    cases grants with
    | none => exact only_ret
    | some grants =>
      dsimp only
      split
      · exact issueTokens_only hA
      · exact only_ret

/-- Only callbacks provision users. -/
theorem handle_only {cfg : Config} {req : Request} (hreq : ∀ cb, req ≠ .callbackGoogle cb) :
    DoesOnly A (handle cfg req) := by
  cases req with
  | register body => exact register_only hA
  | authorize p => exact authorize_only hA
  | callbackGoogle cb => exact absurd rfl (hreq cb)
  | revoke tok =>
    exact only_bind (only_call (hA _ rfl)) fun _ => only_bind (only_call (hA _ rfl)) fun _ =>
      only_ret
  | token body =>
    show DoesOnly A (token cfg.pkgs body)
    rw [token]
    split
    · exact grantAuthCode_only hA
    · split
      · exact grantRefresh_only hA
      · exact only_ret

end DoesOnly

section Protocol

variable {K : Serving.Protocol AuthSig Request (Except Rejection Response) Input World AsState}
  {n : ℕ} {req : Request} {α β : Type} {P : Serving.Lasting K} {D : β → Serving.Lasting K}

/-- A parameter that the request must have. -/
theorem required_obeys {x : Option α} {r : Rejection} {f : α → Handler β}
    (h : ∀ a, x = some a → Serving.Obeys K n req P (f a) D) :
    Serving.Obeys K n req P (required x r >>= f) D := by
  cases x with
  | some a => exact h a rfl
  | none => exact Serving.Obeys.fail

end Protocol

/-! ## The runs of `AsSys` -/

/-- A request in flight, as one of the server. -/
def Handling.served (h : Handling) : Serving.Handling AuthSig Request (Except Rejection Response) :=
  ⟨h.id, h.req, h.prog⟩

/-- The two systems are in the same state, the trace apart. -/
structure Serves (s : AsSys) (t : Sys) : Prop where
  shared : t.conf.state = s.shared
  handling : t.handling = s.handling.map Handling.served
  received : t.received = s.received

theorem Serves.tick {s : AsSys} {t : Sys} (h : Serves s t) (cfg : Config) (dt : ℕ) :
    ∃ t', (server cfg).step t (.world (.tick dt)) = some t' ∧ Serves (s.tick dt) t' :=
  ⟨_, rfl, congrArg (AsState.world · (.tick dt)) h.shared, h.handling, h.received⟩

theorem Serves.move {s s' : AsSys} {t : Sys} {cfg : Config} (h : Serves s t) {m : Move}
    (hm : s.move cfg m = some s') : ∃ m' t', (server cfg).step t m' = some t' ∧ Serves s' t' := by
  obtain ⟨conf, handling, received⟩ := t
  obtain ⟨hshared, rfl, rfl⟩ := h
  cases m with
  | request req =>
    cases hm
    exact ⟨.request req, _, rfl, hshared, by simp [Handling.served, server], rfl⟩
  | drop i =>
    cases hm
    refine ⟨.drop i, _, rfl, ?_, by simp [List.eraseIdx_map], rfl⟩
    show (Option.elim (s.handling.map Handling.served)[i]? conf _).state = s.shared
    cases (s.handling.map Handling.served)[i]? <;> exact hshared
  | handling i input =>
    obtain ⟨⟨n, req, prog⟩, hi, hm⟩ := Option.bind_eq_some_iff.1 hm
    obtain ⟨⟨next, sh⟩, hst, he⟩ := Option.map_eq_some_iff.1 hm
    -- the same handling goes on, by the same operation
    have hi' : (s.handling.map Handling.served)[i]? = some ⟨n, req, prog⟩ := by
      simp [hi, Handling.served]
    cases prog with
    | ret r =>
      cases hst
      cases he
      exact ⟨.handling i input, _, by
        rw [Serving.Server.step, hi']; rfl, by rw [← hshared]; rfl, by simp [List.eraseIdx_map], rfl⟩
    | op o k =>
      obtain ⟨⟨a, sh'⟩, hp, hx⟩ := Option.map_eq_some_iff.1 hst
      cases hx
      cases he
      rw [← hshared] at hp
      have hadv : (server cfg).advance input ⟨n, req, .op o k⟩ conf =
          some (some ⟨n, req, k a⟩, conf.next sh (.did n req o a)) := by
        simp only [Serving.Server.advance, server, hp, Option.map_some]
      exact ⟨.handling i input, _, by
        rw [Serving.Server.step, hi', Option.bind_some, hadv]; rfl, rfl,
        by simp [List.map_set, Handling.served], rfl⟩
    | fork limit ts k => cases hst

/-- Every run of `AsSys` is one of the server. -/
theorem AsSys.served {cfg : Config} {db : Db} {now : Int} {ok : AsSys → Step → Prop} {s : AsSys}
    (h : Reach (· = .start db now) (AsSys.step cfg) ok s) :
    ∃ t, Reached cfg (· = db) (fun _ _ => True) t ∧ Serves s t := by
  induction h with
  | init hs =>
    subst hs
    exact ⟨_, .init ⟨_, ⟨rfl, rfl, rfl⟩, rfl⟩, rfl, rfl, rfl⟩
  | @step s s' l _ _ hst ih =>
    obtain ⟨t, ht, hserves⟩ := ih
    obtain ⟨t₁, h₁, hserves₁⟩ := hserves.tick cfg l.dt
    obtain ⟨m, t₂, h₂, hserves₂⟩ := hserves₁.move hst
    exact ⟨t₂, .step (.step ht trivial h₁) trivial h₂, hserves₂⟩

end LlmMemory.Auth
