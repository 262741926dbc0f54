import LlmMemory.Lib.Records
import LlmMemory.WikiAuth.Server

/-!
# What the handlers do

What the handlers of the wiki's authorization server do depends on what they were
answered: an operation that registers a client, opens a session, adds a user, or puts a
code stands on the history of its handling (`MayDo`), and so does the URL of an answer
that redirects (`Tells`). The handlers keep to this whatever they are answered
(`handle_logs`).
-/

namespace LlmMemory.WikiAuth

open Effects Auth

/-- The operations of a handling so far, each with the answer that it got. -/
abbrev History : Type := List (Exchange WikiSig)

/-- The operation was done, and answered so. -/
def Did (h : History) (o : Op) (r : o.Ans) : Prop := (⟨o, r⟩ : Exchange WikiSig) ∈ h

/-- The operation upserts a user. -/
def Op.upserts : Op → Bool
  | .upsertUser _ => true
  | _ => false

/-- What an operation of the handling of `req` stands on, after the history `h`. -/
def MayDo (pkgs : Packages) (req : Auth.Request) (h : History) : Op → Prop
  | .registerClient uris _ _ _ => ∃ body resp, req = .register body ∧
      Dcr.validate pkgs body = .ok resp ∧ uris = resp.redirectUris
  | .putPending key pending => ∃ p client g t, req = .authorize p ∧
      Did h (.getClient p.clientId) (.ok (some client)) ∧ checkClient p client = .ok () ∧
      Did h .authorizeUrl g ∧ key = g.csrf ∧ pending = pendingOf p g t
  | .upsertUser u => Did h .newUlid u.id ∧ ∀ e ∈ h, e.1.upserts = false
  | .putCode _ c => ∃ cb pending user t, req = .callbackGoogle cb ∧
      Did h (.takePending cb.state) (some pending) ∧ c = codeOf pending user t
  | _ => True

/-- The URL leads to Google, for a client that passed the check, or back to the client
    whose session the callback took, with the code that it put. -/
def Redirects (req : Auth.Request) (h : History) (url : String) : Prop :=
  (∃ p client g, req = .authorize p ∧ Did h (.getClient p.clientId) (.ok (some client)) ∧
    checkClient p client = .ok () ∧ Did h .authorizeUrl g ∧ url = g.url) ∨
  ∃ cb pending code user t, req = .callbackGoogle cb ∧
    Did h (.takePending cb.state) (some pending) ∧ Did h (.putCode code (codeOf pending user t)) () ∧
    url = redirectUrl pending code

/-- What an answer tells of the history of its handling. -/
def Tells (req : Auth.Request) (h : History) : Except Rejection Response → Prop
  | .ok (.redirect url) => Redirects req h url
  | _ => True

/-! ## Parts of handlers -/

/-- The operation stands on nothing. -/
def Op.Free : Op → Prop
  | .registerClient _ _ _ _ | .putPending _ _ | .upsertUser _ | .putCode _ _ => False
  | _ => True

/-- The answer redirects to no URL. -/
def Response.Stays : Response → Prop
  | .redirect _ => False
  | _ => True

section Parts

variable {pkgs : Packages} {req : Auth.Request} {h : History} {o : Op} {α β : Type}
  {Q : History → α → Prop}

theorem Did.append {r : o.Ans} {es : History} (hd : Did h o r) : Did (h ++ es) o r :=
  List.mem_append_left es hd

theorem Did.last {r : o.Ans} : Did (h ++ [⟨o, r⟩]) o r :=
  List.mem_append_right h (List.mem_singleton_self _)

/-- An operation that stands on nothing may be done. -/
theorem Op.Free.mayDo (ho : o.Free) : MayDo pkgs req h o := by
  cases o <;> first | exact ho.elim | trivial

/-- An operation that stands on nothing, and what follows it. -/
theorem free_then {γ : Type} {k : o.Ans → Except Rejection γ} {f : γ → Handler α} (ho : o.Free)
    (hf : ∀ r a, k r = .ok a → Logs (MayDo pkgs req) Q (h ++ [⟨o, r⟩]) (f a)) :
    Logs (MayDo pkgs req) Q h (Attempt.call o k >>= f) :=
  Logs.call_bind ho.mayDo hf

/-- A part that only does such operations, to the end of the handling. -/
theorem stays_logs {p : Handler Response} (hp : Does Op.Free Response.Stays p) :
    Logs (MayDo pkgs req) (fun h r => Tells req h (.ok r)) h p := by
  have hlogs : Logs (MayDo pkgs req) (fun _ r => Response.Stays r) h p :=
    Prog.Logs.imp (Prog.Does.logs hp) fun _ _ ho => ho.mayDo
  refine Logs.mono hlogs fun h r hr => ?_
  cases r <;> first | exact hr.elim | trivial

/-- An operation that stands on nothing, among others of the kind. -/
theorem call_does {γ : Type} {k : o.Ans → Except Rejection γ} (ho : o.Free) :
    Does Op.Free (fun _ => True) (Attempt.call o k : Handler γ) :=
  Does.call ho fun _ _ _ => trivial

/-- A check, or a value computed, that may end the handling. -/
theorem ret_does {γ : Type} {x : Except Rejection γ} :
    Does Op.Free (fun _ => True) (Prog.ret x : Handler γ) :=
  Does.ret fun _ _ => trivial

theorem clientGrantTypes_does {clientId : String} :
    Does Op.Free (fun _ => True) (clientGrantTypes clientId) :=
  Does.bind (call_does trivial) fun _ _ => Does.pure trivial

theorem issueTokens_does {userId clientId : String} {refresh : Bool} :
    Does Op.Free Response.Stays (issueTokens userId clientId refresh) := by
  refine Does.bind (call_does trivial) fun access _ => ?_
  cases refresh with
  | false => exact Does.pure trivial
  | true =>
    refine Does.bind (call_does trivial) fun tok _ => Does.bind (call_does trivial) fun now _ => ?_
    exact Does.bind (call_does trivial) fun _ _ => Does.pure trivial

theorem grantAuthCode_does {body : TokenForm} :
    Does Op.Free Response.Stays (grantAuthCode pkgs body) := by
  refine Does.bind ret_does fun code _ => Does.bind ret_does fun verifier _ =>
    Does.bind (call_does trivial) fun x _ => ?_
  cases x with
  | none => exact Does.fail
  | some entry =>
    refine Does.bind ret_does fun _ _ => Does.bind clientGrantTypes_does fun grants _ => ?_
    cases grants with
    | none => exact Does.fail
    | some grants => exact issueTokens_does

theorem grantRefresh_does {body : TokenForm} :
    Does Op.Free Response.Stays (grantRefresh body) := by
  refine Does.bind ret_does fun tok _ => Does.bind (call_does trivial) fun now _ =>
    Does.bind (call_does trivial) fun x _ => ?_
  cases x with
  | none => exact Does.fail
  | some x =>
    refine Does.bind clientGrantTypes_does fun grants _ => ?_
    cases grants with
    | none => exact Does.fail
    | some grants =>
      dsimp only
      split
      · exact issueTokens_does
      · exact Does.fail

theorem token_does {body : TokenForm} : Does Op.Free Response.Stays (token pkgs body) := by
  rw [token]
  split
  · exact grantAuthCode_does
  · split
    · exact grantRefresh_does
    · exact Does.fail

theorem revoke_does {tok : String} : Does Op.Free Response.Stays (revoke tok) :=
  Does.bind (call_does trivial) fun _ _ => Does.bind (call_does trivial) fun _ _ =>
    Does.pure trivial

end Parts

/-! ## The handlers -/

section Handlers

variable {pkgs : Packages} {req : Auth.Request}

/-- A registration registers what it checked. -/
theorem register_logs {body : Dcr.DcrRequest} :
    Logs (MayDo pkgs (.register body)) (fun h r => Tells (.register body) h (.ok r)) []
      (register pkgs body) := by
  rw [register]
  split
  · exact Logs.fail
  · next resp hvalid =>
    exact Logs.call_bind ⟨body, resp, rfl, hvalid, rfl⟩ fun _ _ _ => Logs.pure trivial

/-- `authorize` redirects to Google, for a client that passed. -/
theorem authorize_logs {p : AuthorizeParams} :
    Logs (MayDo pkgs (.authorize p)) (fun h r => Tells (.authorize p) h (.ok r)) []
      (authorize p) := by
  refine Logs.ret_bind fun _ _ => free_then trivial fun x _ hx => ?_
  obtain rfl := Except.ok.inj hx
  match x with
  | .error e => exact Logs.fail
  | .ok none => exact Logs.fail
  | .ok (some client) =>
    refine Logs.ret_bind fun _ hcheck => ?_
    refine free_then trivial fun _ _ _ => free_then trivial fun g _ hg => ?_
    obtain rfl := Except.ok.inj hg
    refine free_then trivial fun t _ ht => ?_
    obtain rfl := Except.ok.inj ht
    have hclient : Did ([] ++ [⟨.getClient p.clientId, .ok (some client)⟩])
        (.getClient p.clientId) (.ok (some client)) := .last
    exact Logs.call_bind ⟨p, client, g, t, rfl, hclient.append.append.append, hcheck,
      Did.last.append, rfl, rfl⟩ fun _ _ _ => Logs.pure (.inl ⟨p, client, g, rfl,
        hclient.append.append.append.append, hcheck, Did.last.append.append, rfl⟩)

/-- The user of a sign-in is upserted once, under a new id. -/
theorem upsert_then {newId provider subject : String} {email : Option String} {h : History}
    {f : User → Handler Response} {Q : History → Response → Prop}
    (hid : Did h .newUlid newId) (hnone : ∀ e ∈ h, e.1.upserts = false)
    (hf : ∀ user es, Logs (MayDo pkgs req) Q (h ++ es) (f user)) :
    Logs (MayDo pkgs req) Q h (upsert newId provider subject email >>= f) := by
  have hupsert : Logs (MayDo pkgs req) (fun h' _ => ∃ es, h' = h ++ es) h
      (upsert newId provider subject email) := by
    refine free_then trivial fun now _ hnow => ?_
    refine Logs.call_bind ⟨hid.append, fun e he => ?_⟩ fun _ _ _ => ?_
    · rcases List.mem_append.1 he with he | he
      · exact hnone e he
      · rw [List.mem_singleton.1 he]
        rfl
    · refine free_then trivial fun _ x _ => ?_
      cases x with
      | none => exact Logs.fail
      | some user => exact Logs.pure ⟨_, (List.append_assoc _ _ _).trans (List.append_assoc _ _ _)⟩
  refine Logs.bind hupsert ?_
  rintro h' user ⟨es, rfl⟩
  exact hf user es

/-- The callback redirects to the client of the session that it took. -/
theorem callbackGoogle_logs {cb : CallbackParams} :
    Logs (MayDo pkgs (.callbackGoogle cb)) (fun h r => Tells (.callbackGoogle cb) h (.ok r)) []
      (callbackGoogle cb) := by
  refine free_then trivial fun x _ hx => ?_
  obtain rfl := Except.ok.inj hx
  cases x with
  | none => exact Logs.fail
  | some pending =>
    refine free_then trivial fun token _ _ => free_then trivial fun info _ _ =>
      free_then trivial fun newId _ hnew => ?_
    obtain rfl := Except.ok.inj hnew
    refine upsert_then .last (by simp [Op.upserts]) fun user es => ?_
    refine free_then trivial fun code _ hcode => free_then trivial fun now _ hnow => ?_
    refine Logs.call_bind ⟨cb, pending, user, _, rfl, by simp [Did], rfl⟩ fun _ _ _ => ?_
    exact Logs.pure (.inr ⟨cb, pending, _, user, _, rfl, by simp [Did], .last, rfl⟩)

/-- The handlers keep to this, whatever they are answered. -/
theorem handle_logs : (handle pkgs req).Logs (MayDo pkgs req) (Tells req) [] := by
  have hof : ∀ {p : Handler Response},
      Logs (MayDo pkgs req) (fun h r => Tells req h (.ok r)) [] p →
      Prog.Logs (MayDo pkgs req) (Tells req) [] p := fun hp => Prog.Logs.mono hp fun h x hx => by
    cases x with
    | ok r => exact hx r rfl
    | error e => trivial
  refine hof ?_
  cases req with
  | register body => exact register_logs
  | authorize p => exact authorize_logs
  | callbackGoogle cb => exact callbackGoogle_logs
  | token body => exact stays_logs token_does
  | revoke tok => exact stays_logs revoke_does

end Handlers

end LlmMemory.WikiAuth
