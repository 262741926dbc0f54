import LlmMemory.WikiAuth.Server

/-!
# The binding of codes to clients

A token request that is given tokens for a code has taken the code, which a
callback issued for a session it took, which an authorization request put
(`IssuedFor`). The wiki's server checks the client and the redirect URI of that
authorization request against the parameters that the token request presents,
but does not require it to present them: tokens are given to the client that the
code is bound to exactly for the requests that present both (`token_binding`).
-/

namespace LlmMemory.WikiAuth

open Effects Auth Runs Serving

/-! ## What events stand on -/

/-- What an event stands on, given the events before it. -/
def Grounds (pkgs : Packages) (l : List Event) : Event → Prop
  | .did _ req (.putPending _ pending) _ => ∃ p, req = .authorize p ∧
      pending.clientId = p.clientId ∧ pending.redirectUri = p.redirectUri
  | .did _ req (.takePending key) (some pending) => (∃ cb, req = .callbackGoogle cb) ∧
      ∃ id' req', .did id' req' (.putPending key pending) () ∈ l
  | .did id req (.putCode _ c) _ => ∃ key pending, .did id req (.takePending key) (some pending) ∈ l ∧
      c.clientId = pending.clientId ∧ c.redirectUri = pending.redirectUri
  | .did _ _ (.takeCode code) (some c) => ∃ id' req', .did id' req' (.putCode code c) () ∈ l
  | .answered id (.token body) (.ok (.tokens _)) => body.grantType = "authorization_code" →
      ∃ code verifier c, .did id (.token body) (.takeCode code) (some c) ∈ l ∧
        body.code = some code ∧ checkCode pkgs body verifier c = .ok ()
  | _ => True

/-- The sessions and the codes at hand were put. -/
structure Inv (pkgs : Packages) (c : Conf) : Prop where
  grounded : Logs.Grounded (Grounds pkgs) c.trace
  pending : ∀ x ∈ c.state.sessions.pending, ∃ id req, .did id req (.putPending x.1 x.2) () ∈ c.trace
  codes : ∀ x ∈ c.state.sessions.codes, ∃ id req, .did id req (.putCode x.1 x.2) () ∈ c.trace

/-- The server keeps its trace grounded. -/
def protocol (pkgs : Packages) :
    Protocol WikiSig Auth.Request (Except Rejection Response) Input ℕ AsState where
  server := server pkgs
  inv := Inv pkgs
  keeps _ _ := True

variable {pkgs : Packages} {c : Conf} {s : AsState} {e : Event}

/-- A change on which the session maps only gain the entry that is put. -/
theorem evolves (hg : Inv pkgs c → Grounds pkgs c.trace e)
    (hpending : ∀ x ∈ s.sessions.pending, x ∈ c.state.sessions.pending ∨
      ∃ id req, e = .did id req (.putPending x.1 x.2) ())
    (hcodes : ∀ x ∈ s.sessions.codes, x ∈ c.state.sessions.codes ∨
      ∃ id req, e = .did id req (.putCode x.1 x.2) ()) :
    (protocol pkgs).Evolves c (c.next s e) where
  trace := ⟨[e], rfl⟩
  keeps := trivial
  inv h := by
    refine ⟨h.grounded.snoc (hg h), fun x hx => ?_, fun x hx => ?_⟩
    · rcases hpending x hx with hx | ⟨id, req, rfl⟩
      · obtain ⟨id, req, hx⟩ := h.pending x hx
        exact ⟨id, req, Conf.mem_next.2 (.inl hx)⟩
      · exact ⟨id, req, Conf.mem_next.2 (.inr rfl)⟩
    · rcases hcodes x hx with hx | ⟨id, req, rfl⟩
      · obtain ⟨id, req, hx⟩ := h.codes x hx
        exact ⟨id, req, Conf.mem_next.2 (.inl hx)⟩
      · exact ⟨id, req, Conf.mem_next.2 (.inr rfl)⟩

/-- A change that leaves the sessions as they are. -/
theorem evolves_same (hg : Inv pkgs c → Grounds pkgs c.trace e)
    (hs : s.sessions = c.state.sessions) : (protocol pkgs).Evolves c (c.next s e) :=
  evolves hg (fun _ hx => .inl (hs ▸ hx)) fun _ hx => .inl (hs ▸ hx)

/-! ## Operations -/

/-- The operation neither puts nor takes a secret. -/
def Op.Plain : Op → Prop
  | .putPending _ _ => False
  | .takePending _ => False
  | .putCode _ _ => False
  | .takeCode _ => False
  | _ => True

theorem answer_state {α ε : Type} {a : α} {e : ε} {input : Input} {r : Except ε α} {s s' : AsState}
    (h : (answer a e input).map (·, s) = some (r, s')) : s' = s := by
  obtain ⟨r', -, he⟩ := Option.map_eq_some_iff.1 h
  cases he
  rfl

theorem write_frame (db : Option Db) {s s' : AsState} {input : Input}
    {r : Except StorageError Unit} (h : write s db input = some (r, s')) :
    s'.now = s.now ∧ s'.sessions = s.sessions := by
  cases input with
  | error text => cases h
  | of input =>
    cases input with
    | ok => cases db <;> (cases h; exact ⟨rfl, rfl⟩)
    | fail => cases h; exact ⟨rfl, rfl⟩
    | text _ => cases h
    | google _ => cases h
    | info _ => cases h

/-- An operation that is no access to the sessions leaves them, and the time,
    as they are. -/
theorem Op.Plain.frame {o : Op} (ho : o.Plain) {input : Input} {r : o.Ans} {s s' : AsState}
    (h : perform pkgs input o s = some (r, s')) : s'.now = s.now ∧ s'.sessions = s.sessions := by
  cases o with
  | putPending key p => exact ho.elim
  | takePending key => exact ho.elim
  | putCode key c => exact ho.elim
  | takeCode key => exact ho.elim
  | nowMs => cases h; exact ⟨rfl, rfl⟩
  | getClient clientId => rw [answer_state h]; exact ⟨rfl, rfl⟩
  | findUser provider subject => rw [answer_state h]; exact ⟨rfl, rfl⟩
  | issueJwt userId clientId ttl => rw [answer_state h]; exact ⟨rfl, rfl⟩
  | touchLastSeen clientId => exact write_frame (some _) h
  | upsertUser u => exact write_frame _ h
  | createRefresh token userId clientId expiresAt => exact write_frame _ h
  | revoke token now => exact write_frame (some _) h
  | registerClient uris grants authMethod clientName =>
    simp only [perform] at h
    split at h
    · split at h <;> (cases h; exact ⟨rfl, rfl⟩)
    · cases h; exact ⟨rfl, rfl⟩
    · cases h
  | newUlid | authorizeUrl | exchangeCode _ _ | userinfo _ | validateAndRevoke _ _ =>
    simp only [perform] at h
    split at h <;> cases h <;> exact ⟨rfl, rfl⟩

theorem Op.Plain.free {o : Op} (ho : o.Plain) : (protocol pkgs).Free o := by
  intro n req input c r s _ _ hp
  refine evolves_same (fun _ => ?_) (ho.frame hp).2
  cases o <;> trivial

section Specs

variable {n : ℕ} {req : Auth.Request} {P : Lasting (protocol pkgs)}

/-- An authorization request puts its session. -/
theorem putPending_spec {p : AuthorizeParams} {g : GoogleAuthorize} {t : Int} :
    Obeys (protocol pkgs) n (.authorize p) P (perf (.putPending g.csrf (pendingOf p g t)))
      fun _ => .none := by
  refine Obeys.call fun c r s input _ _ hp => ⟨?_, fun _ _ => trivial⟩
  simp only [protocol, server, perform] at hp
  split at hp
  · obtain ⟨m, hm, he⟩ := Option.map_eq_some_iff.1 hp
    cases he
    refine evolves (fun _ => ⟨p, rfl, rfl, rfl⟩) (fun x hx => ?_) fun x hx => .inl hx
    rcases ExpiringMap.mem_put hm hx with rfl | ⟨hx, _⟩
    · exact .inr ⟨n, _, rfl⟩
    · exact .inl hx
  · cases hp

/-- A callback takes a session that was put. -/
theorem takePending_spec {cb : CallbackParams} :
    Obeys (protocol pkgs) n (.callbackGoogle cb) P (perf (.takePending cb.state))
      (Lasting.found fun pending =>
        .happened (.did n (.callbackGoogle cb) (.takePending cb.state) (some pending))) := by
  refine Obeys.call fun c r s input hc _ hp => ?_
  simp only [protocol, server, perform] at hp
  cases ht : (ExpiringMap.take PendingAuth.expiresAtMs c.state.now cb.state
    c.state.sessions.pending).1 with
  | none =>
    rw [ht] at hp
    cases hp
    refine ⟨evolves (fun _ => trivial) (fun x hx => .inl (ExpiringMap.mem_take hx).1)
      fun x hx => .inl hx, ?_⟩
    rintro _ ⟨⟩ _ ⟨⟩
  | some pending =>
    rw [ht] at hp
    cases hp
    -- what is taken was put
    have hput := hc.1.pending _ (ExpiringMap.take_some ht).1
    refine ⟨evolves (fun _ => ⟨⟨cb, rfl⟩, hput⟩) (fun x hx => .inl (ExpiringMap.mem_take hx).1)
      fun x hx => .inl hx, ?_⟩
    rintro _ ⟨⟩ _ ⟨⟩
    exact Conf.mem_next.2 (.inr rfl)

/-- A callback puts a code for the session that it took. -/
theorem putCode_spec {code key : String} {pending : PendingAuth} {u : User} {t : Int} :
    Obeys (protocol pkgs) n req (.happened (.did n req (.takePending key) (some pending)))
      (perf (.putCode code (codeOf pending u t))) fun _ => .none := by
  refine Obeys.call fun c r s input hc _ hp => ⟨?_, fun _ _ => trivial⟩
  simp only [protocol, server, perform] at hp
  split at hp
  · obtain ⟨m, hm, he⟩ := Option.map_eq_some_iff.1 hp
    cases he
    refine evolves (fun _ => ⟨key, pending, hc.2, rfl, rfl⟩) (fun x hx => .inl hx) fun x hx => ?_
    rcases ExpiringMap.mem_put hm hx with rfl | ⟨hx, _⟩
    · exact .inr ⟨n, req, rfl⟩
    · exact .inl hx
  · cases hp

/-- A token request takes a code that was put. -/
theorem takeCode_spec {body : TokenForm} {code : String} :
    Obeys (protocol pkgs) n (.token body) P (perf (.takeCode code)) (Lasting.found fun c =>
      .happened (.did n (.token body) (.takeCode code) (some c))) := by
  refine Obeys.call fun c r s input hc _ hp => ?_
  simp only [protocol, server, perform] at hp
  cases ht : (ExpiringMap.take AuthCode.expiresAtMs c.state.now code c.state.sessions.codes).1 with
  | none =>
    rw [ht] at hp
    cases hp
    refine ⟨evolves (fun _ => trivial) (fun x hx => .inl hx)
      fun x hx => .inl (ExpiringMap.mem_take hx).1, ?_⟩
    rintro _ ⟨⟩ _ ⟨⟩
  | some entry =>
    rw [ht] at hp
    cases hp
    have hput := hc.1.codes _ (ExpiringMap.take_some ht).1
    refine ⟨evolves (fun _ => hput) (fun x hx => .inl hx)
      fun x hx => .inl (ExpiringMap.mem_take hx).1, ?_⟩
    rintro _ ⟨⟩ _ ⟨⟩
    exact Conf.mem_next.2 (.inr rfl)

/-- A plain operation, in a program that goes on with what it answered. -/
theorem plain_spec {γ : Type} {o : Op} {k : o.Ans → Except Rejection γ} (ho : o.Plain) :
    Obeys (protocol pkgs) n req P (Attempt.call o k) fun _ => P :=
  Obeys.free (Attempt.Only.call ho.free)

/-! ## Handlers -/

/-- The program neither puts nor takes a secret. -/
abbrev PlainProg (pkgs : Packages) {γ : Type} (p : Handler γ) : Prop := FreeProgram (protocol pkgs) p

theorem plain_call {γ : Type} (o : Op) {k : o.Ans → Except Rejection γ} (ho : o.Plain) :
    PlainProg pkgs (Attempt.call o k) :=
  FreeProgram.call ho.free

theorem clientGrantTypes_plain {clientId : String} : PlainProg pkgs (clientGrantTypes clientId) :=
  FreeProgram.bind (plain_call (.getClient clientId) trivial) fun _ => .ret

theorem upsert_plain {newId provider subject : String} {email : Option String} :
    PlainProg pkgs (upsert newId provider subject email) := by
  refine FreeProgram.bind (plain_call .nowMs trivial) fun now => ?_
  refine FreeProgram.bind (plain_call (.upsertUser _) trivial) fun _ => ?_
  refine FreeProgram.bind (plain_call (.findUser _ _) trivial) fun x => ?_
  cases x with
  | none => exact .ret
  | some user => exact .ret

theorem issueTokens_plain {userId clientId : String} {refresh : Bool} :
    PlainProg pkgs (issueTokens userId clientId refresh) := by
  refine FreeProgram.bind (plain_call (.issueJwt _ _ _) trivial) fun access => ?_
  cases refresh with
  | false => exact .ret
  | true =>
    refine FreeProgram.bind (plain_call .newUlid trivial) fun r => ?_
    refine FreeProgram.bind (plain_call .nowMs trivial) fun now => ?_
    exact FreeProgram.bind (plain_call (.createRefresh _ _ _ _) trivial) fun _ => .ret

theorem register_plain {body : Dcr.DcrRequest} : PlainProg pkgs (register pkgs body) := by
  rw [register]
  split
  · exact .ret
  · exact FreeProgram.bind (plain_call (.registerClient _ _ _ _) trivial) fun _ => .ret

theorem revoke_plain {tok : String} : PlainProg pkgs (revoke tok) :=
  FreeProgram.bind (plain_call .nowMs trivial) fun _ =>
    FreeProgram.bind (plain_call (.revoke _ _) trivial) fun _ => .ret

theorem grantRefresh_plain {body : TokenForm} : PlainProg pkgs (grantRefresh body) := by
  refine FreeProgram.bind .ret fun tok => ?_
  refine FreeProgram.bind (plain_call .nowMs trivial) fun now => ?_
  refine FreeProgram.bind (plain_call (.validateAndRevoke tok now) trivial) fun x => ?_
  cases x with
  | none => exact .ret
  | some x =>
    refine FreeProgram.bind clientGrantTypes_plain fun grants => ?_
    cases grants with
    | none => exact .ret
    | some grants =>
      dsimp only
      split
      · exact issueTokens_plain
      · exact .ret

/-- `authorize` keeps the protocol. -/
theorem authorize_spec {p : AuthorizeParams} :
    Obeys (protocol pkgs) n (.authorize p) .none (authorize p) fun _ => .none := by
  refine Obeys.ret_bind fun _ _ => ?_
  refine Obeys.bind (plain_spec (o := .getClient _) trivial) fun x => ?_
  cases found x with
  | none => exact Obeys.fail
  | some client =>
    refine Obeys.ret_bind fun _ _ => ?_
    refine Obeys.bind (plain_spec (o := .touchLastSeen _) trivial) fun _ => ?_
    refine Obeys.bind (plain_spec (o := .authorizeUrl) trivial) fun g => ?_
    refine Obeys.bind (plain_spec (o := .nowMs) trivial) fun now => ?_
    exact Obeys.bind putPending_spec fun _ => Obeys.pure fun _ h => h

theorem callbackGoogle_spec {cb : CallbackParams} :
    Obeys (protocol pkgs) n (.callbackGoogle cb) .none (callbackGoogle cb) fun _ => .none := by
  refine Obeys.bind takePending_spec fun x => ?_
  cases x with
  | none => exact Obeys.fail
  | some pending =>
    refine Obeys.pre (P := Lasting.happened (.did n (.callbackGoogle cb) (.takePending cb.state)
      (some pending) : Event)) ?_ fun c h => h pending rfl
    refine Obeys.bind (plain_spec (o := .exchangeCode _ _) trivial) fun token => ?_
    refine Obeys.bind (plain_spec (o := .userinfo _) trivial) fun info => ?_
    refine Obeys.bind (plain_spec (o := .newUlid) trivial) fun newUserId => ?_
    refine Obeys.bind (Obeys.free upsert_plain) fun user => ?_
    refine Obeys.bind (plain_spec (o := .newUlid) trivial) fun code => ?_
    refine Obeys.bind (plain_spec (o := .nowMs) trivial) fun now => ?_
    exact Obeys.bind putCode_spec fun _ => Obeys.pure fun _ h => h

/-- Tokens are given for a code that the request took, and that it matches as far
    as it presents parameters. -/
def grantedFact (pkgs : Packages) (n : ℕ) (req : Auth.Request) (r : Response) :
    Lasting (protocol pkgs) :=
  ⟨fun c => ∀ t, r = .tokens t → Grounds pkgs c.trace (.answered n req (.ok (.tokens t))),
    fun ht _ h t hr => by
      have hg := h t hr
      cases req with
      | token body =>
        intro hgrant
        obtain ⟨code, verifier, c, hmem, hrest⟩ := hg hgrant
        exact ⟨code, verifier, c, ht.subset hmem, hrest⟩
      | _ => trivial⟩

/-- The code grant answers for the code that it took. -/
theorem grantAuthCode_spec {body : TokenForm} :
    Obeys (protocol pkgs) n (.token body) .none (grantAuthCode pkgs body)
      (grantedFact pkgs n (.token body)) := by
  refine Obeys.ret_bind fun code hcode => ?_
  refine Obeys.ret_bind fun verifier hverifier => ?_
  refine Obeys.bind takeCode_spec fun x => ?_
  cases x with
  | none => exact Obeys.fail
  | some entry =>
    refine Obeys.ret_bind fun _ hcheck => ?_
    refine Obeys.pre (P := Lasting.happened (.did n (.token body) (.takeCode code)
      (some entry) : Event)) ?_ fun c h => h entry rfl
    refine Obeys.bind (Obeys.free clientGrantTypes_plain) fun grants => ?_
    cases grants with
    | none => exact Obeys.fail
    | some grants =>
      refine Obeys.post (Obeys.free issueTokens_plain) fun r c h t ht _ => ?_
      have hbody : body.code = some code := by
        cases hb : body.code with
        | none => rw [hb] at hcode; cases hcode
        | some code' => rw [hb] at hcode; cases hcode; rfl
      exact ⟨code, verifier, entry, h, hbody, hcheck⟩

theorem handle_spec :
    Obeys (protocol pkgs) n req .none (handle pkgs req) (grantedFact pkgs n req) := by
  cases req with
  | register body => exact Obeys.post (Obeys.free register_plain) fun _ _ _ _ _ => trivial
  | authorize p => exact Obeys.post authorize_spec fun _ _ _ _ _ => trivial
  | callbackGoogle cb => exact Obeys.post callbackGoogle_spec fun _ _ _ _ _ => trivial
  | revoke tok => exact Obeys.post (Obeys.free revoke_plain) fun _ _ _ _ _ => trivial
  | token body =>
    show Obeys (protocol pkgs) n _ _ (token pkgs body) _
    rw [token]
    split
    · exact grantAuthCode_spec
    · rename_i hgrant
      have hother : ∀ r c, (grantedFact pkgs n (.token body) r).holds c :=
        fun _ _ _ _ hg => absurd hg hgrant
      split
      · exact Obeys.post (Obeys.free grantRefresh_plain) fun r c _ => hother r c
      · exact Obeys.fail

end Specs

/-! ## Runs -/

/-- The server keeps the protocol. -/
theorem protocol_meets : (protocol pkgs).Meets fun n req =>
    OnOk (fun r => Holding (protocol pkgs) (grantedFact pkgs n req r)) fun _ => True where
  handle n req c hc := handle_spec c ⟨hc, trivial⟩
  finish n req a c _ hpost := by
    refine evolves_same (fun _ => ?_) rfl
    cases a with
    | error r => cases req <;> trivial
    | ok r =>
      cases r with
      | tokens t => exact hpost.2 t rfl
      | _ => cases req <;> trivial
  world dt c s _ _ hw := by
    cases hw
    exact evolves_same (fun _ => trivial) rfl

/-- The runs of the server, from any tables and no sessions. -/
abbrev Reached (pkgs : Packages) : Sys → Prop :=
  Reach (fun s => ∃ st, (∃ db now, st = start db now) ∧ s = .start st) (server pkgs).step
    fun _ _ => True

/-- The invariant holds in every system reached. -/
theorem inv_reached {s : Sys} (h : Reached pkgs s) : Inv pkgs s.conf := by
  refine (protocol_meets.sound (K := protocol pkgs) (fun st hst => ?_) (fun s m _ => ?_) h).inv
  · obtain ⟨db, now, rfl⟩ := hst
    exact ⟨.nil, fun _ hx => absurd hx List.not_mem_nil, fun _ hx => absurd hx List.not_mem_nil⟩
  · cases m with
    | handling i input => exact fun _ _ _ _ _ => trivial
    | _ => trivial

/-! ## Codes are bound to clients -/

/-- What was presented is what was bound, if it was presented. -/
theorem checkPresented_ok {bound description : String} {presented : Option String} :
    checkPresented bound presented description = .ok () ↔ ∀ x, presented = some x → x = bound := by
  cases presented with
  | none => simp [checkPresented]
  | some x =>
    rw [checkPresented]
    split
    · rename_i hne
      exact ⟨nofun, fun h => absurd (h x rfl) hne⟩
    · rename_i heq
      exact ⟨fun _ y hy => Option.some.inj hy ▸ not_not.1 heq, fun _ => rfl⟩

/-- A code that passes has the client and the redirect URI, where they were presented. -/
theorem checkCode_ok {body : TokenForm} {verifier : String} {entry : AuthCode}
    (h : checkCode pkgs body verifier entry = .ok ()) :
    (∀ x, body.clientId = some x → x = entry.clientId) ∧
      ∀ x, body.redirectUri = some x → x = entry.redirectUri := by
  rw [checkCode] at h
  split at h
  · cases h
  · cases hc : checkPresented entry.clientId body.clientId "client_id mismatch" with
    | error e => rw [hc] at h; cases h
    | ok =>
      rw [hc] at h
      exact ⟨checkPresented_ok.1 hc, checkPresented_ok.1 h⟩

/-- The trace holds, in this order, an authorization request `p`, the callback
    that took its session and issued a code, and the token request `body`, the
    `id`-th one, that took the code and was given the tokens `t`. -/
def IssuedFor (l : List Event) (id : ℕ) (body : TokenForm) (t : TokenResponse)
    (p : AuthorizeParams) : Prop :=
  ∃ n₁ n₂ cb key pending code c,
    List.Sublist (α := Event) [.did n₁ (.authorize p) (.putPending key pending) (),
      .did n₂ (.callbackGoogle cb) (.takePending key) (some pending),
      .did n₂ (.callbackGoogle cb) (.putCode code c) (),
      .did id (.token body) (.takeCode code) (some c),
      .answered id (.token body) (.ok (.tokens t))] l ∧
    body.code = some code ∧
    (pending.clientId = p.clientId ∧ pending.redirectUri = p.redirectUri) ∧
    c.clientId = pending.clientId ∧ c.redirectUri = pending.redirectUri

/-- The request presents the client and the redirect URI of `p`. -/
structure Presents (body : TokenForm) (p : AuthorizeParams) : Prop where
  clientId : body.clientId = some p.clientId
  redirectUri : body.redirectUri = some p.redirectUri

/-- The tokens are given to the client that the code is bound to. -/
def BoundToClient (l : List Event) (id : ℕ) (body : TokenForm) (t : TokenResponse) : Prop :=
  ∃ p, IssuedFor l id body t p ∧ Presents body p

/-- Tokens given for a code are traced back to an authorization request, which
    the token request matches as far as it presents parameters. -/
theorem Inv.issuedFor (h : Inv pkgs c) {id : ℕ} {body : TokenForm} {t : TokenResponse}
    (he : .answered id (.token body) (.ok (.tokens t)) ∈ c.trace)
    (hgrant : body.grantType = "authorization_code") :
    ∃ p, IssuedFor c.trace id body t p ∧ (∀ x, body.clientId = some x → x = p.clientId) ∧
      ∀ x, body.redirectUri = some x → x = p.redirectUri := by
  -- the code taken by the token request
  obtain ⟨l, -, hg, hback⟩ := h.grounded.trace_back (List.singleton_sublist.2 he)
  obtain ⟨code, verifier, entry, hmem, hcode, hcheck⟩ := hg hgrant
  -- the code issued
  obtain ⟨l, -, ⟨n₂, req, hmem⟩, hback⟩ := h.grounded.trace_back
    (hback [_] (List.singleton_sublist.2 hmem))
  -- the session taken by the callback
  obtain ⟨l, -, ⟨key, pending, hmem, hcode'⟩, hback⟩ := h.grounded.trace_back
    (hback [_] (List.singleton_sublist.2 hmem))
  -- the session put
  obtain ⟨l, -, ⟨⟨cb, rfl⟩, n₁, req, hmem⟩, hback⟩ := h.grounded.trace_back
    (hback [_] (List.singleton_sublist.2 hmem))
  obtain ⟨l, -, ⟨p, rfl, hp⟩, -⟩ := h.grounded.trace_back
    (hback [_] (List.singleton_sublist.2 hmem))
  refine ⟨p, ⟨n₁, n₂, cb, key, pending, code, entry, hback [_] (List.singleton_sublist.2 hmem),
    hcode, hp, hcode'⟩, fun x hx => ?_, fun x hx => ?_⟩
  · rw [(checkCode_ok hcheck).1 x hx, hcode'.1, hp.1]
  · rw [(checkCode_ok hcheck).2 x hx, hcode'.2, hp.2]

/-- In every run, tokens given for a code were issued to an authorization
    request, and are given to its client exactly if the token request presents
    both a client and a redirect URI. -/
theorem token_binding {s : Sys} (h : Reached pkgs s) {id : ℕ} {body : TokenForm}
    {t : TokenResponse} (he : .answered id (.token body) (.ok (.tokens t)) ∈ s.conf.trace)
    (hgrant : body.grantType = "authorization_code") :
    (∃ p, IssuedFor s.conf.trace id body t p) ∧
      (BoundToClient s.conf.trace id body t ↔ body.clientId.isSome ∧ body.redirectUri.isSome) := by
  obtain ⟨p, hp, hclient, huri⟩ := (inv_reached h).issuedFor he hgrant
  refine ⟨⟨p, hp⟩, fun ⟨q, _, hq⟩ => by simp [hq.clientId, hq.redirectUri], fun ⟨hc, hu⟩ => ?_⟩
  obtain ⟨x, hx⟩ := Option.isSome_iff_exists.1 hc
  obtain ⟨y, hy⟩ := Option.isSome_iff_exists.1 hu
  exact ⟨p, hp, hx.trans (congrArg some (hclient x hx)), hy.trans (congrArg some (huri y hy))⟩

/-! ### A first sign-in -/

/-- The requests of a client that registers and goes through the flow once, up
    to the token request `body`. -/
def firstSignIn (body : TokenForm) : List (Serving.Move Auth.Request Input ℕ) :=
  [.request (.register ⟨["https://app.example.com/cb"], ["authorization_code"], none, none⟩),
    .handling 0 (.of (.text "c1")), .handling 0 (.of .ok), .world 10,
    .request (.authorize ⟨"code", "c1", "https://app.example.com/cb", sampleChallenge, "S256",
      some "xyz"⟩),
    .handling 0 (.of .ok), .handling 0 (.of .ok),
    .handling 0 (.of (.google ⟨"https://accounts.google.com/o/oauth2/v2/auth", "csrf", "secret"⟩)),
    .handling 0 (.of .ok), .handling 0 (.of (.text "")), .handling 0 (.of .ok), .world 10,
    .request (.callbackGoogle ⟨"google-code", "csrf"⟩),
    .handling 0 (.of .ok), .handling 0 (.of (.text "google-token")),
    .handling 0 (.of (.info ⟨"sub", none⟩)), .handling 0 (.of (.text "u1")), .handling 0 (.of .ok),
    .handling 0 (.of .ok), .handling 0 (.of .ok), .handling 0 (.of (.text "code1")),
    .handling 0 (.of .ok), .handling 0 (.of (.text "")), .handling 0 (.of .ok), .world 10,
    .request (.token body), .handling 0 (.of .ok), .handling 0 (.of .ok), .handling 0 (.of .ok),
    .handling 0 (.of .ok)]

/-- A token request that presents neither a client nor a redirect URI. -/
def bareTokenForm : TokenForm :=
  { grantType := "authorization_code", code := some "code1", codeVerifier := some "v" }

/-- The tokens that the last event gives. -/
def lastTokens (s : Sys) : Option (ℕ × TokenForm × TokenResponse) :=
  match s.conf.trace.getLast? with
  | some (.answered id (.token body) (.ok (.tokens t))) => some (id, body, t)
  | _ => none

/-- The last answer is in the trace. -/
theorem mem_of_lastTokens {s : Sys} {id : ℕ} {body : TokenForm} {t : TokenResponse}
    (h : lastTokens s = some (id, body, t)) :
    .answered id (.token body) (.ok (.tokens t)) ∈ s.conf.trace := by
  rw [lastTokens] at h
  split at h
  · rename_i hlast
    cases h
    exact List.mem_of_getLast? hlast
  · cases h

/-- A first sign-in, run to its tokens. -/
theorem token_binding_firstSignIn : ∃ s id t, Reached .sample s ∧
    .answered id (.token firstTokenForm) (.ok (.tokens t)) ∈ s.conf.trace ∧
    BoundToClient s.conf.trace id firstTokenForm t := by
  obtain ⟨s, hs, hlast⟩ : ∃ s, exec (server .sample).step (fun _ _ => true)
      (.start (start ⟨[], [], []⟩ 1000000)) (firstSignIn firstTokenForm) = some s ∧
      lastTokens s = some (3, firstTokenForm, firstTokens) :=
    Option.map_eq_some_iff.1 (by decide)
  have hr : Reached .sample s := .exec (fun _ _ _ => trivial) (.init ⟨_, ⟨_, _, rfl⟩, rfl⟩) hs
  have he := mem_of_lastTokens hlast
  exact ⟨s, _, _, hr, he, (token_binding hr he rfl).2.2 ⟨rfl, rfl⟩⟩

/-- Tokens are given to a request that presents neither. -/
theorem unbound_tokens : ∃ s id t, Reached .sample s ∧
    .answered id (.token bareTokenForm) (.ok (.tokens t)) ∈ s.conf.trace ∧
    bareTokenForm.grantType = "authorization_code" ∧
    ¬BoundToClient s.conf.trace id bareTokenForm t := by
  obtain ⟨s, hs, hlast⟩ : ∃ s, exec (server .sample).step (fun _ _ => true)
      (.start (start ⟨[], [], []⟩ 1000000)) (firstSignIn bareTokenForm) = some s ∧
      lastTokens s = some (3, bareTokenForm, firstTokens) :=
    Option.map_eq_some_iff.1 (by decide)
  refine ⟨s, _, _, .exec (fun _ _ _ => trivial) (.init ⟨_, ⟨_, _, rfl⟩, rfl⟩) hs,
    mem_of_lastTokens hlast, rfl, fun ⟨p, _, hp⟩ => ?_⟩
  cases hp.clientId

end LlmMemory.WikiAuth
