import LlmMemory.Auth.Runs
import LlmMemory.Auth.Tables

/-!
# The revocation of clients

An operator revokes a client by setting the `revoked_at` of its row, which the
handlers read with the row and never look at. So a revoked client is still
granted sessions and tokens (`revoked_client_authorized`).

Revocation takes effect exactly as far as the rows are looked up before it:
`RevocationRespected` excludes the steps on which a handler lets a revoked row
pass, and those on which a client is revoked while a request that its row let
pass is about to be granted something. In every run without such steps, a
client is granted nothing after it was revoked (`no_grant_after_revocation`).
-/

namespace LlmMemory.Auth

open Effects Runs Serving

/-! ## Grants and look-ups -/

/-- The client to which an event grants something: a session of `/authorize`,
    or tokens. -/
def grantsTo : Done → Option String
  | .did _ _ (.putPending _ p) _ => some p.clientId
  | .did _ _ (.issueJwt _ clientId _) (.ok _) => some clientId
  | .did _ _ (.createRefresh _ _ clientId _) (.ok _) => some clientId
  | .answered _ (.token _) (.ok (.tokens t)) => some t.accessToken.clientId
  | _ => none

/-- The row of a client lets a request pass: as the request's handler checks it. -/
def passes : Request → OAuthClient → Bool
  | .authorize p, c => (checkClient p c).isOk
  | .token body, c =>
    if body.grantType = "authorization_code" then c.grantTypes.isSome
    else decide ("refresh_token" ∈ c.grantTypes.getD [])
  | _, _ => false

/-- The request that looks up a client, whose row lets it pass, and the client. -/
def passedBy : Done → Option (ℕ × Request × String)
  | .did id req (.getClient clientId) (.ok (some c)) =>
    if passes req c then some (id, req, clientId) else none
  | _ => none

/-- The request `req`, the `id`-th one, looked up the client, and its row let it
    pass. -/
def Passed (l : List Done) (id : ℕ) (req : Request) (clientId : String) : Prop :=
  ∃ e ∈ l, passedBy e = some (id, req, clientId)

instance (l : List Done) (id : ℕ) (req : Request) (clientId : String) :
    Decidable (Passed l id req clientId) :=
  inferInstanceAs (Decidable (∃ e ∈ l, passedBy e = some (id, req, clientId)))

/-- The client's row is marked as revoked. -/
def Db.Revoked (db : Db) (clientId : String) : Prop :=
  ∃ c ∈ db.getClient clientId, c.revokedAt ≠ none

/-- The request may still be granted something: unless it is an authorization
    request that only waits for its answer to be sent. -/
def awaits (h : Serving.Handling AuthSig Request (Except Rejection Response)) : Bool :=
  match h.req, h.prog with
  | .authorize _, .ret _ => false
  | _, _ => true

/-- A step that respects revocations: a request that looks up a revoked client
    is not let pass, and a client is not revoked while a request that its row
    let pass still awaits its grant. -/
def respectsRevocation (s : Sys) : Serving.Move Request Input World → Bool
  | .handling i .ok =>
    match s.handling[i]? with
    | some ⟨_, req, .op (.getClient clientId) _⟩ => (s.conf.state.db.getClient clientId).all fun c =>
        c.revokedAt.isNone || !passes req c
    | _ => true
  | .world (.revokeClient clientId) => s.handling.all fun h =>
      !awaits h || decide ¬Passed s.conf.trace h.id h.req clientId
  | _ => true

/-! ## Grants stand on look-ups -/

/-- An event that grants something stands on a look-up by the same request. -/
def PassedGrounds (l : List Done) (e : Done) : Prop :=
  ∀ clientId, grantsTo e = some clientId →
    ∃ id req, Passed l id req clientId ∧ ((∃ o r, e = .did id req o r) ∨ ∃ a, e = .answered id req a)

/-- The server grants nothing without looking up the client. -/
def lookup (cfg : Config) :
    Protocol AuthSig Request (Except Rejection Response) Input World AsState where
  server := server cfg
  inv c := Logs.Grounded PassedGrounds c.trace
  keeps _ _ := True

section Handlers

variable {cfg : Config} {n : ℕ} {req : Request} {clientId : String} {P : Lasting (lookup cfg)}

/-- An event on its grounds keeps the protocol. -/
theorem lookup_evolves {c : Conf} {s : AsState} {e : Done} (he : PassedGrounds c.trace e) :
    (lookup cfg).Evolves c (c.next s e) :=
  ⟨⟨[e], rfl⟩, trivial, fun h => h.snoc he⟩

/-- The operation grants nothing. -/
def Op.Grantless : Op → Prop
  | .putPending _ _ => False
  | .issueJwt _ _ _ => False
  | .createRefresh _ _ _ _ => False
  | _ => True

/-- An operation that grants nothing is free. -/
theorem Op.Grantless.free {o : Op} (ho : o.Grantless) : (lookup cfg).Free o := by
  intro n req input c r s _ _ _
  refine lookup_evolves fun clientId hg => ?_
  cases o <;> first | exact ho.elim | cases hg

/-- The request passed, for the client. -/
def passed (cfg : Config) (n : ℕ) (req : Request) (clientId : String) : Lasting (lookup cfg) :=
  ⟨fun c => Passed c.trace n req clientId,
    fun ht _ ⟨e, he, hp⟩ => ⟨e, ht.subset he, hp⟩⟩

/-- An operation that grants something to a client that the request passed for. -/
theorem grant_obeys {γ : Type} {o : Op} {k : o.Ans → Except Rejection γ}
    (ho : ∀ r x, grantsTo (.did n req o r) = some x → x = clientId) :
    Obeys (lookup cfg) n req (passed cfg n req clientId) (Attempt.call o k) fun _ =>
      passed cfg n req clientId :=
  Obeys.call fun c r s input hc _ _ => by
    have hev : (lookup cfg).Evolves c (c.next s (.did n req o r)) :=
      lookup_evolves fun x hx => ⟨n, req, ho r x hx ▸ hc.2, .inl ⟨o, r, rfl⟩⟩
    exact ⟨hev, fun _ _ => (passed cfg n req clientId).lasts hev.trace hev.keeps hc.2⟩

theorem grantless_obeys {γ : Type} {o : Op} {k : o.Ans → Except Rejection γ} (ho : o.Grantless) :
    Obeys (lookup cfg) n req P (Attempt.call o k) fun _ => P :=
  Obeys.free (.call ho.free)

/-- A row found lets the request pass. -/
theorem passed_of_found {l : List Done} {c : OAuthClient}
    (h : .did n req (.getClient clientId) (.ok (some c)) ∈ l) (hp : passes req c = true) :
    Passed l n req clientId :=
  ⟨_, h, if_pos hp⟩

/-- The row found by a look-up. -/
def foundClient (cfg : Config) (n : ℕ) (req : Request) (clientId : String) (x : OAuthClient) :
    Lasting (lookup cfg) :=
  .happened (.did n req (.getClient clientId) (.ok (some x)) : Done)

/-- A look-up finds the row it records. -/
theorem getClient_obeys : Obeys (lookup cfg) n req P (query (.getClient clientId) id) fun x =>
    .found (foundClient cfg n req clientId) x := by
  refine Obeys.post (Obeys.keep (Op.Grantless.free (o := .getClient clientId) trivial))
    fun x c h y hy => ?_
  obtain ⟨-, r, hr, hmem⟩ := h
  cases r with
  | ok z =>
    obtain rfl : z = x := Except.ok.inj hr
    subst hy
    exact hmem
  | error _ => cases hr

/-- The grant types are those of the row found. -/
theorem clientGrantTypes_obeys : Obeys (lookup cfg) n req P (clientGrantTypes clientId) fun x =>
    .found (fun grants => ⟨fun c => ∃ row, (foundClient cfg n req clientId row).holds c ∧
      row.grantTypes = some grants, fun ht hk ⟨row, hrow, hg⟩ =>
        ⟨row, (foundClient cfg n req clientId row).lasts ht hk hrow, hg⟩⟩) x := by
  refine Obeys.bind getClient_obeys fun x => ?_
  cases x with
  | none => exact Obeys.pure fun _ _ _ => nofun
  | some client =>
    dsimp only
    split
    · rename_i grants hgrants
      refine Obeys.pure fun c h grants' hg => ?_
      cases hg
      exact ⟨client, h client rfl, hgrants⟩
    · exact Obeys.fail

/-- Tokens are only issued to a client that the request passed for. -/
theorem issueTokens_obeys {userId : String} {refresh : Bool} :
    Obeys (lookup cfg) n req (passed cfg n req clientId) (issueTokens userId clientId refresh)
      fun x => ⟨fun c => ∀ t, x = .tokens t → Passed c.trace n req t.accessToken.clientId,
        fun ht hk h t hx => (passed cfg n req _).lasts ht hk (h t hx)⟩ := by
  -- the client was looked up by this request, which is when it passed
  have hjwt : Obeys (lookup cfg) n req (passed cfg n req clientId)
      (attempt (.issueJwt userId clientId ACCESS_TOKEN_TTL_SECS) id serverError) fun access =>
        (passed cfg n req clientId).and (.const (access.clientId = clientId)) := by
    refine Obeys.call fun c r s input hc _ hp => ?_
    have hev : (lookup cfg).Evolves c (c.next s (.did n req (.issueJwt userId clientId
        ACCESS_TOKEN_TTL_SECS) r)) := lookup_evolves fun x hx => by
      refine ⟨n, req, ?_, .inl ⟨_, r, rfl⟩⟩
      cases r <;> cases hx
      exact hc.2
    refine ⟨hev, fun access ha => ⟨(passed cfg n req clientId).lasts hev.trace hev.keeps hc.2, ?_⟩⟩
    obtain ⟨x, hx, he⟩ := Option.map_eq_some_iff.1 hp
    cases he
    cases input <;> cases hx <;> cases ha
    rfl
  refine Obeys.bind hjwt fun access => ?_
  cases refresh with
  | false =>
    refine Obeys.pure fun c h t ht => ?_
    cases ht
    exact h.2 ▸ h.1
  | true =>
    refine Obeys.bind (grantless_obeys (o := .newUlid) trivial) fun r => ?_
    refine Obeys.bind (grantless_obeys (o := .nowMs) trivial) fun now => ?_
    refine Obeys.assume (A := access.clientId = clientId) (fun c h => h.2) fun hclient => ?_
    refine Obeys.bind (Obeys.pre (P := passed cfg n req clientId)
      (grant_obeys fun r x hx => ?_) fun c h => h.1) fun _ => ?_
    · cases r <;> cases hx
      rfl
    · refine Obeys.pure fun c h t ht => ?_
      cases ht
      exact hclient ▸ h

theorem findOrProvision_obeys {newId provider subject schema : String} {email : Option String} :
    Obeys (lookup cfg) n req P (findOrProvision newId provider subject email schema) fun _ => P := by
  refine Obeys.bind (grantless_obeys (o := .findUser _ _) trivial) fun x => ?_
  cases x with
  | some existing => exact Obeys.pure fun _ h => h
  | none =>
    refine Obeys.bind (grantless_obeys (o := .nowMs) trivial) fun now => ?_
    refine Obeys.bind (grantless_obeys (o := .insertUser _) trivial) fun _ => ?_
    refine Obeys.bind (grantless_obeys (o := .findUser _ _) trivial) fun y => ?_
    cases y with
    | some user => exact Obeys.pure fun _ h => h
    | none => exact Obeys.fail

/-- The tokens of an answer are for a client that the request passed for. -/
def answersPassed (cfg : Config) (n : ℕ) (req : Request) (x : Response) : Lasting (lookup cfg) :=
  ⟨fun c => ∀ t, x = .tokens t → Passed c.trace n req t.accessToken.clientId,
    fun ht hk h t hx => (passed cfg n req _).lasts ht hk (h t hx)⟩

/-- `authorize` answers the client it looked up. -/
theorem authorize_obeys {p : AuthorizeParams} :
    Obeys (lookup cfg) n (.authorize p) .none (authorize p) (answersPassed cfg n (.authorize p)) := by
  refine Obeys.ret_bind fun _ _ => ?_
  refine Obeys.bind getClient_obeys fun x => ?_
  cases x with
  | none => exact Obeys.fail
  | some client =>
    refine Obeys.ret_bind fun _ hcheck => ?_
    refine Obeys.pre (P := passed cfg n (.authorize p) p.clientId) ?_ fun c h =>
      passed_of_found (h client rfl) (by rw [passes, hcheck]; rfl)
    refine Obeys.bind (grantless_obeys (o := .touchLastSeen _) trivial) fun _ => ?_
    refine Obeys.bind (grantless_obeys (o := .authorizeUrl) trivial) fun g => ?_
    refine Obeys.bind (grantless_obeys (o := .nowMs) trivial) fun now => ?_
    refine Obeys.bind (grant_obeys fun r x hx => ?_) fun _ => Obeys.pure fun _ _ _ => nofun
    cases hx
    rfl

/-- The code grant answers the client it looked up. -/
theorem grantAuthCode_obeys {body : TokenForm} (hgrant : body.grantType = "authorization_code") :
    Obeys (lookup cfg) n (.token body) .none (grantAuthCode cfg.pkgs body)
      (answersPassed cfg n (.token body)) := by
  refine required_obeys fun code _ => ?_
  refine required_obeys fun verifier _ => ?_
  refine Obeys.bind (grantless_obeys (o := .takeCode code) trivial) fun x => ?_
  cases x with
  | none => exact Obeys.fail
  | some entry =>
    refine Obeys.ret_bind fun _ _ => ?_
    refine Obeys.bind clientGrantTypes_obeys fun x => ?_
    cases x with
    | none => exact Obeys.fail
    | some grants =>
      refine Obeys.pre issueTokens_obeys fun c h => ?_
      obtain ⟨row, hrow, hg⟩ := h grants rfl
      exact passed_of_found hrow (by rw [passes, if_pos hgrant, hg]; rfl)

theorem grantRefresh_obeys {body : TokenForm} (hgrant : body.grantType = "refresh_token") :
    Obeys (lookup cfg) n (.token body) .none (grantRefresh body)
      (answersPassed cfg n (.token body)) := by
  have hne : body.grantType ≠ "authorization_code" := by rw [hgrant]; decide
  refine required_obeys fun tok _ => ?_
  refine Obeys.bind (grantless_obeys (o := .nowMs) trivial) fun now => ?_
  refine Obeys.bind (grantless_obeys (o := .validateAndRevoke _ _) trivial) fun x => ?_
  cases x with
  | none => exact Obeys.fail
  | some x =>
    refine Obeys.bind clientGrantTypes_obeys fun y => ?_
    cases y with
    | none => exact Obeys.fail
    | some grants =>
      dsimp only
      split
      · rename_i hmem
        refine Obeys.pre issueTokens_obeys fun c h => ?_
        obtain ⟨row, hrow, hg⟩ := h grants rfl
        exact passed_of_found hrow (by rw [passes, if_neg hne, hg]; exact decide_eq_true hmem)
      · exact Obeys.fail

/-- The callback grants nothing itself. -/
theorem callbackGoogle_obeys {sharedSchema : String} {cb : CallbackParams} :
    Obeys (lookup cfg) n req P (callbackGoogle sharedSchema cb) (answersPassed cfg n req) := by
  refine Obeys.bind (grantless_obeys (o := .takePending _) trivial) fun x => ?_
  cases x with
  | none => exact Obeys.fail
  | some pending =>
    refine Obeys.bind (grantless_obeys (o := .exchangeCode _ _) trivial) fun token => ?_
    refine Obeys.bind (grantless_obeys (o := .userinfo _) trivial) fun info => ?_
    refine Obeys.bind (grantless_obeys (o := .newUlid) trivial) fun newUserId => ?_
    refine Obeys.bind findOrProvision_obeys fun user => ?_
    refine Obeys.bind (grantless_obeys (o := .ensureSchema _) trivial) fun _ => ?_
    refine Obeys.bind (grantless_obeys (o := .ensureSchema _) trivial) fun _ => ?_
    refine Obeys.bind (grantless_obeys (o := .newUlid) trivial) fun code => ?_
    refine Obeys.bind (grantless_obeys (o := .nowMs) trivial) fun now => ?_
    exact Obeys.bind (grantless_obeys (o := .putCode _ _) trivial) fun _ =>
      Obeys.pure fun _ _ _ => nofun

/-- Every request is answered for the client that it looked up. -/
theorem handle_obeys : Obeys (lookup cfg) n req .none (handle cfg req) (answersPassed cfg n req) := by
  cases req with
  | register body =>
    show Obeys (lookup cfg) n _ _ (register cfg.pkgs body) _
    rw [register]
    split
    · exact Obeys.fail
    · exact Obeys.bind (grantless_obeys (o := .registerClient _ _ _ _) trivial) fun _ =>
        Obeys.pure fun _ _ _ h => by cases h
  | authorize p => exact authorize_obeys
  | callbackGoogle cb => exact callbackGoogle_obeys
  | revoke tok =>
    exact Obeys.bind (grantless_obeys (o := .nowMs) trivial) fun now =>
      Obeys.bind (grantless_obeys (o := .revoke _ _) trivial) fun _ =>
      Obeys.pure fun _ _ _ h => by cases h
  | token body =>
    show Obeys (lookup cfg) n _ _ (token cfg.pkgs body) _
    rw [token]
    split
    · rename_i hg
      exact grantAuthCode_obeys hg
    · split
      · rename_i hg
        exact grantRefresh_obeys hg
      · exact Obeys.fail

end Handlers

/-- The server keeps the protocol. -/
theorem lookup_meets {cfg : Config} : (lookup cfg).Meets fun n req =>
    OnOk (fun r => Holding (lookup cfg) (answersPassed cfg n req r)) fun _ => True where
  handle n req c hc := handle_obeys c ⟨hc, trivial⟩
  finish n req a c _ hpost := by
    refine lookup_evolves fun clientId hg => ⟨n, req, ?_, .inr ⟨a, rfl⟩⟩
    cases a with
    | error r => cases req <;> cases hg
    | ok r => cases req <;> cases r <;> first | (cases hg; done) | (cases hg; exact hpost.2 _ rfl)
  world w c s _ _ _ := lookup_evolves fun _ hg => by cases hg

/-! ## Rows of clients -/

/-- A row that an update of a column leaves in place. -/
theorem getClient_map {db : Db} {f : OAuthClient → OAuthClient} (hf : ∀ c, (f c).id = c.id)
    {clientId : String} : ({ db with clients := db.clients.map f } : Db).getClient clientId =
      (db.getClient clientId).map f := by
  simp only [Db.getClient, List.find?_map, Function.comp_def, hf]

/-- A change of the rows that keeps the `id`s. -/
theorem revoked_map {db : Db} {f : OAuthClient → OAuthClient} (hf : ∀ c, (f c).id = c.id)
    {clientId : String} : ({ db with clients := db.clients.map f } : Db).Revoked clientId ↔
      ∃ c ∈ db.getClient clientId, (f c).revokedAt ≠ none := by
  rw [Db.Revoked, getClient_map hf]
  simp

/-- A look-up of a user leaves the clients. -/
theorem revoked_touchLastSeen {db : Db} {id clientId : String} {now : Int} :
    (db.touchLastSeen id now).Revoked clientId ↔ db.Revoked clientId := by
  refine (revoked_map fun c => ?_).trans (exists_congr fun c => and_congr_right fun _ => ?_)
  · split <;> rfl
  · split <;> rfl

/-- Only the client revoked becomes revoked. -/
theorem revoked_revokeClient {db : Db} {id clientId : String} {now : Int} :
    (db.revokeClient id now).Revoked clientId → db.Revoked clientId ∨ clientId = id := by
  intro h
  obtain ⟨c, hc, hr⟩ := (revoked_map fun c => by split <;> rfl).1 h
  split at hr
  · rename_i hid
    have hfound : c.id = clientId := by simpa using List.find?_some hc
    exact .inr (hfound.symm.trans hid)
  · exact .inl ⟨c, hc, hr⟩

/-- A revoked client stays so, whoever is revoked. -/
theorem Db.Revoked.revokeClient {db : Db} {id clientId : String} {now : Int}
    (h : db.Revoked clientId) : (db.revokeClient id now).Revoked clientId := by
  obtain ⟨c, hc, hr⟩ := h
  refine (revoked_map fun c => by split <;> rfl).2 ⟨c, hc, ?_⟩
  split
  · exact Option.some_ne_none _
  · exact hr

/-- A client is inserted unrevoked. -/
theorem revoked_insertClient {db db' : Db} {c : OAuthClient} {clientId : String}
    (hc : c.revokedAt = none) (h : db.insertClient c = some db') :
    db'.Revoked clientId ↔ db.Revoked clientId := by
  rw [Db.insertClient] at h
  split at h
  · cases h
  · cases h
    simp only [Db.Revoked, Db.getClient, List.find?_append]
    cases hf : db.clients.find? fun c => c.id = clientId with
    | some c' => simp
    | none =>
      simp only [Option.none_or, List.find?_singleton]
      split <;> simp [hc]

/-- The operations of the handlers neither revoke clients nor restore them. -/
theorem revoked_perform {pkgs : Packages} {n : ℕ} {req : Request} {input : Input} {o : Op}
    {s s' : AsState} {r : o.Ans} {clientId : String}
    (h : perform pkgs n req input o s = some (r, s')) :
    s'.db.Revoked clientId ↔ s.db.Revoked clientId := by
  have hsame : ∀ {db : Db}, db.clients = s.db.clients →
      (db.Revoked clientId ↔ s.db.Revoked clientId) := fun hc => by
    simp only [Db.Revoked, Db.getClient, hc]
  have hdb := dbStep_perform h
  generalize s'.db = db' at hdb
  cases hdb with
  | same hw => exact Iff.rfl
  | registerClient hc hins => exact revoked_insertClient hc hins
  | touchLastSeen => exact revoked_touchLastSeen
  | insertUser hins => exact hsame (Db.insertUser_clients hins)
  | createRefresh hins => exact hsame (Db.insertToken_clients hins)
  | validateAndRevoke hx => exact hsame Db.validateAndRevoke_clients
  | revoke => exact hsame rfl

/-- A look-up that finds a row finds the one in the table. -/
theorem getClient_perform {pkgs : Packages} {n : ℕ} {req : Request} {input : Input}
    {s s' : AsState} {clientId : String} {c : OAuthClient}
    (h : perform pkgs n req input (.getClient clientId) s = some (.ok (some c), s')) :
    s.db.getClient clientId = some c ∧ input = .ok := by
  obtain ⟨x, hx, he⟩ := Option.map_eq_some_iff.1 h
  cases he
  cases input with
  | ok => exact ⟨Except.ok.inj (Option.some.inj hx), rfl⟩
  | _ => cases hx

/-! ## Runs that respect revocations -/

section Runs

variable {cfg : Config} {s s' : Sys} {m : Serving.Move Request Input World} {clientId : String}

/-- No request in flight awaits a grant to a revoked client. -/
def Settled (s : Sys) : Prop :=
  ∀ h ∈ s.handling, awaits h = true → ∀ clientId, Passed s.conf.trace h.id h.req clientId →
    ¬s.conf.state.db.Revoked clientId

theorem passed_snoc {l : List Done} {e : Done} {id : ℕ} {req : Request} :
    Passed (l ++ [e]) id req clientId ↔
      Passed l id req clientId ∨ passedBy e = some (id, req, clientId) := by
  simp [Passed, or_and_right, exists_or]

/-- What passes is a row found by a look-up. -/
theorem passedBy_eq_some {e : Done} {id : ℕ} {req : Request}
    (h : passedBy e = some (id, req, clientId)) :
    ∃ c, e = .did id req (.getClient clientId) (.ok (some c)) ∧ passes req c = true := by
  cases e with
  | did id' req' o r =>
    cases o with
    | getClient clientId' =>
      cases r with
      | error _ => cases h
      | ok x =>
        cases x with
        | none => cases h
        | some c =>
          simp only [passedBy] at h
          split at h
          · rename_i hp
            cases h
            exact ⟨c, rfl, hp⟩
          · cases h
    | _ => cases h
  | _ => cases h

/-- A settled revocation stays settled. -/
theorem Settled.step (h : Settled s) (hnum : Server.Numbered s)
    (hm : respectsRevocation s m = true) (hst : (server cfg).step s m = some s') : Settled s' := by
  cases m with
  | request req =>
    cases hst
    intro h' hh haw clientId hpass
    rcases List.mem_append.1 hh with hh | hh
    · exact h h' hh haw clientId hpass
    · -- a request that just came in has looked up nothing
      rw [List.mem_singleton.1 hh] at hpass
      obtain ⟨e, he, hp⟩ := hpass
      obtain ⟨c, rfl, -⟩ := passedBy_eq_some hp
      exact absurd (hnum.did _ _ _ _ he) (Nat.lt_irrefl _)
  | drop i =>
    obtain rfl := Server.step_drop_eq (fun _ _ _ => rfl) hst
    exact fun h' hh => h h' (List.mem_of_mem_eraseIdx hh)
  | world w =>
    cases hst
    intro h' hh haw clientId hpass hrev
    have hold : Passed s.conf.trace h'.id h'.req clientId :=
      (passed_snoc.1 hpass).resolve_right nofun
    cases w with
    | tick dt => exact h h' hh haw clientId hold hrev
    | revokeClient id =>
      rcases revoked_revokeClient hrev with hrev | rfl
      · exact h h' hh haw clientId hold hrev
      -- a client that a request in flight has passed for is not revoked in between
      · have hno := List.all_eq_true.1 hm h' hh
        simp only [haw, Bool.not_true, Bool.false_or, decide_eq_true_eq] at hno
        exact hno hold
  | handling i input =>
    rcases Server.step_handling hst with ⟨n, req, a, hi, rfl⟩ | ⟨n, req, o, k, r, st, hi, hp, rfl⟩
    · intro h' hh haw clientId hpass
      exact h h' (List.mem_of_mem_eraseIdx hh) haw clientId ((passed_snoc.1 hpass).resolve_right nofun)
    · replace hp : perform cfg.pkgs n req input o s.conf.state = some (r, st) := hp
      intro h' hh haw clientId hpass hrev
      have hbefore : s.conf.state.db.Revoked clientId := (revoked_perform hp).1 hrev
      rcases passed_snoc.1 hpass with hpass | hpass
      · rcases List.mem_or_eq_of_mem_set hh with hh | rfl
        · exact h h' hh haw clientId hpass hbefore
        · exact h _ (List.mem_of_getElem? hi) (by cases req <;> rfl) clientId hpass hbefore
      · -- the request looks up the client, whose row lets it pass, and is not revoked
        obtain ⟨row, he, hpasses⟩ := passedBy_eq_some hpass
        cases he
        obtain ⟨hrow, rfl⟩ := getClient_perform hp
        obtain ⟨row', hrow', hr⟩ := hbefore
        obtain rfl : row = row' := Option.some.inj (hrow.symm.trans (Option.mem_def.1 hrow'))
        simp only [respectsRevocation, hi, hrow, Option.all_some, hpasses, Bool.not_true,
          Bool.or_false, Option.isNone_iff_eq_none] at hm
        exact hr hm

/-- Every system reached by steps that respect revocations is settled. -/
theorem settled (h : Reached cfg (fun _ => True) (fun s m => respectsRevocation s m = true) s) :
    Settled s :=
  h.invariant (fun s hs => by
    obtain ⟨st, -, rfl⟩ := hs
    exact fun _ hh => absurd hh List.not_mem_nil)
    fun s m s' hr hs hm hst => hs.step (Server.numbered hr) hm hst

/-- A client that is revoked stays so. -/
theorem Db.Revoked.step (h : s.conf.state.db.Revoked clientId)
    (hst : (server cfg).step s m = some s') : s'.conf.state.db.Revoked clientId := by
  cases m with
  | request req => cases hst; exact h
  | drop i =>
    obtain rfl := Server.step_drop_eq (fun _ _ _ => rfl) hst
    exact h
  | world w =>
    cases hst
    cases w with
    | tick dt => exact h
    | revokeClient id => exact h.revokeClient
  | handling i input =>
    rcases Server.step_handling hst with ⟨n, req, a, hi, rfl⟩ | ⟨n, req, o, k, r, st, hi, hp, rfl⟩
    · exact h
    · exact (revoked_perform hp).2 h

/-- In every system reached, the look-ups ground the grants. -/
theorem lookup_inv {ok : Sys → Serving.Move Request Input World → Prop}
    (h : Reached cfg (fun _ => True) ok s) : Logs.Grounded PassedGrounds s.conf.trace :=
  (lookup_meets.sound (K := lookup cfg) (fun _ _ => Logs.Grounded.nil) (fun s m _ => by
    cases m with
    | handling i input => exact fun _ _ _ _ _ => trivial
    | _ => trivial) h).inv

/-- A step grants nothing to a client that is revoked. -/
theorem not_revoked_of_grant (h : Settled s) (hst : (server cfg).step s m = some s')
    (hgrounded : Logs.Grounded PassedGrounds s'.conf.trace) {e : Done}
    (he : s'.conf.trace = s.conf.trace ++ [e]) (hg : grantsTo e = some clientId) :
    ¬s.conf.state.db.Revoked clientId := by
  obtain ⟨id, req, hpass, hby⟩ := hgrounded s.conf.trace e [] he clientId hg
  cases m with
  | request req => cases hst; simp at he
  | drop i =>
    obtain rfl := Server.step_drop_eq (fun _ _ _ => rfl) hst
    simp at he
  | world w =>
    cases hst
    obtain rfl : .world w = e := by simpa using he
    cases hg
  | handling i input =>
    rcases Server.step_handling hst with ⟨n, req', a, hi, rfl⟩ | ⟨n, req', o, k, r, st, hi, -, rfl⟩
    · obtain rfl : .answered n req' a = e := by simpa using he
      obtain ⟨_, _, h'⟩ | ⟨_, h'⟩ := hby <;> cases h'
      -- only a token request is answered with a grant
      refine h _ (List.mem_of_getElem? hi) ?_ clientId hpass
      cases req with
      | token body => rfl
      | _ => cases hg
    · obtain rfl : .did n req' o r = e := by simpa using he
      obtain ⟨_, _, h'⟩ | ⟨_, h'⟩ := hby <;> cases h'
      exact h _ (List.mem_of_getElem? hi) (by cases req <;> rfl) clientId hpass

/-- In a run whose steps respect revocations, a client that is revoked is never
    granted a session or tokens again. -/
theorem no_grant_after_revocation {s s₁ s₂ : Sys} {m : Serving.Move Request Input World}
    (h : Reached cfg (fun _ => True) (fun s m => respectsRevocation s m = true) s)
    (hrev : s.conf.state.db.Revoked clientId)
    (hrun : Reach (· = s) (server cfg).step (fun s m => respectsRevocation s m = true) s₁)
    (hm : respectsRevocation s₁ m = true) (hst : (server cfg).step s₁ m = some s₂) {e : Done}
    (he : s₂.conf.trace = s₁.conf.trace ++ [e]) : grantsTo e ≠ some clientId := by
  intro hg
  have hr₁ := h.append hrun
  have hrev₁ : s₁.conf.state.db.Revoked clientId :=
    hrun.invariant (fun s' hs' => hs' ▸ hrev) fun _ _ _ _ hrev _ hst => hrev.step hst
  exact not_revoked_of_grant (settled hr₁) hst (lookup_inv (hr₁.step hm hst)) he hg hrev₁

/-! ### Two clients, of which one is revoked -/

/-- A client registers, and is revoked. -/
def registeredAndRevoked : List (Serving.Move Request Input World) :=
  [.request (.register ⟨["https://app.example.com/cb"], ["authorization_code"], none, none⟩),
    .handling 0 (.text "c1"), .handling 0 .ok, .world (.revokeClient "c1")]

/-- A client goes through an authorization request, up to its session. -/
def authorization (clientId : String) : List (Serving.Move Request Input World) :=
  [.request (.authorize ⟨"code", clientId, "https://app.example.com/cb", sampleChallenge, "S256",
      none⟩),
    .handling 0 .ok, .handling 0 .ok,
    .handling 0 (.google ⟨"https://accounts.google.com/o/oauth2/v2/auth", "csrf", "secret"⟩),
    .handling 0 .ok]

/-- Another client registers, and is authorized. -/
def otherAuthorization : List (Serving.Move Request Input World) :=
  [.request (.register ⟨["https://app.example.com/cb"], ["authorization_code"], none, none⟩),
    .handling 0 (.text "c2"), .handling 0 .ok] ++ authorization "c2"

/-- The server with empty tables. -/
def sampleStart : Sys := .start { now := 1000000, db := ⟨[], [], []⟩ }

theorem reached_sampleStart {ok : Sys → Serving.Move Request Input World → Prop} :
    Reached .sample (fun _ => True) ok sampleStart :=
  .init ⟨_, ⟨trivial, rfl, rfl⟩, rfl⟩

/-- The client that the step of a request in flight grants something to. -/
def stepGrant (s : Sys) (i : ℕ) (input : Input) : Option String :=
  ((server .sample).step s (.handling i input)).bind fun s' =>
    s'.conf.trace.getLast?.bind grantsTo

/-- A step that grants is a step that records a grant. -/
theorem stepGrant_some {i : ℕ} {input : Input} (h : stepGrant s i input = some clientId) :
    ∃ s' e, (server .sample).step s (.handling i input) = some s' ∧
      s'.conf.trace = s.conf.trace ++ [e] ∧ grantsTo e = some clientId := by
  obtain ⟨s', hst, h⟩ := Option.bind_eq_some_iff.1 h
  obtain ⟨e, hlast, hg⟩ := Option.bind_eq_some_iff.1 h
  refine ⟨s', e, hst, ?_, hg⟩
  rcases Server.step_handling hst with ⟨n, req, a, -, rfl⟩ | ⟨n, req, o, k, r, st, -, -, rfl⟩ <;>
    simp_all

theorem revoked_of_any {db : Db} (h : (db.getClient clientId).any (·.revokedAt.isSome) = true) :
    db.Revoked clientId := by
  obtain ⟨c, hc, hr⟩ := (Option.any_eq_true _ _).1 h
  exact ⟨c, hc, fun hn => by simp [hn] at hr⟩

/-- A run in which `c1` is revoked at `s`, and that goes on as `ls` say, up to a
    step that grants something to `clientId`. -/
theorem run_to_grant (okb : Sys → Serving.Move Request Input World → Bool)
    (ls : List (Serving.Move Request Input World)) (clientId : String)
    (h : ((exec (server .sample).step okb sampleStart registeredAndRevoked).bind fun s =>
      if (s.conf.state.db.getClient "c1").any (·.revokedAt.isSome) then
        (exec (server .sample).step okb s ls).bind fun s₁ =>
          if okb s₁ (.handling 0 (.text "")) then stepGrant s₁ 0 (.text "") else none
      else none) = some clientId) :
    ∃ s s₁ s₂ e, Reached .sample (fun _ => True) (fun s m => okb s m = true) s ∧
      s.conf.state.db.Revoked "c1" ∧
      Reach (· = s) (server .sample).step (fun s m => okb s m = true) s₁ ∧
      okb s₁ (.handling 0 (.text "")) = true ∧
      (server .sample).step s₁ (.handling 0 (.text "")) = some s₂ ∧
      s₂.conf.trace = s₁.conf.trace ++ [e] ∧ grantsTo e = some clientId := by
  obtain ⟨s, hs, h⟩ := Option.bind_eq_some_iff.1 h
  split at h
  · rename_i hrev
    obtain ⟨s₁, hs₁, h⟩ := Option.bind_eq_some_iff.1 h
    split at h
    · rename_i hm
      obtain ⟨s₂, e, hst, he, hg⟩ := stepGrant_some h
      exact ⟨s, s₁, s₂, e, .exec (fun _ _ h => h) reached_sampleStart hs, revoked_of_any hrev,
        .exec (fun _ _ h => h) (.init rfl) hs₁, hm, hst, he, hg⟩
    · cases h
  · cases h

/-- Once `c1` is revoked, `c2` is granted still. -/
theorem no_grant_after_revocation_other : ∃ s s₂ e,
    s.conf.state.db.Revoked "c1" ∧ e ∈ (s₂ : Sys).conf.trace ∧ grantsTo e = some "c2" ∧
    grantsTo e ≠ some "c1" ∧ Reach (· = s) (server .sample).step (fun _ _ => True) s₂ := by
  obtain ⟨s, s₁, s₂, e, hr, hrev, hrun, hm, hst, he, hg⟩ :=
    run_to_grant respectsRevocation otherAuthorization "c2" (by decide)
  exact ⟨s, s₂, e, hrev, he ▸ by simp, hg, no_grant_after_revocation hr hrev hrun hm hst he,
    (hrun.mono fun _ _ _ _ _ _ => trivial).step trivial hst⟩

/-- A revoked client is granted a session. -/
theorem revoked_client_authorized : ∃ s s₁ s₂ m e,
    Reached .sample (fun _ => True) (fun _ _ => True) s ∧ s.conf.state.db.Revoked "c1" ∧
    Reach (· = s) (server .sample).step (fun _ _ => True) s₁ ∧
    (server .sample).step s₁ m = some s₂ ∧ s₂.conf.trace = s₁.conf.trace ++ [e] ∧
    grantsTo e = some "c1" := by
  obtain ⟨s, s₁, s₂, e, hr, hrev, hrun, -, hst, he, hg⟩ :=
    run_to_grant (fun _ _ => true) (authorization "c1") "c1" (by decide)
  exact ⟨s, s₁, s₂, _, e, hr.mono fun _ _ _ _ _ _ => trivial, hrev,
    hrun.mono fun _ _ _ _ _ _ => trivial, hst, he, hg⟩

end Runs

end LlmMemory.Auth
