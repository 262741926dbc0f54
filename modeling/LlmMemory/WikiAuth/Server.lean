import LlmMemory.Auth.Server
import LlmMemory.Lib.Serving

/-!
# The authorization server of the wiki

The authorization server of the wiki (the crate `llm-memory-auth`) is a fork of
the one in `LlmMemory.Auth.Server`, and takes the same requests. Its handlers
differ: users have no schema and are upserted, errors of a query of a client,
or in its columns of JSON, count as an unknown client and as empty lists, and
the token endpoint only checks the parameters that a request presents
(`checkCode`).

What it shares with the other is taken from there: requests and answers, the
tables of clients and tokens, the session maps, the registration of clients.
-/

namespace LlmMemory.WikiAuth

open Effects Auth

/-! ## Tables -/

/-- The row of a user. -/
structure User where
  id : String
  provider : String
  subject : String
  email : Option String
  createdAt : Int
  deriving DecidableEq, Repr

/-- The tables. -/
structure Db where
  clients : List OAuthClient
  users : List User
  tokens : List Auth.Token
  deriving DecidableEq, Repr

namespace Db

/-- Insert a client; `id` is the primary key. -/
def insertClient (db : Db) (c : OAuthClient) : Option Db :=
  if ∃ c' ∈ db.clients, c'.id = c.id then none else some { db with clients := db.clients ++ [c] }

/-- The client of an id. -/
def getClient (db : Db) (id : String) : Option OAuthClient := db.clients.find? fun c => c.id = id

/-- A client was seen now. -/
def touchLastSeen (db : Db) (id : String) (now : Int) : Db :=
  { db with clients := db.clients.map fun c =>
      if c.id = id then { c with lastSeenAt := some now } else c }

/-- Insert a user, or update the email of the one of its provider and subject;
    `id` is the primary key. -/
def upsertUser (db : Db) (u : User) : Option Db :=
  if ∃ u' ∈ db.users, u'.provider = u.provider ∧ u'.subject = u.subject then
    some { db with users := db.users.map fun u' =>
      if u'.provider = u.provider ∧ u'.subject = u.subject then { u' with email := u.email }
      else u' }
  else if ∃ u' ∈ db.users, u'.id = u.id then none
  else some { db with users := db.users ++ [u] }

/-- The user of a provider and a subject. -/
def findUser (db : Db) (provider subject : String) : Option User :=
  db.users.find? fun u => u.provider = provider ∧ u.subject = subject

/-- Insert a refresh token, whose hash is the primary key, and which refers to
    a user and a client. -/
def insertToken (db : Db) (t : Auth.Token) : Option Db :=
  if (∃ t' ∈ db.tokens, t'.refreshTokenHash = t.refreshTokenHash) ∨
      (∀ u ∈ db.users, u.id ≠ t.userId) ∨ (∀ c ∈ db.clients, c.id ≠ t.clientId) then none
  else some { db with tokens := db.tokens ++ [t] }

/-- The refresh tokens of a hash are revoked now. -/
def revoke (db : Db) (hash : List UInt8) (now : Int) : Db :=
  { db with tokens := db.tokens.map fun t =>
      if t.refreshTokenHash = hash then { t with revokedAt := some now } else t }

/-- Revoke the refresh token of a hash, if it is valid, and give its user and
    its client. -/
def validateAndRevoke (db : Db) (hash : List UInt8) (now : Int) :
    Option (String × String) × Db :=
  match db.tokens.find? fun t =>
      t.refreshTokenHash = hash ∧ t.revokedAt = none ∧ now < t.expiresAt with
  | some t => (some (t.userId, t.clientId), db.revoke hash now)
  | none => (none, db)

end Db

/-! ## Operations -/

/-- What the handlers do outside of themselves: they read the clock, draw ids, query the
    tables, put and take sessions and codes, ask Google, and sign tokens. -/
inductive Op
  | nowMs
  | newUlid
  | registerClient (redirectUris grantTypes : List String) (authMethod : String)
      (clientName : Option String)
  | getClient (id : String)
  | touchLastSeen (id : String)
  | authorizeUrl
  | putPending (key : String) (p : PendingAuth)
  | takePending (key : String)
  | exchangeCode (code verifier : String)
  | userinfo (accessToken : String)
  | upsertUser (u : User)
  | findUser (provider subject : String)
  | putCode (key : String) (c : AuthCode)
  | takeCode (key : String)
  | issueJwt (userId clientId : String) (ttlSeconds : Int)
  | createRefresh (token userId clientId : String) (expiresAt : Int)
  | validateAndRevoke (token : String) (now : Int)
  | revoke (token : String) (now : Int)

/-- What an operation answers; a call to Google that fails answers the text of
    its error. -/
def Op.Ans : Op → Type
  | .nowMs => Int
  | .newUlid => String
  | .registerClient _ _ _ _ => Except StorageError OAuthClient
  | .getClient _ => Except StorageError (Option OAuthClient)
  | .touchLastSeen _ => Except StorageError Unit
  | .authorizeUrl => GoogleAuthorize
  | .putPending _ _ => Unit
  | .takePending _ => Option PendingAuth
  | .exchangeCode _ _ => Except String String
  | .userinfo _ => Except String GoogleUserInfo
  | .upsertUser _ => Except StorageError Unit
  | .findUser _ _ => Except StorageError (Option User)
  | .putCode _ _ => Unit
  | .takeCode _ => Option AuthCode
  | .issueJwt _ _ _ => Except Unit Claims
  | .createRefresh _ _ _ _ => Except StorageError Unit
  | .validateAndRevoke _ _ => Except StorageError (Option (String × String))
  | .revoke _ _ => Except StorageError Unit

/-- What the handlers share: the clock, the tables, and the sessions. -/
structure AsState where
  now : Int
  db : Db
  sessions : InMemorySessions := {}

namespace AsState

/-- The map of the sessions is replaced. -/
def setPending (s : AsState) (m : List (String × PendingAuth)) : AsState :=
  { s with sessions := { s.sessions with pending := m } }

/-- The map of the codes is replaced. -/
def setCodes (s : AsState) (m : List (String × AuthCode)) : AsState :=
  { s with sessions := { s.sessions with codes := m } }

end AsState

/-- How an operation comes out: as in `Auth.Input`, with the text of the error
    of a call to Google. -/
inductive Input
  | of (input : Auth.Input)
  | error (text : String)
  deriving DecidableEq, Repr

/-- The answer of a query that may fail. -/
def answer {α ε : Type} (a : α) (e : ε) : Input → Option (Except ε α)
  | .of input => Auth.answer a e input
  | .error _ => none

/-- The answer of a write, and the state after it, if the constraints of the
    tables allow it. -/
def write (s : AsState) (db : Option Db) : Input → Option (Except StorageError Unit × AsState)
  | .of .ok => match db with
    | some db => some (.ok (), { s with db := db })
    | none => some (.error .sqlx, s)
  | .of .fail => some (.error .sqlx, s)
  | _ => none

/-- The answer of an operation, and the state after it. -/
def perform (pkgs : Packages) (input : Input) : (o : Op) → AsState → Option (o.Ans × AsState)
  | .nowMs, s => some (s.now, s)
  | .newUlid, s =>
    match input with
    | .of (.text ulid) => some (ulid, s)
    | _ => none
  | .registerClient uris grants authMethod clientName, s =>
    match input with
    | .of (.text ulid) =>
      let c : OAuthClient := ⟨ulid, some uris, some grants, authMethod, clientName, s.now, none, none⟩
      match s.db.insertClient c with
      | some db => some (.ok c, { s with db := db })
      | none => some (.error .sqlx, s)
    | .of .fail => some (.error .sqlx, s)
    | _ => none
  | .getClient clientId, s => (answer (s.db.getClient clientId) .sqlx input).map (·, s)
  | .touchLastSeen clientId, s => write s (some (s.db.touchLastSeen clientId s.now)) input
  | .authorizeUrl, s =>
    match input with
    | .of (.google g) => some (g, s)
    | _ => none
  | .putPending key p, s =>
    match input with
    | .of (.text victim) =>
      (ExpiringMap.put PendingAuth.expiresAtMs MAX_PENDING_AUTHS victim s.now key p
        s.sessions.pending).map fun m => ((), s.setPending m)
    | _ => none
  | .takePending key, s =>
    let (p, m) := ExpiringMap.take PendingAuth.expiresAtMs s.now key s.sessions.pending
    some (p, s.setPending m)
  | .exchangeCode _ _, s =>
    match input with
    | .of (.text token) => some (.ok token, s)
    | .error e => some (.error e, s)
    | _ => none
  | .userinfo _, s =>
    match input with
    | .of (.info i) => some (.ok i, s)
    | .error e => some (.error e, s)
    | _ => none
  | .upsertUser u, s => write s (s.db.upsertUser u) input
  | .findUser provider subject, s => (answer (s.db.findUser provider subject) .sqlx input).map (·, s)
  | .putCode key c, s =>
    match input with
    | .of (.text victim) =>
      (ExpiringMap.put AuthCode.expiresAtMs MAX_AUTH_CODES victim s.now key c
        s.sessions.codes).map fun m => ((), s.setCodes m)
    | _ => none
  | .takeCode key, s =>
    let (c, m) := ExpiringMap.take AuthCode.expiresAtMs s.now key s.sessions.codes
    some (c, s.setCodes m)
  | .issueJwt userId clientId ttlSeconds, s =>
    (answer ⟨userId, clientId, s.now / 1000, s.now / 1000 + ttlSeconds⟩ () input).map (·, s)
  | .createRefresh token userId clientId expiresAt, s =>
    write s (s.db.insertToken ⟨pkgs.sha256 token, userId, clientId, expiresAt, none⟩) input
  | .validateAndRevoke token now, s =>
    match input with
    | .of .ok =>
      let (x, db) := s.db.validateAndRevoke (pkgs.sha256 token) now
      some (.ok x, { s with db := db })
    | .of .fail => some (.error .sqlx, s)
    | _ => none
  | .revoke token now, s => write s (some (s.db.revoke (pkgs.sha256 token) now)) input

/-! ## Handlers -/

/-- The operations of the handlers, which start no tasks. -/
abbrev WikiSig : Sig := ⟨Op, Op.Ans, Empty⟩

/-- A program of the handling of a request, which an answer that rejects the
    request ends. -/
abbrev Handler (α : Type) : Type := Attempt WikiSig Rejection α

/-- The request is rejected. -/
def reject {α : Type} (r : Rejection) : Handler α := Prog.ret (.error r)

/-- A check, which rejects the request if it fails. -/
def ofExcept {α : Type} (x : Except Rejection α) : Handler α := Prog.ret x

/-- A parameter that the request must have. -/
def required {α : Type} (x : Option α) (r : Rejection) : Handler α :=
  ofExcept (x.elim (.error r) .ok)

/-- An operation that does not fail. -/
def perf (o : Op) : Handler o.Ans := Attempt.call o .ok

/-- An operation, a failure of which rejects the request. -/
def attempt {α ε : Type} (o : Op) (result : o.Ans → Except ε α) (r : ε → Rejection) : Handler α :=
  Attempt.call o fun x => (result x).mapError r

/-- A query, an error of which is an error of the server. -/
def query {α : Type} (o : Op) (result : o.Ans → Except StorageError α) : Handler α :=
  attempt o result fun _ => serverError

/-- What a query found, an error of it counting as nothing. -/
def found {ε α : Type} : Except ε (Option α) → Option α
  | .ok x => x
  | .error _ => none

/-- Register a client, if its metadata are accepted. -/
def register (pkgs : Packages) (body : Dcr.DcrRequest) : Handler Response :=
  match Dcr.validate pkgs body with
  | .error e => reject (badRequest "invalid_client_metadata" e)
  | .ok resp => do
    let client ← query (.registerClient resp.redirectUris resp.grantTypes
      resp.tokenEndpointAuthMethod resp.clientName) id
    pure (.created { resp with clientId := client.id })

/-- The check of the parameters against the client registered. -/
def checkClient (p : AuthorizeParams) (client : OAuthClient) : Except Rejection Unit :=
  if p.redirectUri ∉ client.redirectUris.getD [] then
    .error (badRequest "invalid_request" "redirect_uri not registered")
  else if "authorization_code" ∉ client.grantTypes.getD [] then
    .error (badRequest "unauthorized_client" "client did not register the authorization_code grant")
  else .ok ()

/-- Start an authorization: its session is put, and the browser is sent to Google. -/
def authorize (p : AuthorizeParams) : Handler Response := do
  let _ ← ofExcept (checkParams p)
  match found (← perf (.getClient p.clientId)) with
  | none => reject (badRequest "invalid_client" "unknown client_id")
  | some client =>
    let _ ← ofExcept (checkClient p client)
    -- a failure here is ignored
    let _ ← perf (.touchLastSeen p.clientId)
    let g ← perf .authorizeUrl
    let now ← perf .nowMs
    let _ ← perf (.putPending g.csrf (pendingOf p g now))
    pure (.redirect g.url)

/-- The user of a provider and a subject, inserted if there is none. -/
def upsert (newId provider subject : String) (email : Option String) : Handler User := do
  let now ← perf .nowMs
  let _ ← query (.upsertUser ⟨newId, provider, subject, email, now⟩) id
  match ← query (.findUser provider subject) id with
  | some user => pure user
  | none => reject serverError

/-- The code issued for a session and a user. -/
def codeOf (pending : PendingAuth) (user : User) (now : Int) : AuthCode where
  userId := user.id
  clientId := pending.clientId
  redirectUri := pending.redirectUri
  codeChallenge := pending.codeChallenge
  codeChallengeMethod := pending.codeChallengeMethod
  expiresAtMs := now + AUTH_CODE_TTL_SECS * 1000

/-- The hexadecimal digits of a number, at least two of them. -/
def hex (n : ℕ) : List Char :=
  let ds := (Nat.toDigits 16 n).map Char.toUpper
  if ds.length < 2 then '0' :: ds else ds

/-- Percent encoding, of the number of each character. -/
def urlencoding (s : String) : String :=
  String.ofList (s.toList.flatMap fun c => if unreserved c then [c] else '%' :: hex c.toNat)

/-- The URL to redirect the client to, with its code and its state. -/
def redirectUrl (pending : PendingAuth) (code : String) : String :=
  let sep := if '?' ∈ pending.redirectUri.toList then "&" else "?"
  let url := pending.redirectUri ++ sep ++ "code=" ++ code
  match pending.clientState with
  | some clientState => url ++ "&state=" ++ urlencoding clientState
  | none => url

/-- Google sends the browser back: the session is taken, the user is found or inserted, and
    a code is put for the client. -/
def callbackGoogle (p : CallbackParams) : Handler Response := do
  match ← perf (.takePending p.state) with
  | none => reject (badRequest "invalid_state" "no matching session")
  | some pending =>
    let accessToken ← attempt (.exchangeCode p.code pending.googleVerifierSecret) id
      (badRequest "google_exchange_failed")
    let info ← attempt (.userinfo accessToken) id (badRequest "google_userinfo_failed")
    let userId ← perf .newUlid
    let user ← upsert userId "google" info.sub info.email
    let code ← perf .newUlid
    let now ← perf .nowMs
    let _ ← perf (.putCode code (codeOf pending user now))
    pure (.redirect (redirectUrl pending code))

/-- The grants of a client, if it is found. -/
def clientGrantTypes (clientId : String) : Handler (Option (List String)) := do
  let client ← perf (.getClient clientId)
  pure ((found client).map fun c => c.grantTypes.getD [])

/-- Issue an access token, and a refresh token if the client may have one. -/
def issueTokens (userId clientId : String) (includeRefresh : Bool) : Handler Response := do
  let access ← attempt (.issueJwt userId clientId ACCESS_TOKEN_TTL_SECS) id fun _ => serverError
  if includeRefresh then do
    let r ← perf .newUlid
    let now ← perf .nowMs
    let _ ← query (.createRefresh r userId clientId (refreshExpiry now)) id
    pure (.tokens ⟨access, "Bearer", ACCESS_TOKEN_TTL_SECS, some r⟩)
  else pure (.tokens ⟨access, "Bearer", ACCESS_TOKEN_TTL_SECS, none⟩)

/-- A parameter of a token request, checked only if it is presented. -/
def checkPresented (bound : String) (presented : Option String) (description : String) :
    Except Rejection Unit :=
  match presented with
  | some x => if x ≠ bound then .error (badRequest "invalid_grant" description) else .ok ()
  | none => .ok ()

/-- The check of a token request against the code it presented. -/
def checkCode (pkgs : Packages) (body : TokenForm) (verifier : String) (entry : AuthCode) :
    Except Rejection Unit := do
  if pkgs.challenge verifier ≠ entry.codeChallenge then
    throw (badRequest "invalid_grant" "PKCE verifier mismatch")
  checkPresented entry.clientId body.clientId "client_id mismatch"
  checkPresented entry.redirectUri body.redirectUri "redirect_uri mismatch"

/-- Exchange a code for tokens. It is taken before the request is checked against it. -/
def grantAuthCode (pkgs : Packages) (body : TokenForm) : Handler Response := do
  let code ← required body.code (badRequest "invalid_request" "code required")
  let verifier ← required body.codeVerifier
    (badRequest "invalid_request" "code_verifier required (PKCE)")
  match ← perf (.takeCode code) with
  | none => reject (badRequest "invalid_grant" "code unknown or expired")
  | some entry =>
    -- from here on the code is gone, whatever comes of the request
    let _ ← ofExcept (checkCode pkgs body verifier entry)
    match ← clientGrantTypes entry.clientId with
    | none => reject (badRequest "invalid_client" "unknown client_id")
    | some grants => issueTokens entry.userId entry.clientId ("refresh_token" ∈ grants)

/-- Exchange a refresh token for new ones. -/
def grantRefresh (body : TokenForm) : Handler Response := do
  let tok ← required body.refreshToken (badRequest "invalid_request" "refresh_token required")
  let now ← perf .nowMs
  match ← query (.validateAndRevoke tok now) id with
  | none => reject (badRequest "invalid_grant" "refresh_token unknown or expired")
  | some (userId, clientId) =>
    match ← clientGrantTypes clientId with
    | none => reject (badRequest "invalid_client" "unknown client_id")
    | some grants =>
      if "refresh_token" ∈ grants then issueTokens userId clientId true
      else reject (badRequest "unauthorized_client"
        "client did not register the refresh_token grant")

/-- Give tokens for one of the two grants. -/
def token (pkgs : Packages) (body : TokenForm) : Handler Response :=
  if body.grantType = "authorization_code" then grantAuthCode pkgs body
  else if body.grantType = "refresh_token" then grantRefresh body
  else reject (badRequest "unsupported_grant_type" "only authorization_code or refresh_token")

/-- Revoke a refresh token. -/
def revoke (tok : String) : Handler Response := do
  let now ← perf .nowMs
  -- a failure here is ignored
  let _ ← perf (.revoke tok now)
  pure .ok

/-- The handler of a request. -/
def handle (pkgs : Packages) : Auth.Request → Handler Response
  | .register body => register pkgs body
  | .authorize p => authorize p
  | .callbackGoogle p => callbackGoogle p
  | .token body => token pkgs body
  | .revoke tok => revoke tok

/-! ## The server running -/

/-- The server; the world lets time pass, in milliseconds. -/
def server (pkgs : Packages) :
    Serving.Server WikiSig Auth.Request (Except Rejection Response) Input ℕ AsState where
  handle := handle pkgs
  perform _ _ input := perform pkgs input
  finish _ _ _ s := s
  world dt s := some { s with now := s.now + dt }

/-- An event of a run of the server. -/
abbrev Event : Type := Serving.Event WikiSig Auth.Request (Except Rejection Response) ℕ

/-- What the handlers share, with the trace of what was done. -/
abbrev Conf : Type := Serving.Conf WikiSig Auth.Request (Except Rejection Response) ℕ AsState

/-- The server with the requests in flight. -/
abbrev Sys : Type := Serving.Sys WikiSig Auth.Request (Except Rejection Response) ℕ AsState

/-- The server just started, on the database `db`, at the time `now`. -/
def start (db : Db) (now : Int) : AsState where
  now := now
  db := db

end LlmMemory.WikiAuth
