import LlmMemory.Auth.Registration
import LlmMemory.Lib.Effects
import LlmMemory.Lib.ExpiringMap

/-!
# The state of the authorization server

The tables and the session maps of the authorization server (`AsState`), the
requests to its endpoints, and what the handling of one does between two points
where another may move: a query, an access to a session map, a call to Google,
a read of the clock, a draw of a secret (`Op`, `perform`).

The state also keeps the log of what happened (`Event`), written by the
operations and read by none: the handling of which request did what, and when.
-/

namespace LlmMemory.Auth

open Effects

/-! ## Requests and answers -/

/-- The parameters of an authorization request. -/
structure AuthorizeParams where
  responseType : String
  clientId : String
  redirectUri : String
  codeChallenge : String
  codeChallengeMethod : String
  state : Option String := none
  deriving DecidableEq, Repr

/-- The parameters with which Google sends the browser back. -/
structure CallbackParams where
  code : String
  state : String
  deriving DecidableEq, Repr

/-- The form of a token request. -/
structure TokenForm where
  grantType : String
  code : Option String := none
  redirectUri : Option String := none
  clientId : Option String := none
  codeVerifier : Option String := none
  refreshToken : Option String := none
  deriving DecidableEq, Repr

/-- A request to one of the endpoints, by the path of the endpoint. -/
inductive Request
  | register (body : Dcr.DcrRequest)
  | authorize (p : AuthorizeParams)
  | callbackGoogle (p : CallbackParams)
  | token (body : TokenForm)
  | revoke (token : String)
  deriving DecidableEq, Repr

/-- What an access token says. -/
structure Claims where
  sub : String
  clientId : String
  iat : Int
  exp : Int
  deriving DecidableEq, Repr

/-- Tokens that are given. An access token is its claims. -/
structure TokenResponse where
  accessToken : Claims
  tokenType : String
  expiresIn : Int
  refreshToken : Option String
  deriving DecidableEq, Repr

/-- The answer to a request that fails. -/
structure Rejection where
  status : ℕ
  error : String
  errorDescription : String
  deriving DecidableEq, Repr

/-- How a request is answered. -/
inductive Response
  | created (r : Dcr.DcrResponse)
  | redirect (url : String)
  | tokens (r : TokenResponse)
  | ok
  | rejected (r : Rejection)
  deriving DecidableEq, Repr

/-- The rejection of a request that is not accepted. -/
def badRequest (error description : String) : Rejection := ⟨400, error, description⟩
/-- The rejection of a request that the server could not handle. -/
def serverError : Rejection := ⟨500, "server_error", "internal error"⟩

/-! ## Tables -/

/-- A row of `oauth_clients`. The lists of its columns of JSON are `none` where
    the text is malformed. -/
structure OAuthClient where
  id : String
  redirectUris : Option (List String)
  grantTypes : Option (List String)
  tokenEndpointAuthMethod : String
  clientName : Option String
  createdAt : Int
  lastSeenAt : Option Int := none
  revokedAt : Option Int := none
  deriving DecidableEq, Repr

/-- The row of a user, with the schema in the graph. -/
structure User where
  id : String
  provider : String
  subject : String
  email : Option String
  vegapunkSchema : String
  createdAt : Int
  deriving DecidableEq, Repr

/-- A row of `tokens`, for a refresh token. -/
structure Token where
  refreshTokenHash : List UInt8
  userId : String
  clientId : String
  expiresAt : Int
  revokedAt : Option Int := none
  deriving DecidableEq, Repr

/-- The tables. -/
structure Db where
  clients : List OAuthClient
  users : List User
  tokens : List Token
  deriving DecidableEq, Repr

namespace Db

/-- Insert a client; `id` is the primary key. -/
def insertClient (db : Db) (c : OAuthClient) : Option Db :=
  if ∃ c' ∈ db.clients, c'.id = c.id then none else some { db with clients := db.clients ++ [c] }

/-- The client of an id. -/
def getClient (db : Db) (id : String) : Option OAuthClient := db.clients.find? fun c => c.id = id

/-- A client was seen now. -/
def touchLastSeen (db : Db) (id : String) (now : Int) : Db :=
  { db with clients := db.clients.map fun c =>
      if c.id = id then { c with lastSeenAt := some now } else c }

/-- The user of a provider and a subject. -/
def findUser (db : Db) (provider subject : String) : Option User :=
  db.users.find? fun u => u.provider = provider ∧ u.subject = subject

/-- Insert a user unless there is one of its provider and subject; `id` is the
    primary key. The row inserted, if any, is given back. -/
def insertUser (db : Db) (u : User) : Option (Option User × Db) :=
  if ∃ u' ∈ db.users, u'.provider = u.provider ∧ u'.subject = u.subject then some (none, db)
  else if ∃ u' ∈ db.users, u'.id = u.id then none
  else some (some u, { db with users := db.users ++ [u] })

/-- Insert a refresh token, whose hash is the primary key, and which refers to
    a user and a client. -/
def insertToken (db : Db) (t : Token) : Option Db :=
  if (∃ t' ∈ db.tokens, t'.refreshTokenHash = t.refreshTokenHash) ∨
      (∀ u ∈ db.users, u.id ≠ t.userId) ∨ (∀ c ∈ db.clients, c.id ≠ t.clientId) then none
  else some { db with tokens := db.tokens ++ [t] }

/-- The refresh tokens of a hash are revoked now. -/
def revoke (db : Db) (hash : List UInt8) (now : Int) : Db :=
  { db with tokens := db.tokens.map fun t =>
      if t.refreshTokenHash = hash then { t with revokedAt := some now } else t }

/-- Revoke the refresh token of a hash, if it is valid, and give its user and
    its client. -/
def validateAndRevoke (db : Db) (hash : List UInt8) (now : Int) :
    Option (String × String) × Db :=
  match db.tokens.find? fun t =>
      t.refreshTokenHash = hash ∧ t.revokedAt = none ∧ now < t.expiresAt with
  | some t => (some (t.userId, t.clientId), db.revoke hash now)
  | none => (none, db)

end Db

/-! ## Sessions -/

/-- A session of `/authorize`, while Google authenticates the user. -/
structure PendingAuth where
  clientId : String
  redirectUri : String
  clientState : Option String
  codeChallenge : String
  codeChallengeMethod : String
  googleCsrf : String
  googleVerifierSecret : String
  expiresAtMs : Int
  deriving DecidableEq, Repr

/-- What a code stands for. -/
structure AuthCode where
  userId : String
  clientId : String
  redirectUri : String
  codeChallenge : String
  codeChallengeMethod : String
  expiresAtMs : Int
  deriving DecidableEq, Repr

/-- The time that a session has, in milliseconds. -/
def PENDING_AUTH_TTL_MS : Int := 10 * 60 * 1000
/-- The time that a code has, in seconds. -/
def AUTH_CODE_TTL_SECS : Int := 60
/-- The time that an access token has, in seconds. -/
def ACCESS_TOKEN_TTL_SECS : Int := 3600
/-- The time that a refresh token has, in seconds. -/
def REFRESH_TOKEN_TTL_SECS : Int := 30 * 24 * 3600
/-- The greatest number of sessions. -/
def MAX_PENDING_AUTHS : ℕ := 10000
/-- The greatest number of codes. -/
def MAX_AUTH_CODES : ℕ := 10000

/-- The sessions and the codes, in memory. -/
structure InMemorySessions where
  pending : List (String × PendingAuth) := []
  codes : List (String × AuthCode) := []
  deriving DecidableEq, Repr

/-! ## Operations -/

/-- A failure of the database, or a row that is missing. -/
inductive StorageError
  | sqlx
  | notFound
  deriving DecidableEq, Repr

/-- What Google says of a user. -/
structure GoogleUserInfo where
  sub : String
  email : Option String
  deriving DecidableEq, Repr

/-- What `authorize_url` draws: the URL of Google, with the csrf state and the
    verifier of the challenge in it. -/
structure GoogleAuthorize where
  url : String
  csrf : String
  verifier : String
  deriving DecidableEq, Repr

/-- What the handlers do outside of themselves: they read the clock, draw ids, query the
    tables, put and take sessions and codes, ask Google, sign tokens, and have schemas
    made. -/
inductive Op
  | nowMs
  | newUlid
  | registerClient (redirectUris grantTypes : List String) (authMethod : String)
      (clientName : Option String)
  | getClient (id : String)
  | touchLastSeen (id : String)
  | authorizeUrl
  | putPending (key : String) (p : PendingAuth)
  | takePending (key : String)
  | exchangeCode (code verifier : String)
  | userinfo (accessToken : String)
  | findUser (provider subject : String)
  | insertUser (u : User)
  | ensureSchema (name : String)
  | putCode (key : String) (c : AuthCode)
  | takeCode (key : String)
  | issueJwt (userId clientId : String) (ttlSeconds : Int)
  | createRefresh (token userId clientId : String) (expiresAt : Int)
  | validateAndRevoke (token : String) (now : Int)
  | revoke (token : String) (now : Int)

/-- What each of these gives. -/
def Op.Ans : Op → Type
  | .nowMs => Int
  | .newUlid => String
  | .registerClient _ _ _ _ => Except StorageError OAuthClient
  | .getClient _ => Except StorageError (Option OAuthClient)
  | .touchLastSeen _ => Except StorageError Unit
  | .authorizeUrl => GoogleAuthorize
  | .putPending _ _ => Unit
  | .takePending _ => Option PendingAuth
  | .exchangeCode _ _ => Except Unit String
  | .userinfo _ => Except Unit GoogleUserInfo
  | .findUser _ _ => Except StorageError (Option User)
  | .insertUser _ => Except StorageError Unit
  | .ensureSchema _ => Except Unit Unit
  | .putCode _ _ => Unit
  | .takeCode _ => Option AuthCode
  | .issueJwt _ _ _ => Except Unit Claims
  | .createRefresh _ _ _ _ => Except StorageError Unit
  | .validateAndRevoke _ _ => Except StorageError (Option (String × String))
  | .revoke _ _ => Except StorageError Unit

/-- What the handling of a request did. -/
inductive Action
  | registered (c : OAuthClient)
  | pendingPut (key : String) (p : PendingAuth)
  | pendingTaken (key : String) (p : PendingAuth)
  | authenticated (info : GoogleUserInfo)
  | provisioned (u : User)
  | codePut (code : String) (c : AuthCode)
  | codeTaken (code : String) (c : AuthCode)
  | answered (r : Response)
  deriving DecidableEq, Repr

/-- An action of the handling of the request `req`, the `id`-th one. -/
structure Event where
  id : ℕ
  req : Request
  act : Action
  time : Int
  deriving DecidableEq, Repr

/-- What the handlers share: the clock, the tables, the sessions, and the log of what was
    done. -/
structure AsState where
  now : Int
  db : Db
  sessions : InMemorySessions := {}
  log : List Event := []

/-- How an operation comes out: done, failed, or with an answer from outside.
    A text is a ulid, an access token of Google, or the key of the session to
    drop if a map is full. -/
inductive Input
  | ok
  | fail
  | text (s : String)
  | google (g : GoogleAuthorize)
  | info (i : GoogleUserInfo)
  deriving DecidableEq, Repr

namespace AsState

/-- A request did something now. -/
def note (s : AsState) (id : ℕ) (req : Request) (act : Action) : AsState :=
  { s with log := s.log ++ [⟨id, req, act, s.now⟩] }

/-- A request did something, if it did. -/
def noteSome (s : AsState) (id : ℕ) (req : Request) : Option Action → AsState
  | some act => s.note id req act
  | none => s

/-- What is noted leaves the tables. -/
theorem noteSome_db {s : AsState} {id : ℕ} {req : Request} {act : Option Action} :
    (s.noteSome id req act).db = s.db := by
  cases act <;> rfl

/-- The map of the sessions is replaced. -/
def setPending (s : AsState) (m : List (String × PendingAuth)) : AsState :=
  { s with sessions := { s.sessions with pending := m } }

/-- The map of the codes is replaced. -/
def setCodes (s : AsState) (m : List (String × AuthCode)) : AsState :=
  { s with sessions := { s.sessions with codes := m } }

end AsState

/-- The answer of a query that may fail. -/
def answer {α ε : Type} (a : α) (e : ε) : Input → Option (Except ε α)
  | .ok => some (.ok a)
  | .fail => some (.error e)
  | _ => none

theorem answer_state {α ε : Type} {input : Input} {s s' : AsState} {a : α} {e : ε}
    {r : Except ε α} (h : (answer a e input).map (·, s) = some (r, s')) :
    s' = s ∧ (r = .ok a ∨ r = .error e) := by
  cases input with
  | ok => cases h; exact ⟨rfl, .inl rfl⟩
  | fail => cases h; exact ⟨rfl, .inr rfl⟩
  | text t => cases h
  | google g => cases h
  | info i => cases h

/-- The answer of a write, and the state after it, if the constraints of the
    tables allow it. -/
def write (s : AsState) (db : Option Db) : Input → Option (Except StorageError Unit × AsState)
  | .ok => match db with
    | some db => some (.ok (), { s with db := db })
    | none => some (.error .sqlx, s)
  | .fail => some (.error .sqlx, s)
  | _ => none

/-- The answer of an operation of the handling of a request, and the state
    after it. -/
def perform (pkgs : Packages) (id : ℕ) (req : Request) (input : Input) :
    (o : Op) → AsState → Option (o.Ans × AsState)
  | .nowMs, s => some (s.now, s)
  | .newUlid, s =>
    match input with
    | .text ulid => some (ulid, s)
    | _ => none
  | .registerClient uris grants authMethod clientName, s =>
    match input with
    | .text ulid =>
      let c : OAuthClient := ⟨ulid, some uris, some grants, authMethod, clientName, s.now, none, none⟩
      match s.db.insertClient c with
      | some db => some (.ok c, { s with db := db }.note id req (.registered c))
      | none => some (.error .sqlx, s)
    | .fail => some (.error .sqlx, s)
    | _ => none
  | .getClient clientId, s => (answer (s.db.getClient clientId) .sqlx input).map (·, s)
  | .touchLastSeen clientId, s => write s (some (s.db.touchLastSeen clientId s.now)) input
  | .authorizeUrl, s =>
    match input with
    | .google g => some (g, s)
    | _ => none
  | .putPending key p, s =>
    match input with
    | .text victim =>
      (ExpiringMap.put PendingAuth.expiresAtMs MAX_PENDING_AUTHS victim s.now key p
        s.sessions.pending).map fun m => ((), (s.setPending m).note id req (.pendingPut key p))
    | _ => none
  | .takePending key, s =>
    let (p, m) := ExpiringMap.take PendingAuth.expiresAtMs s.now key s.sessions.pending
    some (p, (s.setPending m).noteSome id req (p.map (.pendingTaken key)))
  | .exchangeCode _ _, s =>
    match input with
    | .text token => some (.ok token, s)
    | .fail => some (.error (), s)
    | _ => none
  | .userinfo _, s =>
    match input with
    | .info i => some (.ok i, s.note id req (.authenticated i))
    | .fail => some (.error (), s)
    | _ => none
  | .findUser provider subject, s => (answer (s.db.findUser provider subject) .sqlx input).map (·, s)
  | .insertUser u, s =>
    match input with
    | .ok => match s.db.insertUser u with
      -- no row is inserted if there is one of the subject
      | some (row, db) => some (.ok (), { s with db := db }.noteSome id req (row.map .provisioned))
      | none => some (.error .sqlx, s)
    | .fail => some (.error .sqlx, s)
    | _ => none
  | .ensureSchema _, s => (answer () () input).map (·, s)
  | .putCode key c, s =>
    match input with
    | .text victim =>
      (ExpiringMap.put AuthCode.expiresAtMs MAX_AUTH_CODES victim s.now key c
        s.sessions.codes).map fun m => ((), (s.setCodes m).note id req (.codePut key c))
    | _ => none
  | .takeCode key, s =>
    let (c, m) := ExpiringMap.take AuthCode.expiresAtMs s.now key s.sessions.codes
    some (c, (s.setCodes m).noteSome id req (c.map (.codeTaken key)))
  | .issueJwt userId clientId ttlSeconds, s =>
    (answer ⟨userId, clientId, s.now / 1000, s.now / 1000 + ttlSeconds⟩ () input).map (·, s)
  | .createRefresh token userId clientId expiresAt, s =>
    write s (s.db.insertToken ⟨pkgs.sha256 token, userId, clientId, expiresAt, none⟩) input
  -- one statement: the row is only revoked if it is valid
  | .validateAndRevoke token now, s =>
    match input with
    | .ok =>
      let (x, db) := s.db.validateAndRevoke (pkgs.sha256 token) now
      some (.ok x, { s with db := db })
    | .fail => some (.error .sqlx, s)
    | _ => none
  | .revoke token now, s => write s (some (s.db.revoke (pkgs.sha256 token) now)) input

end LlmMemory.Auth
