import LlmMemory.Auth.Operations
import LlmMemory.Lib.Runs

/-!
# The authorization server

The handlers of the endpoints, as programs on the operations of
`LlmMemory.Auth.Operations` (`handle`), and the server running: any number of
requests in flight, interleaved between their operations in any way
(`AsSys.step`). A step first lets time pass, and then a request comes in, or
the handling of one goes on, or is dropped, its client being gone.

Secrets are drawn at random. What is assumed about that is `drawsFresh`: no
session is put under a csrf state under which one was put before, and no code
is one that was put before.
-/

namespace LlmMemory.Auth

open Effects

/-! ## Handlers -/

/-- The operations of the handlers, which start no tasks. -/
abbrev AuthSig : Sig := ⟨Op, Op.Ans, Empty⟩

/-- A program of the handling of a request, which an answer that rejects the
    request ends. -/
abbrev Handler (α : Type) : Type := Attempt AuthSig Rejection α

/-- The request is rejected. -/
def reject {α : Type} (r : Rejection) : Handler α := Prog.ret (.error r)

/-- A check, which rejects the request if it fails. -/
def ofExcept {α : Type} (x : Except Rejection α) : Handler α := Prog.ret x

/-- A parameter that the request must have. -/
def required {α : Type} (x : Option α) (r : Rejection) : Handler α :=
  match x with
  | some a => pure a
  | none => reject r

/-- An operation that does not fail. -/
def perf (o : Op) : Handler o.Ans := Attempt.call o .ok

/-- An operation, a failure of which rejects the request. -/
def attempt {α ε : Type} (o : Op) (result : o.Ans → Except ε α) (r : Rejection) : Handler α :=
  Attempt.call o fun x => (result x).mapError fun _ => r

/-- A query, an error of which is an error of the server. -/
def query {α : Type} (o : Op) (result : o.Ans → Except StorageError α) : Handler α :=
  attempt o result serverError

/-! ### Registration -/

/-- Register a client, if its metadata are accepted. -/
def register (pkgs : Packages) (body : Dcr.DcrRequest) : Handler Response :=
  match Dcr.validate pkgs body with
  | .error e => reject (badRequest "invalid_client_metadata" e)
  | .ok resp => do
    let client ← query (.registerClient resp.redirectUris resp.grantTypes
      resp.tokenEndpointAuthMethod resp.clientName) id
    pure (.created { resp with clientId := client.id })

/-! ### The authorization request -/

/-- The check of the parameters alone. -/
def checkParams (p : AuthorizeParams) : Except Rejection Unit :=
  if p.responseType ≠ "code" then
    .error (badRequest "unsupported_response_type" "only response_type=code supported")
  else if p.codeChallengeMethod ≠ "S256" then
    .error (badRequest "invalid_request" "code_challenge_method must be S256")
  else .ok ()

/-- The check of the parameters against the client registered. -/
def checkClient (p : AuthorizeParams) (client : OAuthClient) : Except Rejection Unit :=
  match client.redirectUris with
  | none => .error serverError
  | some allowed =>
    if p.redirectUri ∉ allowed then
      .error (badRequest "invalid_request" "redirect_uri not registered")
    else match client.grantTypes with
      | none => .error serverError
      | some grants =>
        if "authorization_code" ∉ grants then
          .error (badRequest "unauthorized_client"
            "client did not register the authorization_code grant")
        else .ok ()

/-- The session of a request, from what was drawn for it. -/
def pendingOf (p : AuthorizeParams) (g : GoogleAuthorize) (now : Int) : PendingAuth where
  clientId := p.clientId
  redirectUri := p.redirectUri
  clientState := p.state
  codeChallenge := p.codeChallenge
  codeChallengeMethod := p.codeChallengeMethod
  googleCsrf := g.csrf
  googleVerifierSecret := g.verifier
  expiresAtMs := now + PENDING_AUTH_TTL_MS

/-- Start an authorization: its session is put, and the browser is sent to Google. -/
def authorize (p : AuthorizeParams) : Handler Response := do
  let _ ← ofExcept (checkParams p)
  match ← query (.getClient p.clientId) id with
  | none => reject (badRequest "invalid_client" "unknown client_id")
  | some client =>
    let _ ← ofExcept (checkClient p client)
    -- a failure here is ignored
    let _ ← perf (.touchLastSeen p.clientId)
    let g ← perf .authorizeUrl
    let now ← perf .nowMs
    let _ ← perf (.putPending g.csrf (pendingOf p g now))
    pure (.redirect g.url)

/-! ### The callback -/

/-- The user of a provider and a subject, inserted if there is none. -/
def findOrProvision (newId provider subject : String) (email : Option String)
    (newVegapunkSchema : String) : Handler User := do
  match ← query (.findUser provider subject) id with
  | some existing => pure existing
  | none =>
    let now ← perf .nowMs
    let _ ← query (.insertUser ⟨newId, provider, subject, email, newVegapunkSchema, now⟩) id
    match ← query (.findUser provider subject) id with
    | some user => pure user
    | none => reject serverError

/-- The code issued for a session and a user. -/
def codeOf (pending : PendingAuth) (user : User) (now : Int) : AuthCode where
  userId := user.id
  clientId := pending.clientId
  redirectUri := pending.redirectUri
  codeChallenge := pending.codeChallenge
  codeChallengeMethod := pending.codeChallengeMethod
  expiresAtMs := now + AUTH_CODE_TTL_SECS * 1000

/-- A hexadecimal digit, in capitals. -/
def hexDigit (n : ℕ) : Char := if n < 10 then Char.ofNat (48 + n) else Char.ofNat (55 + n)

/-- The unreserved characters of a URL. -/
def unreserved (c : Char) : Bool :=
  c.isAlphanum || c == '-' || c == '_' || c == '.' || c == '~'

/-- Percent encoding, byte by byte. -/
def urlencoding (s : String) : String :=
  String.ofList (s.toUTF8.data.toList.flatMap fun b =>
    if b.toNat < 128 && unreserved (Char.ofNat b.toNat) then [Char.ofNat b.toNat]
    else ['%', hexDigit (b.toNat / 16), hexDigit (b.toNat % 16)])

/-- The URL to redirect the client to, with its code and its state. -/
def redirectUrl (pending : PendingAuth) (code : String) : String :=
  let sep := if '?' ∈ pending.redirectUri.toList then "&" else "?"
  let url := pending.redirectUri ++ sep ++ "code=" ++ code
  match pending.clientState with
  | some clientState => url ++ "&state=" ++ urlencoding clientState
  | none => url

/-- Google sends the browser back: the session is taken, the user is found or provisioned,
    and a code is put for the client. -/
def callbackGoogle (sharedSchema : String) (p : CallbackParams) : Handler Response := do
  match ← perf (.takePending p.state) with
  | none => reject (badRequest "invalid_state" "no matching session")
  | some pending =>
    let accessToken ← attempt (.exchangeCode p.code pending.googleVerifierSecret) id
      (badRequest "google_exchange_failed" "google authorization code exchange failed")
    let info ← attempt (.userinfo accessToken) id
      (badRequest "google_userinfo_failed" "google userinfo fetch failed")
    let newUserId ← perf .newUlid
    let user ← findOrProvision newUserId "google" info.sub info.email ("user-" ++ info.sub)
    -- failures here are ignored
    let _ ← perf (.ensureSchema user.vegapunkSchema)
    let _ ← perf (.ensureSchema sharedSchema)
    let code ← perf .newUlid
    let now ← perf .nowMs
    let _ ← perf (.putCode code (codeOf pending user now))
    pure (.redirect (redirectUrl pending code))

/-! ### Tokens -/

/-- The grants of a client, if it is registered. -/
def clientGrantTypes (clientId : String) : Handler (Option (List String)) := do
  match ← query (.getClient clientId) id with
  | none => pure none
  | some client => match client.grantTypes with
    | some grants => pure (some grants)
    | none => reject serverError

/-- When a refresh token expires that is issued now. -/
def refreshExpiry (now : Int) : Int := now + REFRESH_TOKEN_TTL_SECS * 1000

/-- Issue an access token, and a refresh token if the client may have one. -/
def issueTokens (userId clientId : String) (includeRefresh : Bool) : Handler Response := do
  let access ← attempt (.issueJwt userId clientId ACCESS_TOKEN_TTL_SECS) id serverError
  if includeRefresh then do
    let r ← perf .newUlid
    let now ← perf .nowMs
    let _ ← query (.createRefresh r userId clientId (refreshExpiry now)) id
    pure (.tokens ⟨access, "Bearer", ACCESS_TOKEN_TTL_SECS, some r⟩)
  else pure (.tokens ⟨access, "Bearer", ACCESS_TOKEN_TTL_SECS, none⟩)

/-- The check of a token request against the code it presented. -/
def checkCode (pkgs : Packages) (body : TokenForm) (verifier : String) (entry : AuthCode) :
    Except Rejection Unit :=
  if pkgs.challenge verifier ≠ entry.codeChallenge then
    .error (badRequest "invalid_grant" "PKCE verifier mismatch")
  -- unlike the verifier, these two are only required once the code is gone
  else match body.clientId with
    | none => .error (badRequest "invalid_request" "client_id is required")
    | some reqClient =>
      if reqClient ≠ entry.clientId then .error (badRequest "invalid_grant" "client_id mismatch")
      else match body.redirectUri with
        | none => .error (badRequest "invalid_request" "redirect_uri is required")
        | some reqUri =>
          if reqUri ≠ entry.redirectUri then
            .error (badRequest "invalid_grant" "redirect_uri mismatch")
          else .ok ()

/-- Exchange a code for tokens. It is taken before the request is checked against it. -/
def grantAuthCode (pkgs : Packages) (body : TokenForm) : Handler Response := do
  let code ← required body.code (badRequest "invalid_request" "code required")
  let verifier ← required body.codeVerifier
    (badRequest "invalid_request" "code_verifier required (PKCE)")
  match ← perf (.takeCode code) with
  | none => reject (badRequest "invalid_grant" "code unknown or expired")
  | some entry =>
    -- from here on the code is gone, whatever comes of the request
    let _ ← ofExcept (checkCode pkgs body verifier entry)
    match ← clientGrantTypes entry.clientId with
    | none => reject (badRequest "invalid_client" "unknown client_id")
    | some grants => issueTokens entry.userId entry.clientId ("refresh_token" ∈ grants)

/-- Exchange a refresh token for new ones. It is revoked before its client is looked up. -/
def grantRefresh (body : TokenForm) : Handler Response := do
  let tok ← required body.refreshToken (badRequest "invalid_request" "refresh_token required")
  let now ← perf .nowMs
  match ← query (.validateAndRevoke tok now) id with
  | none => reject (badRequest "invalid_grant" "refresh_token unknown or expired")
  | some (userId, clientId) =>
    match ← clientGrantTypes clientId with
    | none => reject (badRequest "invalid_client" "unknown client_id")
    | some grants =>
      if "refresh_token" ∈ grants then issueTokens userId clientId true
      else reject (badRequest "unauthorized_client"
        "client did not register the refresh_token grant")

/-- Give tokens for one of the two grants. -/
def token (pkgs : Packages) (body : TokenForm) : Handler Response :=
  if body.grantType = "authorization_code" then grantAuthCode pkgs body
  else if body.grantType = "refresh_token" then grantRefresh body
  else reject (badRequest "unsupported_grant_type" "only authorization_code or refresh_token")

/-- Revoke a refresh token. -/
def revoke (tok : String) : Handler Response := do
  let now ← perf .nowMs
  -- a failure here is ignored
  let _ ← perf (.revoke tok now)
  pure .ok

/-- The configuration of the server. -/
structure Config where
  pkgs : Packages
  sharedSchema : String

/-- The handler of a request. -/
def handle (cfg : Config) : Request → Handler Response
  | .register body => register cfg.pkgs body
  | .authorize p => authorize p
  | .callbackGoogle p => callbackGoogle cfg.sharedSchema p
  | .token body => token cfg.pkgs body
  | .revoke tok => revoke tok

/-- The answer to a request. -/
def respond : Except Rejection Response → Response
  | .ok r => r
  | .error e => .rejected e

/-! ## The server running -/

/-- The handling of the request `req`, the `id`-th one. -/
structure Handling where
  id : ℕ
  req : Request
  prog : Prog AuthSig (Except Rejection Response)

/-- The server: what its handlers share, the requests in flight, and how many were
    received. -/
structure AsSys where
  shared : AsState
  handling : List Handling := []
  received : ℕ := 0

/-- What moves: a request comes in, or the `i`-th one in flight goes on, or is
    dropped. -/
inductive Move
  | request (req : Request)
  | handling (i : ℕ) (input : Input)
  | drop (i : ℕ)
  deriving DecidableEq, Repr

/-- A step: the milliseconds that pass, and what moves then. -/
structure Step where
  dt : ℕ
  move : Move
  deriving DecidableEq, Repr

/-- One step of the handling of a request: how it goes on, unless it has been
    answered, and the state after it. -/
def Handling.step (cfg : Config) (input : Input) (h : Handling) (s : AsState) :
    Option (Option Handling × AsState) :=
  match h.prog with
  | .ret r => some (none, s.note h.id h.req (.answered (respond r)))
  | .op o k => (perform cfg.pkgs h.id h.req input o s).map fun (a, s') =>
      (some { h with prog := k a }, s')
  | .fork _ _ _ => none

namespace AsSys

/-- Time passes. -/
def tick (s : AsSys) (dt : ℕ) : AsSys :=
  { s with shared := { s.shared with now := s.shared.now + dt } }

/-- A request comes in, or one in flight moves. -/
def move (cfg : Config) (s : AsSys) : Move → Option AsSys
  | .request req => some { s with
      handling := s.handling ++ [⟨s.received, req, handle cfg req⟩], received := s.received + 1 }
  | .handling i input => s.handling[i]?.bind fun h =>
      (h.step cfg input s.shared).map fun
        | (some h', sh) => { s with shared := sh, handling := s.handling.set i h' }
        | (none, sh) => { s with shared := sh, handling := s.handling.eraseIdx i }
  | .drop i => some { s with handling := s.handling.eraseIdx i }

/-- A step of the system. -/
def step (cfg : Config) (s : AsSys) (l : Step) : Option AsSys := (s.tick l.dt).move cfg l.move

/-- The server just started, on the database `db`, at the time `now`. -/
def start (db : Db) (now : Int) : AsSys where
  shared := { now := now, db := db }

end AsSys

/-! ## Fresh secrets -/

/-- The csrf state under which a session was put. -/
def Action.statePut : Action → Option String
  | .pendingPut key _ => some key
  | _ => none

/-- The code that an action puts. -/
def Action.codePut? : Action → Option String
  | .codePut code _ => some code
  | _ => none

/-- The secret that an operation puts in a map was not put there before. -/
def Op.isFresh (s : AsState) : Op → Bool
  | .putPending key _ => s.log.all fun e => e.act.statePut ≠ some key
  | .putCode code _ => s.log.all fun e => e.act.codePut? ≠ some code
  | _ => true

/-- A step only puts fresh secrets in the session maps. -/
def drawsFresh (s : AsSys) (l : Step) : Bool :=
  match l.move with
  | .handling i _ => match s.handling[i]? with
    | some ⟨_, _, .op o _⟩ => o.isFresh s.shared
    | _ => true
  | _ => true

/-! ## A first sign-in -/

/-- The SHA-256 digest of the text `v`. -/
def sampleDigest : List UInt8 :=
  [76, 148, 72, 94, 12, 33, 174, 108, 65, 206, 29, 254, 123, 107, 250, 206,
    234, 90, 182, 142, 64, 162, 71, 111, 80, 32, 142, 82, 111, 80, 96, 128]

/-- The challenge of the verifier `v`. -/
def sampleChallenge : String := "TJRIXgwhrmxBzh3-e2v6zupato5AokdvUCCOUm9QYIA"

/-- What the packages answer about one redirect URI, and about the verifier `v`. -/
def Packages.sample : Packages where
  parseUrl u := if u = "https://app.example.com/cb" then some ⟨"https", none⟩ else none
  sha256 v := if v = "v" then sampleDigest else []
  base64Url digest := if digest = sampleDigest then sampleChallenge else ""

/-- A server with the sample packages. -/
def Config.sample : Config := ⟨.sample, "sivira-shared"⟩

/-- The request that exchanges the first code. -/
def firstTokenForm : TokenForm := ⟨"authorization_code", some "code1",
  some "https://app.example.com/cb", some "c1", some "v", none⟩

/-- The requests of a client that registers and goes through the flow once. -/
def firstSignIn : List Step :=
  [.request (.register ⟨["https://app.example.com/cb"], ["authorization_code"], none, none⟩),
    .handling 0 (.text "c1"), .handling 0 .ok,
    .request (.authorize ⟨"code", "c1", "https://app.example.com/cb", sampleChallenge, "S256",
      some "xyz"⟩),
    .handling 0 .ok, .handling 0 .ok,
    .handling 0 (.google ⟨"https://accounts.google.com/o/oauth2/v2/auth", "csrf", "secret"⟩),
    .handling 0 .ok, .handling 0 (.text ""), .handling 0 .ok,
    .request (.callbackGoogle ⟨"google-code", "csrf"⟩),
    .handling 0 .ok, .handling 0 (.text "google-token"), .handling 0 (.info ⟨"sub", none⟩),
    .handling 0 (.text "u1"), .handling 0 .ok, .handling 0 .ok, .handling 0 .ok, .handling 0 .ok,
    .handling 0 .ok, .handling 0 .fail, .handling 0 (.text "code1"), .handling 0 .ok,
    .handling 0 (.text ""), .handling 0 .ok,
    .request (.token firstTokenForm),
    .handling 0 .ok, .handling 0 .ok, .handling 0 .ok, .handling 0 .ok].map fun m => ⟨10, m⟩

/-- The tokens that it gives. -/
def firstTokens : TokenResponse := ⟨⟨"u1", "c1", 1000, 4600⟩, "Bearer", 3600, none⟩

/-- The last event of `firstSignIn`. -/
def firstTokensGiven : Event :=
  ⟨3, .token firstTokenForm, .answered (.tokens firstTokens), 1000300⟩

end LlmMemory.Auth
