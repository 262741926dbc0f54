import LlmMemory.Auth.Jwt
import LlmMemory.Auth.Runs
import LlmMemory.Lib.Records
import LlmMemory.Vegapunk.Transport

/-!
# The vegapunk server as a whole

The authorization server and the tools run side by side on one database, and requests to
the tools pass the authentication (`requireAuth`, `findById`): the bearer token has to
verify, and the user it is for to be there, whose row gives the schema of the calls. A
step (`step`) is one of the authorization server, or of a call of a tool, or lets a
request to `/mcp` in, or looks its user up, or starts the next of its calls; or the server
is restarted, which forgets the sessions and what is in flight, but not the tables.

The calls of the tools in the body of a request (`toolCalls`) are those that the transport
runs (`handle_toolCalls`).
-/

namespace LlmMemory.Vegapunk.Router

open Effects Runs Serving

/-! ## The calls in a body -/

/-- The parameters of an entry that calls a tool. -/
def callOf (entry : Json) : Option Json :=
  match JsonRpc.JsonRpcRequest.read entry with
  | some req =>
    if req.jsonrpcVersionIsValid && req.idTypeIsValid && req.method == "tools/call" then
      some req.params
    else none
  | none => none

/-- The entries of a body, which may be a batch. -/
def entriesOf : Json → List Json
  | .arr entries => entries
  | entry => [entry]

/-- The parameters of the calls in a body. -/
def toolCalls : Option Json → List Json
  | none => []
  | some body => (entriesOf body).filterMap callOf

/-- Record the tool that is run. -/
def recordCall (tool : ToolName) (args : Json) (calls : List (ToolName × Json)) :
    Json × List (ToolName × Json) :=
  (.null, calls ++ [(tool, args)])

/-! ## The server -/

/-- The packages, the token library, and the tools. -/
structure Config (τ : Type) where
  pkgs : Auth.Packages
  libs : Auth.Jwt.Libs τ
  tools : Vegapunk.Config

/-- Both parts are given the name of the shared schema. -/
def Config.auth {τ : Type} (cfg : Config τ) : Auth.Config := ⟨cfg.pkgs, cfg.tools.sharedSchemaName⟩

/-- A request to `/mcp` whose token was verified, and whose user is looked up. -/
structure Checking where
  claims : Auth.Claims
  calls : List Json

/-- A request that is served: its user, the calls that remain, and the one going on. -/
structure Session where
  user : AuthenticatedUser
  calls : List Json
  current : Option ℕ := none

/-- The two parts, the signing keys, and the requests to `/mcp`. -/
structure State where
  auth : Auth.Sys
  tools : Vegapunk.Sys
  keys : Auth.Jwt.JwtKeys
  checking : List Checking := []
  serving : List Session := []
  -- the status codes of the requests that were refused
  refused : List ℕ := []

/-- A move of a part, or of a request to `/mcp`, or a restart with other keys. -/
inductive Move (τ : Type)
  | auth (m : Serving.Move Auth.Request Auth.Input Auth.World)
  | mcp (bearer : Option τ) (body : Option Json)
  | lookup (i : ℕ) (input : Auth.Input)
  | call (i : ℕ)
  | tool (i : ℕ) (input : Vegapunk.Input)
  | disconnect (i : ℕ)
  | restart (keys : Auth.Jwt.JwtKeys)

/-- The status where no token verifies, or there is no user for it. -/
def UNAUTHORIZED : ℕ := 401
/-- The status where the database failed. -/
def INTERNAL_SERVER_ERROR : ℕ := 500

/-- The claims of the bearer token, if there is one that verifies. -/
def requireAuth {τ : Type} (libs : Auth.Jwt.Libs τ) (keys : Auth.Jwt.JwtKeys) (now : Int)
    (bearer : Option τ) : Except ℕ Auth.Claims :=
  match bearer with
  | none => .error UNAUTHORIZED
  | some token => (Auth.Jwt.verify libs keys now token).mapError fun _ => UNAUTHORIZED

/-- The row of an id. -/
def findById (db : Auth.Db) (id : String) : Option Auth.User := db.users.find? fun u => u.id = id

/-- The user of a row, on whose behalf a client calls. -/
def authenticated (claims : Auth.Claims) (row : Auth.User) : AuthenticatedUser :=
  ⟨row.id, claims.clientId, row.vegapunkSchema⟩

/-- The user that was looked up. -/
def admitUser (claims : Auth.Claims) :
    Except Unit (Option Auth.User) → Except ℕ AuthenticatedUser
  | .error _ => .error INTERNAL_SERVER_ERROR
  | .ok none => .error UNAUTHORIZED
  | .ok (some row) => .ok (authenticated claims row)

section Step

variable {τ : Type} (cfg : Config τ)

/-- The tools, when there are new rows of users in the table. -/
def addUsers (tools : Vegapunk.Sys) (rows : List Auth.User) : Vegapunk.Sys :=
  tryAll (server cfg.tools).step tools (rows.map fun u => .world (.addUser u.id))

/-- The tools after a restart: no call is in flight, and no lock held. -/
def dropCalls (tools : Vegapunk.Sys) : Vegapunk.Sys :=
  tryAll (server cfg.tools).step tools (List.replicate tools.handling.length (.drop 0))

/-- The authorization server after a restart, its sessions gone. -/
def dropSessions (auth : Auth.Sys) : Auth.Sys :=
  { auth with
    conf := { auth.conf with state := { auth.conf.state with sessions := {} } }, handling := [] }

/-- The `i`-th of the requests served starts its next call, once the one before is over. -/
def nextCall (s : State) (i : ℕ) : Option State :=
  match s.serving[i]? with
  | some ⟨user, params :: calls, current⟩ =>
    if ∃ h ∈ s.tools.handling, some h.id = current then none
    else ((server cfg.tools).step s.tools (.request (.tool user params))).map fun tools =>
      { s with tools, serving := s.serving.set i ⟨user, calls, some s.tools.received⟩ }
  | _ => none

/-- The client of the `i`-th of the requests served is gone, and so is its call. -/
def disconnect (s : State) (i : ℕ) : Option State :=
  s.serving[i]?.bind fun x =>
    let j := s.tools.handling.findIdx fun h => some h.id = x.current
    ((server cfg.tools).step s.tools (.drop j)).map fun tools =>
      { s with tools, serving := s.serving.eraseIdx i }

/-- A step of the whole server. -/
def step (s : State) : Move τ → Option State
  | .auth m => ((Auth.server cfg.auth).step s.auth m).map fun auth =>
    let rows := auth.conf.state.db.users.drop s.auth.conf.state.db.users.length
    { s with auth, tools := addUsers cfg s.tools rows }
  | .mcp bearer body =>
    match requireAuth cfg.libs s.keys s.auth.conf.state.now bearer with
    | .error status => some { s with refused := s.refused ++ [status] }
    | .ok claims => some { s with checking := s.checking ++ [⟨claims, toolCalls body⟩] }
  | .lookup i input => s.checking[i]?.bind fun x =>
    (Auth.answer (findById s.auth.conf.state.db x.claims.sub) () input).map fun found =>
      match admitUser x.claims found with
      | .error status => { s with
          checking := s.checking.eraseIdx i, refused := s.refused ++ [status] }
      | .ok user => { s with
          checking := s.checking.eraseIdx i, serving := s.serving ++ [⟨user, x.calls, none⟩] }
  | .call i => nextCall cfg s i
  | .tool i input => ((server cfg.tools).step s.tools (.handling i input)).map fun tools =>
      { s with tools }
  | .disconnect i => disconnect cfg s i
  | .restart keys => some { s with
      auth := dropSessions s.auth, tools := dropCalls cfg s.tools, keys, checking := [],
      serving := [] }

/-- The server started for the first time, on empty tables. -/
def Starts (s : State) : Prop :=
  (∃ now, s.auth = .start { now, db := ⟨[], [], []⟩ }) ∧
    s.tools = .start { users := [], ownership := [] } ∧ s.checking = [] ∧ s.serving = []

/-- The runs of the server, by steps that are `ok`. -/
abbrev Reached (ok : State → Move τ → Prop) : State → Prop := Reach Starts (step cfg) ok

end Step

/-! ## The calls that are run -/

section Calls

variable {texts : JsonRpc.Texts} {entry : Json} {calls : List (ToolName × Json)}

/-- A call that names a tool runs it. -/
theorem call_recordCall {id : Option Json} {params : Json} :
    (Transport.call recordCall id params calls).2 = calls ++ (readCall params).toOption.toList := by
  rcases Transport.call_of_readCall recordCall id params calls with
    ⟨tool, args, hread, hcall⟩ | ⟨code, message, hread, hcall⟩
  · rw [hread, hcall]
    rfl
  · rw [hread, hcall]
    exact (List.append_nil calls).symm

/-- A method runs the tool that it calls, if it is a call. -/
theorem respond_recordCall {req : JsonRpc.JsonRpcRequest} :
    (Transport.respond recordCall req calls).2 =
      calls ++ if req.method = "tools/call" then (readCall req.params).toOption.toList else [] := by
  unfold Transport.respond
  split
  · next hmethod => simp [hmethod]
  · next hmethod => simp [hmethod]
  · next hmethod => simp [hmethod]
  · next hmethod =>
    rw [if_pos hmethod]
    exact call_recordCall
  · next hother =>
    rw [if_neg hother, List.append_nil]

theorem dispatchOne_recordCall {req : JsonRpc.JsonRpcRequest} :
    (Transport.dispatchOne recordCall req calls).2 =
      calls ++ if req.method = "tools/call" then (readCall req.params).toOption.toList else [] := by
  unfold Transport.dispatchOne
  split
  · next hnotification =>
    have hmethod : req.method ≠ "tools/call" := by
      intro hcall
      rw [hcall] at hnotification
      exact absurd hnotification (by decide)
    rw [if_neg hmethod, List.append_nil]
    dsimp only
    split <;> rfl
  · refine Eq.trans ?_ respond_recordCall
    dsimp only
    split <;> rfl

/-- An entry runs the tool that it calls, if it calls one. -/
theorem outcome_callOf : (JsonRpc.outcome texts (Transport.dispatchOne recordCall) entry calls).2 =
    calls ++ ((callOf entry).bind fun params => (readCall params).toOption).toList := by
  rw [JsonRpc.outcome, JsonRpc.JsonRpcRequest.fromValue, callOf]
  cases JsonRpc.JsonRpcRequest.read entry with
  | none => exact (List.append_nil calls).symm
  | some req =>
    dsimp only
    cases hversion : req.jsonrpcVersionIsValid with
    | false => exact (List.append_nil calls).symm
    | true =>
      cases htype : req.idTypeIsValid with
      | false => exact (List.append_nil calls).symm
      | true =>
        refine Eq.trans dispatchOne_recordCall ?_
        by_cases hmethod : req.method = "tools/call"
        · simp [hmethod]
        · simp [hmethod]

/-- The entries of a batch run the tools that they call, in order. -/
theorem serve_toolCalls {entries : List Json} :
    (Batches.serve (JsonRpc.outcome texts (Transport.dispatchOne recordCall)) entries calls).2 =
      calls ++ (entries.filterMap callOf).filterMap fun params => (readCall params).toOption := by
  induction entries generalizing calls with
  | nil => exact (List.append_nil calls).symm
  | cons entry entries ih =>
    rw [Batches.serve]
    dsimp only
    rw [ih, outcome_callOf, List.append_assoc, List.filterMap_cons]
    cases callOf entry with
    | none => rfl
    | some params =>
      rw [List.filterMap_cons, Option.bind_some]
      cases (readCall params).toOption with
      | none => rfl
      | some call => rfl

/-- The transport runs the tools of the calls in the body, in their order. -/
theorem handle_toolCalls {body : Option Json} :
    (Transport.handle recordCall texts body []).2 =
      (toolCalls body).filterMap fun params => (readCall params).toOption := by
  -- however the responses are sent, the state is that after the entries
  have hserve : ∀ entries,
      (Batches.serve (JsonRpc.outcome texts (Transport.dispatchOne recordCall)) entries []).2 =
        (entries.filterMap callOf).filterMap fun params => (readCall params).toOption :=
    fun entries => serve_toolCalls.trans (List.nil_append _)
  unfold Transport.handle JsonRpc.handle
  cases body with
  | none => rfl
  | some body =>
    refine Eq.trans ?_ (hserve (entriesOf body))
    dsimp only
    split
    · next entries =>
      cases entries with
      | nil => rfl
      | cons entry entries =>
        rw [if_neg (by simp)]
        split
        · rfl
        · split <;> rfl
    · next hbody =>
      cases body with
      | arr entries => exact absurd rfl (hbody entries)
      | _ =>
        rw [if_neg (by simp)]
        split
        · rfl
        · split <;> rfl

end Calls

end LlmMemory.Vegapunk.Router
