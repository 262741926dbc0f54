import LlmMemory.Server.Separation
import LlmMemory.System.Deletion
import LlmMemory.WikiAuth.Router

/-!
# The server of the wiki

All of the server (`App.step`): the authorization server with the requests that need an
account (`WikiAuth.Router`), the tools that these requests call (`Endpoint`), and the
rebuild workers that the calls start (`Worker`), on one database (`Db.withAccounts`).
A restart leaves the database only.
-/

namespace LlmMemory

/-! ## One database -/

/-- The row of a user, as it is for the tools. -/
def WikiAuth.User.row (u : WikiAuth.User) : LlmMemory.User :=
  ⟨u.id, u.provider, u.subject, u.email, u.createdAt⟩

/-- The row of a refresh token, as it is for the tools. -/
def Auth.Token.row (t : Auth.Token) : LlmMemory.Token :=
  ⟨t.refreshTokenHash, t.userId, t.clientId, t.expiresAt, t.revokedAt⟩

/-- The tables, with those that the authorization server writes. -/
def Db.withAccounts (db : Db) (accounts : WikiAuth.Db) : Db :=
  { db with users := accounts.users.map (·.row), tokens := accounts.tokens.map (·.row) }

section Accounts

variable {db : Db} {accounts : WikiAuth.Db} {id : String}

/-- A user is found where the account is. -/
theorem Users.findById_withAccounts :
    Users.findById (db.withAccounts accounts) id = (accounts.findById id).map (·.row) := by
  rw [Users.findById, Db.withAccounts, List.find?_map, WikiAuth.Db.findById]
  rfl

/-- Either side deletes its part of what an account has. -/
theorem Users.deleteCascade_withAccounts : Users.deleteCascade (db.withAccounts accounts) id =
    (Users.deleteCascade db id).withAccounts (accounts.deleteCascade id) := by
  rw [Users.deleteCascade, Db.withAccounts, Db.withAccounts, List.filter_map, List.filter_map]
  rfl

end Accounts

/-! ## The server -/

/-- The endpoint after a restart. -/
def Endpoint.restart (s : Endpoint) : Endpoint where
  shared := { s.shared with
    map := fun _ => none
    inFlight := 0
    hist := { s.shared.hist with manualStarting := fun _ => false } }
  secs := s.secs
  buckets := RateLimiter.new
  pending := fun _ => none

/-- What the next step of a call does to the rest. -/
def Endpoint.effects (s : Endpoint) (userId : String) (n : ℕ) (ok : Bool) : List Effect :=
  match s.pending (userId, n) with
  | some ⟨_, _, .write w⟩ => (w.next userId s.shared ok).2
  | _ => []

namespace App

/-- The server: the router with the accounts, the endpoint of the tools, the workers, and
    the responses given. -/
structure State where
  router : WikiAuth.Router.State
  endpoint : Endpoint
  workers : List Worker := []
  -- the responses to calls, in order
  answers : List Answer := []

/-- What moves: the authorization server and the checks of requests, the `i`-th of the
    requests that are served, which makes a call or goes on with it, or a rebuild worker. -/
inductive Move (τ : Type)
  | router (m : WikiAuth.Router.Move τ)
  | call (i : ℕ) (rpcId : Option Json) (params : Json) (ulid : String)
  | go (i : ℕ) (ok : Bool)
  | worker (e : Event)
  | tick (dt : ℕ) (secs : ℚ)

namespace State

/-- The part that the rebuild workers are in. -/
def toSys (s : State) : Sys := { shared := s.endpoint.shared, workers := s.workers }

/-- Something happens at the endpoint, which may answer. -/
def happens (fts : Fts) (s : State) (e : EndpointEvent) : State :=
  { s with
    endpoint := (s.endpoint.step fts e).1
    answers := s.answers ++ (s.endpoint.step fts e).2 }

/-- What becomes of the tools and the workers when the router moves. -/
def follow {τ : Type} (fts : Fts) (s : State) : WikiAuth.Router.Move τ → State
  | .deleteMe i true =>
    match s.router.serving[i]? with
    | some x => s.happens fts (.deleteMe x.user.userId)
    | none => s
  | .restart _ => { s with endpoint := s.endpoint.restart, workers := [] }
  | _ => s

/-- What the router did to the accounts is done to the database. -/
def withRouter (s : State) (router : WikiAuth.Router.State) : State :=
  { s with
    router
    endpoint.shared.db := s.endpoint.shared.db.withAccounts router.auth.conf.state.db }

end State

section Step

variable {τ : Type} (cfg : WikiAuth.Router.Config τ) (fts : Fts)

/-- A step of the server: of its router, of the endpoint, or of a worker. -/
def step (s : State) : Move τ → Option State
  -- time passes for all of the server
  | .router (.auth (.world _)) => none
  | .router m => (WikiAuth.Router.step cfg s.router m).map (s.follow fts m).withRouter
  | .call i rpcId params ulid => s.router.serving[i]?.bind fun x =>
    if x.route = .mcp then some (s.happens fts (.call x.user.userId x.n rpcId params ulid))
    else none
  | .go i ok => s.router.serving[i]?.map fun x =>
    { s.happens fts (.go x.user.userId x.n ok) with
      workers := ((s.endpoint.effects x.user.userId x.n ok).foldl Sys.effect s.toSys).workers }
  | .worker e =>
    if e.worker?.isSome then (s.toSys.step fts ⟨0, e⟩).map fun sys =>
      { s with endpoint.shared := sys.shared, workers := sys.workers }
    else none
  | .tick dt secs => (WikiAuth.Router.step cfg s.router (.auth (.world dt))).map
    (s.happens fts (.tick dt secs)).withRouter

/-- The server started for the first time: no account was made, so that there are no
    personal rows. -/
structure Starts (s : State) : Prop where
  router : WikiAuth.Router.Starts s.router
  shared : ∃ db, (∀ u, NoRows u db) ∧
    s.endpoint.shared = { now := s.router.auth.conf.state.now, db := db.withAccounts ⟨[], [], []⟩ }
  buckets : s.endpoint.buckets = RateLimiter.new
  pending : s.endpoint.pending = fun _ => none
  workers : s.workers = []

/-- No ulid that the authorization server draws was drawn before. -/
def Fresh (s : State) : Move τ → Prop
  | .router m => WikiAuth.Router.Fresh s.router m
  | _ => True

/-- The states that are reached in runs that draw fresh ids. -/
abbrev Reached : State → Prop := Runs.Reach Starts (step cfg fts) Fresh

/-- The ways the server moves, from `s` to the state given. -/
inductive Moves (s : State) : Move τ → State → Prop
  | router {m : WikiAuth.Router.Move τ} {router : WikiAuth.Router.State} :
      WikiAuth.Router.step cfg s.router m = some router →
      Moves s (.router m) ((s.follow fts m).withRouter router)
  | call {i : ℕ} {x : WikiAuth.Router.Session} {rpcId : Option Json} {params : Json}
      {ulid : String} : x ∈ s.router.serving → x.route = .mcp →
      Moves s (.call i rpcId params ulid)
        (s.happens fts (.call x.user.userId x.n rpcId params ulid))
  | go {i : ℕ} {x : WikiAuth.Router.Session} {ok : Bool} : x ∈ s.router.serving →
      Moves s (.go i ok) { s.happens fts (.go x.user.userId x.n ok) with
        workers := ((s.endpoint.effects x.user.userId x.n ok).foldl Sys.effect s.toSys).workers }
  | worker {e : Event} {sys : Sys} : e.worker?.isSome → s.toSys.step fts ⟨0, e⟩ = some sys →
      Moves s (.worker e) { s with endpoint.shared := sys.shared, workers := sys.workers }
  | tick {dt : ℕ} {secs : ℚ} {router : WikiAuth.Router.State} :
      WikiAuth.Router.step cfg s.router (.auth (.world dt)) = some router →
      Moves s (.tick dt secs) ((s.happens fts (.tick dt secs)).withRouter router)

variable {cfg fts}

/-- A step of the server is one of its moves. -/
theorem step_moves {s s' : State} {m : Move τ} (h : step cfg fts s m = some s') :
    Moves cfg fts s m s' := by
  unfold step at h
  split at h
  · cases h
  · obtain ⟨router, hr, rfl⟩ := Option.map_eq_some_iff.1 h
    exact .router hr
  · obtain ⟨x, hx, h⟩ := Option.bind_eq_some_iff.1 h
    split at h <;> cases h
    exact .call (List.mem_of_getElem? hx) ‹_›
  · obtain ⟨x, hx, rfl⟩ := Option.map_eq_some_iff.1 h
    exact .go (List.mem_of_getElem? hx)
  · split at h
    · obtain ⟨sys, hsys, rfl⟩ := Option.map_eq_some_iff.1 h
      exact .worker ‹_› hsys
    · cases h
  · obtain ⟨router, hr, rfl⟩ := Option.map_eq_some_iff.1 h
    exact .tick hr

/-- The deletion of an account is one transaction on the database. -/
theorem deleteMe_db {s s' : State} {i : ℕ} {x : WikiAuth.Router.Session}
    (hx : s.router.serving[i]? = some x)
    (h : step cfg fts s (.router (.deleteMe i true)) = some s') :
    s'.endpoint.shared.db = Users.deleteCascade
      (s.endpoint.shared.db.withAccounts s.router.auth.conf.state.db) x.user.userId := by
  obtain ⟨router, hr, rfl⟩ := Option.map_eq_some_iff.1 h
  rw [WikiAuth.Router.step, WikiAuth.Router.deleteMe, hx, Option.bind_some] at hr
  dsimp only at hr
  split at hr
  · cases hr
  · cases hr
    rw [Users.deleteCascade_withAccounts, State.withRouter, State.follow, hx]
    rfl

end Step

end App

end LlmMemory
