import LlmMemory.Auth.KeyRotation
import LlmMemory.WikiAuth.Accounts

/-!
# The accounts of the wiki's server

The requests to the wiki's server that need an account: those to the tools, and the one
that deletes the account (`Route`). The bearer token has to verify (`requireAuth`), and the
user that it is for to be in the table when they are looked up; then the request is served.
This goes on beside the authorization server, on its tables (`step`), and the server may be
restarted.

Once an account is deleted (`deletion_closes`), no further request is served for it: access
tokens of it may verify until they expire, and may even be issued for a code put before,
but its user is not found. Nor is anything else given to it, such as a refresh token.
-/

namespace LlmMemory.WikiAuth.Router

open Effects Auth Runs Serving
open Accounts (Deleted Gives)

/-! ## The server -/

/-- A user, and the client that calls on their behalf. -/
structure AuthenticatedUser where
  userId : String
  clientId : String
  deriving DecidableEq, Repr

/-- What a request is for: the tools, or the deletion of the account. -/
inductive Route
  | mcp
  | account
  deriving DecidableEq, Repr

/-- The packages and the token library. -/
structure Config (τ : Type) where
  pkgs : Packages
  libs : Jwt.Libs τ

/-- A request whose token was verified, and whose user is looked up. -/
structure Checking where
  n : ℕ
  claims : Claims
  route : Route
  deriving DecidableEq, Repr

/-- A request that is served. -/
structure Session where
  n : ℕ
  user : AuthenticatedUser
  route : Route
  deriving DecidableEq, Repr

/-- The authorization server, the signing keys, and the requests with a token. -/
structure State where
  auth : Accounts.Sys
  keys : Jwt.JwtKeys
  checking : List Checking := []
  serving : List Session := []
  -- the requests that were refused, with the status codes
  refused : List (ℕ × ℕ) := []
  received : ℕ := 0

/-- A move of the authorization server, or of a request with a token, or a restart. -/
inductive Move (τ : Type)
  | auth (m : Serving.Move Auth.Request Input ℕ)
  | request (bearer : Option τ) (route : Route)
  | lookup (i : ℕ) (ok : Bool)
  | deleteMe (i : ℕ) (ok : Bool)
  | close (i : ℕ)
  | restart (keys : Jwt.JwtKeys)

/-- The status where no token verifies, or there is no user for it. -/
def UNAUTHORIZED : ℕ := 401
/-- The status where the database failed. -/
def INTERNAL_SERVER_ERROR : ℕ := 500

/-- The claims of the bearer token, if there is one that verifies. -/
def requireAuth {τ : Type} (libs : Jwt.Libs τ) (keys : Jwt.JwtKeys) (now : Int)
    (bearer : Option τ) : Except ℕ Claims :=
  match bearer with
  | none => .error UNAUTHORIZED
  | some token => (Jwt.verify libs keys now token).mapError fun _ => UNAUTHORIZED

/-- A move of the authorization server, for which the world lets time pass. -/
def lift : Serving.Move Auth.Request Input ℕ → Accounts.Move
  | .request req => .request req
  | .handling i input => .handling i input
  | .drop i => .drop i
  | .world dt => .world (.tick dt)

section Step

variable {τ : Type} (cfg : Config τ)

/-- Refuse a request. -/
def State.refuse (s : State) (n status : ℕ) : State :=
  { s with refused := s.refused ++ [(n, status)] }

/-- The `i`-th of the requests that are checked has its user looked up, unless the database
    fails. -/
def lookup (s : State) (i : ℕ) (ok : Bool) : Option State :=
  s.checking[i]?.bind fun x =>
    let s := { s with checking := s.checking.eraseIdx i }
    if ok then
      let row := s.auth.conf.state.db.findById x.claims.sub
      ((Accounts.server cfg.pkgs).step s.auth (.world (.lookup x.claims.sub row))).map fun auth =>
        match row with
        | none => { s with auth }.refuse x.n UNAUTHORIZED
        | some _ => { s with
            auth, serving := s.serving ++ [⟨x.n, ⟨x.claims.sub, x.claims.clientId⟩, x.route⟩] }
    else some (s.refuse x.n INTERNAL_SERVER_ERROR)

/-- The `i`-th of the requests served deletes the account, unless the database fails. -/
def deleteMe (s : State) (i : ℕ) (ok : Bool) : Option State :=
  s.serving[i]?.bind fun x =>
    let s := { s with serving := s.serving.eraseIdx i }
    if x.route ≠ .account then none
    else if ok then
      ((Accounts.server cfg.pkgs).step s.auth (.world (.deleteAccount x.user.userId))).map
        fun auth => { s with auth }
    else some s

/-- The authorization server after a restart: no request is in flight, and its sessions are
    gone. -/
def restarted (auth : Accounts.Sys) : Accounts.Sys :=
  tryAll (Accounts.server cfg.pkgs).step auth
    (List.replicate auth.handling.length (.drop 0) ++ [.world .restart])

/-- A step of the whole server. -/
def step (s : State) : Move τ → Option State
  | .auth m => ((Accounts.server cfg.pkgs).step s.auth (lift m)).map fun auth => { s with auth }
  | .request bearer route =>
    let s' := { s with received := s.received + 1 }
    match requireAuth cfg.libs s.keys s.auth.conf.state.now bearer with
    | .error status => some (s'.refuse s.received status)
    | .ok claims => some { s' with checking := s.checking ++ [⟨s.received, claims, route⟩] }
  | .lookup i ok => lookup cfg s i ok
  | .deleteMe i ok => deleteMe cfg s i ok
  -- a request of the tools is answered, or a client is gone
  | .close i => some { s with serving := s.serving.eraseIdx i }
  | .restart keys =>
    some { s with auth := restarted cfg s.auth, keys, checking := [], serving := [] }

/-- The server started for the first time, on empty tables. -/
def Starts (s : State) : Prop :=
  (∃ now, s.auth = .start (start ⟨[], [], []⟩ now)) ∧ s.checking = [] ∧ s.serving = []

/-- A ulid that is drawn was not drawn before. -/
def Fresh (s : State) : Move τ → Prop
  | .auth m => Accounts.Allowed s.auth (lift m)
  | _ => True

/-- The runs in which no ulid is drawn twice. -/
abbrev Reached : State → Prop := Reach Starts (step cfg) Fresh

end Step

/-! ## What a step does -/

/-- The user of the request was looked up, and found. -/
def Admitted (l : List Accounts.Done) (x : Session) : Prop :=
  ∃ row, .world (.lookup x.user.userId (some row)) ∈ l

/-- The authorization server made moves that are allowed, and a request that is served now
    was before, or its user was looked up just now. -/
structure Goes {τ : Type} (cfg : Config τ) (s s' : State) : Prop where
  auth : Reach (· = s.auth) (Accounts.server cfg.pkgs).step Accounts.Allowed s'.auth
  serving : ∀ x ∈ s'.serving, x ∈ s.serving ∨
    ∃ row, s'.auth.conf =
      s.auth.conf.next s.auth.conf.state (.world (.lookup x.user.userId (some row)))

section Steps

variable {τ : Type} {cfg : Config τ} {s s' : State} {i : ℕ} {ok : Bool}

/-- What is served was served before. -/
theorem Goes.of_subset {auth : Accounts.Sys} {keys : Jwt.JwtKeys} {checking : List Checking}
    {serving : List Session} {refused : List (ℕ × ℕ)} {n : ℕ}
    (hauth : Reach (· = s.auth) (Accounts.server cfg.pkgs).step Accounts.Allowed auth)
    (hsub : serving ⊆ s.serving) : Goes cfg s ⟨auth, keys, checking, serving, refused, n⟩ :=
  ⟨hauth, fun _ hx => .inl (hsub hx)⟩

/-- A look-up admits a user that is there. -/
theorem lookup_goes (hst : lookup cfg s i ok = some s') : Goes cfg s s' := by
  obtain ⟨x, -, hst⟩ := Option.bind_eq_some_iff.1 hst
  dsimp only at hst
  split at hst
  · obtain ⟨auth, hauth, rfl⟩ := Option.map_eq_some_iff.1 hst
    have hreach : Reach (· = s.auth) (Accounts.server cfg.pkgs).step Accounts.Allowed auth :=
      .step (.init rfl) (l := .world (.lookup _ _)) trivial hauth
    split
    · exact .of_subset hreach (List.Subset.refl _)
    · next row hrow =>
      refine ⟨hreach, fun y hy => ?_⟩
      rcases List.mem_append.1 hy with hy | hy
      · exact .inl hy
      · rw [List.mem_singleton.1 hy]
        obtain ⟨st, hworld, rfl⟩ := Option.map_eq_some_iff.1 hauth
        have hsame : st = s.auth.conf.state := Accounts.lookup_state hworld
        rw [hrow, hsame]
        exact .inr ⟨row, rfl⟩
  · cases hst
    exact .of_subset (.init rfl) (List.Subset.refl _)

/-- The account that a request deletes is that of its user, who was looked up. -/
theorem deleteMe_goes (hserving : ∀ x ∈ s.serving, Admitted s.auth.conf.trace x)
    (hst : deleteMe cfg s i ok = some s') : Goes cfg s s' := by
  obtain ⟨x, hi, hst⟩ := Option.bind_eq_some_iff.1 hst
  dsimp only at hst
  split at hst
  · cases hst
  · split at hst
    · obtain ⟨auth, hauth, rfl⟩ := Option.map_eq_some_iff.1 hst
      have hok : Accounts.Allowed s.auth (.world (.deleteAccount x.user.userId)) :=
        hserving x (List.mem_of_getElem? hi)
      exact .of_subset (.step (.init rfl) hok hauth) fun _ => List.mem_of_mem_eraseIdx
    · cases hst
      exact .of_subset (.init rfl) fun _ => List.mem_of_mem_eraseIdx

/-- A restart is a run of the authorization server. -/
theorem restarted_reach {auth : Accounts.Sys} :
    Reach (· = auth) (Accounts.server cfg.pkgs).step Accounts.Allowed (restarted cfg auth) := by
  refine Reach.tryAll (.init rfl) fun s m hm => ?_
  rcases List.mem_append.1 hm with hm | hm
  · rw [List.eq_of_mem_replicate hm]
    trivial
  · rw [List.mem_singleton.1 hm]
    trivial

theorem step_goes {m : Move τ} (hserving : ∀ x ∈ s.serving, Admitted s.auth.conf.trace x)
    (hok : Fresh s m) (hst : step cfg s m = some s') : Goes cfg s s' := by
  cases m with
  | auth m =>
    obtain ⟨auth, hauth, rfl⟩ := Option.map_eq_some_iff.1 hst
    exact .of_subset (.step (.init rfl) hok hauth) (List.Subset.refl _)
  | request bearer route =>
    rw [step] at hst
    split at hst <;>
    · cases hst
      exact .of_subset (.init rfl) (List.Subset.refl _)
  | lookup i ok => exact lookup_goes hst
  | deleteMe i ok => exact deleteMe_goes hserving hst
  | close i =>
    cases hst
    exact .of_subset (.init rfl) fun _ => List.mem_of_mem_eraseIdx
  | restart keys =>
    cases hst
    exact .of_subset restarted_reach fun _ hx => absurd hx List.not_mem_nil

theorem Goes.trace (h : Goes cfg s s') : s.auth.conf.trace <+: s'.auth.conf.trace :=
  Server.trace_of_reach h.auth

end Steps

/-! ## Runs -/

section Runs

variable {τ : Type} {cfg : Config τ} {s s' : State} {id : String}

/-- The authorization server is in a run of its own, and the users of the requests that are
    served were looked up. -/
structure Inv (cfg : Config τ) (s : State) : Prop where
  auth : Accounts.Reached cfg.pkgs s.auth
  serving : ∀ x ∈ s.serving, Admitted s.auth.conf.trace x

theorem Inv.goes (h : Inv cfg s) (hg : Goes cfg s s') : Inv cfg s' := by
  refine ⟨h.auth.append hg.auth, fun x hx => ?_⟩
  rcases hg.serving x hx with hx | ⟨row, heq⟩
  · exact (h.serving x hx).imp fun _ hrow => hg.trace.subset hrow
  · exact ⟨row, heq ▸ Conf.mem_next.2 (.inr rfl)⟩

theorem inv_reached (h : Reached cfg s) : Inv cfg s := by
  refine h.invariant (fun s hs => ?_) fun s m s' _ hs hok hst =>
    hs.goes (step_goes hs.serving hok hst)
  obtain ⟨⟨now, hauth⟩, -, hserving⟩ := hs
  exact ⟨hauth ▸ .init ⟨_, ⟨now, rfl⟩, rfl⟩, fun x hx => absurd (hserving ▸ hx) List.not_mem_nil⟩

/-- Between the two states nothing is given to the account, and it has nothing left: no row
    of it is in the tables, and the requests served for it were served before. -/
structure Closed (id : String) (s s' : State) : Prop where
  users : ∀ x ∈ s'.auth.conf.state.db.users, x.id ≠ id
  tokens : ∀ t ∈ s'.auth.conf.state.db.tokens, t.userId ≠ id
  serving : ∀ x ∈ s'.serving, x.user.userId = id → x ∈ s.serving
  events : ∃ l, s'.auth.conf.trace = s.auth.conf.trace ++ l ∧ ∀ e ∈ l, ¬Gives id e

/-- What holds of the tables and the events after the deletion. -/
theorem Inv.closed (h : Inv cfg s') (hdel : Deleted s.auth.conf.trace id)
    (htrace : s.auth.conf.trace <+: s'.auth.conf.trace)
    (hserving : ∀ x ∈ s'.serving, x.user.userId = id → x ∈ s.serving) : Closed id s s' := by
  obtain ⟨l₁, l₂, heq⟩ := List.append_of_mem hdel
  obtain ⟨l, hl⟩ := htrace
  obtain ⟨husers, htokens, hevents⟩ := Accounts.closed h.auth (l := l₂ ++ l)
    (by rw [← hl, heq, List.append_assoc, List.cons_append])
  exact ⟨husers, htokens, hserving, l, hl.symm, fun e he => hevents e (List.mem_append_right _ he)⟩

/-- In every run, the deletion of an account is final: from then on no request of it is
    served that was not before, and nothing is given to it, by no interleaving of requests
    in flight, sign-ins and restarts. -/
theorem deletion_closes (h : Reached cfg s) (hdel : Deleted s.auth.conf.trace id)
    (hr : Reach (· = s) (step cfg) Fresh s') : Closed id s s' := by
  have hboth : s.auth.conf.trace <+: s'.auth.conf.trace ∧
      ∀ x ∈ s'.serving, x.user.userId = id → x ∈ s.serving := by
    induction hr with
    | init hs => exact hs ▸ ⟨List.prefix_refl _, fun _ hx _ => hx⟩
    | @step s₁ s₂ m hr hok hst ih =>
      have hg : Goes cfg s₁ s₂ := step_goes (inv_reached (h.append hr)).serving hok hst
      refine ⟨ih.1.trans hg.trace, fun x hx hid => ?_⟩
      rcases hg.serving x hx with hx | ⟨row, heq⟩
      · exact ih.2 x hx hid
      -- its user would have been looked up after the deletion
      · obtain ⟨l₁, l₂, hl⟩ := List.append_of_mem (ih.1.subset hdel)
        obtain ⟨-, -, hevents⟩ := Accounts.closed (inv_reached (h.append (.step hr hok hst))).auth
          (l := l₂ ++ [.world (.lookup x.user.userId (some row))])
          (by rw [heq, Conf.next_trace, hl, List.append_assoc, List.cons_append])
        exact absurd hid (hevents _ (List.mem_append_right _ (List.mem_singleton_self _)))
  exact (inv_reached (h.append hr)).closed hdel hboth.1 hboth.2

/-! ### A deletion while a token is granted -/

/-- The ulid that an event drew. -/
def drew : Accounts.Done → Option String
  | .did _ _ .newUlid x => some x
  | _ => none

/-- Whether a text that comes in is no ulid that was drawn. -/
def checkFresh (s : State) : Move τ → Bool
  | .auth (.handling _ (.of (.text x))) => s.auth.conf.trace.all fun e => drew e != some x
  | _ => true

theorem fresh_of_check {m : Move τ} (h : checkFresh s m = true) : Fresh s m := by
  cases m with
  | auth m =>
    cases m with
    | handling i input =>
      match input with
      | .of (.text x) =>
        intro hd k _ _ n req he
        have hx := List.all_eq_true.1 h _ he
        exact absurd hx (by simp [drew])
      | .of .ok | .of .fail | .of (.google _) | .of (.info _) | .error _ => trivial
    | _ => trivial
  | _ => trivial

/-- The account whose deletion the event is. -/
def deletes : Accounts.Done → Option String
  | .world (.deleteAccount id) => some id
  | _ => none

theorem deleted_of_mem {l : List Accounts.Done} (h : id ∈ l.filterMap deletes) : Deleted l id := by
  obtain ⟨e, he, heq⟩ := List.mem_filterMap.1 h
  unfold deletes at heq
  split at heq
  · cases heq
    exact he
  · cases heq

/-- The configuration of the runs below. -/
def Config.sample : Config (Jwt.Header × Claims × List UInt8) := ⟨.sample, Jwt.sampleLibs⟩

/-- The server with empty tables. -/
def sampleStart : State where
  auth := .start (start ⟨[], [], []⟩ 1000000)
  keys := ⟨"v1", AList.insert "v1" Jwt.sampleKey ∅⟩

/-- The registration of a client with both grants. -/
def registration : List (Serving.Move Auth.Request Input ℕ) :=
  [.request (.register ⟨["https://app.example.com/cb"], ["authorization_code", "refresh_token"],
      none, none⟩), .handling 0 (.of (.text "c1")), .handling 0 (.of .ok)]

/-- A sign-in of the subject, up to the answer of the callback. -/
def signIn (newId code : String) : List (Serving.Move Auth.Request Input ℕ) :=
  [.request (.authorize ⟨"code", "c1", "https://app.example.com/cb", sampleChallenge, "S256", none⟩),
    .handling 0 (.of .ok), .handling 0 (.of .ok),
    .handling 0 (.of (.google ⟨"https://accounts.google.com/o/oauth2/v2/auth", "csrf", "secret"⟩)),
    .handling 0 (.of .ok), .handling 0 (.of (.text "")), .handling 0 (.of .ok),
    .request (.callbackGoogle ⟨"google-code", "csrf"⟩),
    .handling 0 (.of .ok), .handling 0 (.of (.text "google-token")),
    .handling 0 (.of (.info ⟨"sub", none⟩)), .handling 0 (.of (.text newId)), .handling 0 (.of .ok),
    .handling 0 (.of .ok), .handling 0 (.of .ok), .handling 0 (.of (.text code)),
    .handling 0 (.of .ok), .handling 0 (.of (.text "")), .handling 0 (.of .ok)]

/-- A token request for the code, up to the access token. -/
def tokenFor (code : String) : List (Serving.Move Auth.Request Input ℕ) :=
  [.request (.token { firstTokenForm with code := some code }), .handling 0 (.of .ok),
    .handling 0 (.of .ok), .handling 0 (.of .ok)]

/-- The refresh token of a token request, and its answer. -/
def refreshToken (tok : String) : List (Serving.Move Auth.Request Input ℕ) :=
  [.handling 0 (.of (.text tok)), .handling 0 (.of .ok), .handling 0 (.of .ok), .handling 0 (.of .ok)]

/-- A token of the user, signed with `v1`. -/
def sampleBearer : Option (Jwt.Header × Claims × List UInt8) :=
  some (⟨some "v1"⟩, ⟨"u1", "c1", 1000, 4600⟩, Jwt.sampleKey)

/-- The account is deleted while a token request for a second code is in flight. -/
def deletesAccount : List (Move (Jwt.Header × Claims × List UInt8)) :=
  (registration ++ signIn "u1" "code1" ++ tokenFor "code1" ++ refreshToken "tok1" ++
    signIn "unused" "code2" ++ tokenFor "code2").map .auth ++
  [.request sampleBearer .account, .lookup 0 true, .request sampleBearer .mcp, .deleteMe 0 true]

/-- The token request goes on, the first refresh token is presented, a request with the
    access token is checked, and the user signs in again. -/
def afterDeletion : List (Move (Jwt.Header × Claims × List UInt8)) :=
  (refreshToken "tok2").map .auth ++
  [.auth (.request (.token { grantType := "refresh_token", refreshToken := some "tok1" })),
    .auth (.handling 0 (.of .ok)), .auth (.handling 0 (.of .ok)), .auth (.handling 0 (.of .ok)),
    .lookup 0 true] ++
  (signIn "u2" "code3").map .auth

/-- The answers to token requests that give tokens. -/
def granted (s : State) : List (Option String) :=
  s.auth.conf.trace.filterMap fun
    | .answered _ _ (.ok (.tokens t)) => some t.refreshToken
    | _ => none

/-- After the deletion, the same subject signs in to a new account. -/
theorem deletion_closes_signInAgain : ∃ s s', Reached .sample s ∧
    Reach (· = s) (step .sample) Fresh s' ∧
    s'.auth.conf.state.db.users.map (fun u => (u.id, u.subject)) = [("u2", "sub")] ∧
    granted s' = [some "tok1"] ∧ s'.refused = [(1, 401)] ∧ Closed "u1" s s' := by
  obtain ⟨s, hs, hrest⟩ := Option.bind_eq_some_iff.1 (by decide :
    ((exec (step .sample) checkFresh sampleStart deletesAccount).bind fun s =>
      (exec (step .sample) checkFresh s afterDeletion).map fun s' =>
        decide (s.auth.conf.trace.filterMap deletes = ["u1"] ∧
          s'.auth.conf.state.db.users.map (fun u => (u.id, u.subject)) = [("u2", "sub")] ∧
          granted s' = [some "tok1"] ∧ s'.refused = [(1, 401)])) = some true)
  obtain ⟨s', hs', hdata⟩ := Option.map_eq_some_iff.1 hrest
  obtain ⟨hdel, husers, hgranted, hrefused⟩ := of_decide_eq_true hdata
  have hr : Reached .sample s :=
    .exec (fun _ _ => fresh_of_check) (.init ⟨⟨_, rfl⟩, rfl, rfl⟩) hs
  have hr' : Reach (· = s) (step .sample) Fresh s' :=
    .exec (fun _ _ => fresh_of_check) (.init rfl) hs'
  exact ⟨s, s', hr, hr', husers, hgranted, hrefused,
    deletion_closes hr (deleted_of_mem (hdel ▸ List.mem_singleton_self _)) hr'⟩

end Runs

end LlmMemory.WikiAuth.Router
