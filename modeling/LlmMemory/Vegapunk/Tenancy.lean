import LlmMemory.Auth.KeyRotation
import LlmMemory.Auth.Lineage
import LlmMemory.Vegapunk.Guard
import LlmMemory.Vegapunk.Router

/-!
# Tenants

What is done for a call of a tool is done in the schema of a subject who signed in by
Google, to an authorization that the client of the token asked for, or in the shared one;
and users apart have schemas apart (`tenancy`). This holds in every run of the whole
server, with its restarts, however sign-ins, refreshes, look-ups and calls interleave.

What is assumed is that tokens are not forged (`Unforged`): one that verifies says the
claims of a token that was issued. So an admitted user (`Admitted`) has a row, for which
a token was issued, which goes back to a sign-in (`Auth.LineageInv.descends`).
-/

namespace LlmMemory.Vegapunk.Router

open Effects Runs Serving

/-! ## Admitted users -/

/-- A token with the claims was issued. -/
def Issued (l : List Auth.Done) (claims : Auth.Claims) : Prop :=
  ∃ n req ttl r, .did n req (.issueJwt claims.sub claims.clientId ttl) r ∈ l

/-- The user has a row, for which a token was issued. -/
def Admitted (c : Auth.Conf) (user : AuthenticatedUser) : Prop :=
  ∃ claims row, Issued c.trace claims ∧ row ∈ c.state.db.users ∧ row.id = claims.sub ∧
    user = authenticated claims row

/-- A bearer token that verifies says the claims of one that was issued. -/
def Unforged {τ : Type} (cfg : Config τ) (s : State) : Move τ → Prop
  | .mcp bearer _ => ∀ claims, requireAuth cfg.libs s.keys s.auth.conf.state.now bearer = .ok claims →
    Issued s.auth.conf.trace claims
  | _ => True

/-- The trace and the table of users only grow. -/
structure Grows (c c' : Auth.Conf) : Prop where
  trace : c.trace ⊆ c'.trace
  users : c.state.db.users ⊆ c'.state.db.users

section Grows

variable {c c' : Auth.Conf}

theorem Grows.refl (c : Auth.Conf) : Grows c c := ⟨List.Subset.refl _, List.Subset.refl _⟩

theorem Issued.grows (hg : Grows c c') {claims : Auth.Claims} (h : Issued c.trace claims) :
    Issued c'.trace claims :=
  h.imp fun _ h => h.imp fun _ h => h.imp fun _ h => h.imp fun _ h => hg.trace h

theorem Admitted.grows (hg : Grows c c') {user : AuthenticatedUser} (h : Admitted c user) :
    Admitted c' user :=
  h.imp fun _ h => h.imp fun _ h => ⟨h.1.grows hg, hg.users h.2.1, h.2.2⟩

end Grows

/-! ## What every step keeps -/

/-- The authorization server keeps to its protocols, and the users whose calls are served,
    or made, are admitted. -/
structure Inv {τ : Type} (cfg : Config τ) (s : State) : Prop where
  provisioning : (Auth.provisioning cfg.auth).Sound (fun _ _ _ _ => True) s.auth
  lineage : (Auth.lineage cfg.auth).Sound (fun _ _ _ _ => True) s.auth
  tools : Vegapunk.Reached cfg.tools (fun _ _ => True) s.tools
  checking : ∀ x ∈ s.checking, Issued s.auth.conf.trace x.claims
  serving : ∀ x ∈ s.serving, Admitted s.auth.conf x.user
  calls : ∀ user params, About (.tool user params) s.tools → Admitted s.auth.conf user

/-- The authorization server, after it was in `c`, keeps to its protocols. -/
structure Keeps {τ : Type} (cfg : Config τ) (c : Auth.Conf) (auth : Auth.Sys) : Prop where
  provisioning : (Auth.provisioning cfg.auth).Sound (fun _ _ _ _ => True) auth
  lineage : (Auth.lineage cfg.auth).Sound (fun _ _ _ _ => True) auth
  grows : Grows c auth.conf

section Steps

variable {τ : Type} {cfg : Config τ} {s s' : State}

/-- The authorization server stays as it is. -/
theorem Inv.same (h : Inv cfg s) : Keeps cfg s.auth.conf s.auth :=
  ⟨h.provisioning, h.lineage, .refl _⟩

theorem Inv.auth_step {auth : Auth.Sys} {m : Serving.Move Auth.Request Auth.Input Auth.World}
    (h : Inv cfg s) (hst : (Auth.server cfg.auth).step s.auth m = some auth) :
    Keeps cfg s.auth.conf auth := by
  have hallows : (Auth.lineage cfg.auth).Allows s.auth m := by
    cases m with
    | handling i input => exact fun _ _ _ _ _ => trivial
    | _ => trivial
  obtain ⟨hprov, hev⟩ := h.provisioning.step Auth.provisioning_meets
    (Auth.provisioning_allows s.auth m) hst
  refine ⟨hprov, (h.lineage.step Auth.lineage_meets hallows hst).1, ?_⟩
  rcases hev with heq | hev
  · rw [heq]
    exact .refl _
  · exact ⟨hev.trace.subset, hev.keeps⟩

/-- A restart forgets the sessions, and what was in flight. -/
theorem Inv.auth_restart (h : Inv cfg s) : Keeps cfg s.auth.conf (dropSessions s.auth) := by
  have hprov := h.provisioning.inv
  have hline := h.lineage.inv
  exact ⟨⟨⟨hprov.users, hprov.found, hprov.grounded⟩, fun _ hh => absurd hh List.not_mem_nil⟩,
    ⟨⟨fun _ hx => absurd hx List.not_mem_nil, fun _ hx => absurd hx List.not_mem_nil, hline.tokens,
      hline.grounded⟩, fun _ hh => absurd hh List.not_mem_nil⟩,
    ⟨List.Subset.refl _, List.Subset.refl _⟩⟩

/-- The moves of the tools by which no call comes in. -/
abbrev quietly (_ : Vegapunk.Sys) (m : Serving.Move Vegapunk.Request Vegapunk.Input Vegapunk.World) :
    Prop := ∀ req, m ≠ .request req

/-- New users are a run of the tools. -/
theorem addUsers_reach {tools : Vegapunk.Sys} {rows : List Auth.User} :
    Reach (· = tools) (server cfg.tools).step quietly (addUsers cfg tools rows) := by
  refine Reach.tryAll (.init rfl) fun s m hm req heq => ?_
  obtain ⟨u, -, rfl⟩ := List.mem_map.1 hm
  cases heq

theorem dropCalls_reach {tools : Vegapunk.Sys} :
    Reach (· = tools) (server cfg.tools).step quietly (dropCalls cfg tools) := by
  refine Reach.tryAll (.init rfl) fun s m hm req heq => ?_
  rw [List.eq_of_mem_replicate hm] at heq
  cases heq

theorem step_reach {tools : Vegapunk.Sys}
    {m : Serving.Move Vegapunk.Request Vegapunk.Input Vegapunk.World}
    (hst : (server cfg.tools).step s.tools m = some tools) (hm : ∀ req, m ≠ .request req) :
    Reach (· = s.tools) (server cfg.tools).step quietly tools :=
  .step (.init rfl) hm hst

/-- The tools go on without a new call, and the authorization server grows. -/
theorem Inv.goes {auth : Auth.Sys} {tools : Vegapunk.Sys} {keys : Auth.Jwt.JwtKeys}
    {checking : List Checking} {serving : List Session} {refused : List ℕ} (h : Inv cfg s)
    (hauth : Keeps cfg s.auth.conf auth)
    (htools : Reach (· = s.tools) (server cfg.tools).step quietly tools)
    (hchecking : ∀ x ∈ checking, x ∈ s.checking ∨ Issued s.auth.conf.trace x.claims)
    (hserving : ∀ x ∈ serving, (∃ x' ∈ s.serving, x'.user = x.user) ∨
      Admitted s.auth.conf x.user) :
    Inv cfg ⟨auth, tools, keys, checking, serving, refused⟩ := by
  obtain ⟨hprov, hline, hg⟩ := hauth
  refine ⟨hprov, hline, h.tools.append (htools.mono fun _ _ _ _ _ _ => trivial), fun x hx => ?_,
    fun x hx => ?_, fun user params ha => (h.calls user params (about_of_reach htools ha)).grows hg⟩
  · rcases hchecking x hx with hx | hissued
    · exact (h.checking x hx).grows hg
    · exact hissued.grows hg
  · rcases hserving x hx with ⟨x', hx', huser⟩ | hadmitted
    · exact (huser ▸ h.serving x' hx').grows hg
    · exact hadmitted.grows hg

/-- A look-up that finds a row admits its user. -/
theorem Inv.admitted (h : Inv cfg s) {x : Checking} (hx : x ∈ s.checking)
    {input : Auth.Input} {found : Except Unit (Option Auth.User)} {user : AuthenticatedUser}
    (hfound : Auth.answer (findById s.auth.conf.state.db x.claims.sub) () input = some found)
    (huser : admitUser x.claims found = .ok user) : Admitted s.auth.conf user := by
  cases found with
  | error e => cases huser
  | ok row =>
    cases row with
    | none => cases huser
    | some row =>
      cases huser
      cases input with
      | ok =>
        have hrow : findById s.auth.conf.state.db x.claims.sub = some row :=
          Except.ok.inj (Option.some.inj hfound)
        have hid := List.find?_some hrow
        rw [decide_eq_true_eq] at hid
        exact ⟨x.claims, row, h.checking x hx, List.mem_of_find?_eq_some hrow, hid, rfl⟩
      | _ => cases hfound

/-- A call that begins is on behalf of an admitted user. -/
theorem Inv.call {i : ℕ} (h : Inv cfg s) (hst : nextCall cfg s i = some s') : Inv cfg s' := by
  rw [nextCall] at hst
  split at hst
  · next user params calls current hi =>
    split at hst
    · cases hst
    · obtain ⟨tools, htools, rfl⟩ := Option.map_eq_some_iff.1 hst
      have huser := h.serving _ (List.mem_of_getElem? hi)
      refine ⟨h.provisioning, h.lineage, .step h.tools trivial htools, h.checking, fun x hx => ?_,
        fun user' params' ha => ?_⟩
      · rcases List.mem_or_eq_of_mem_set hx with hx | rfl
        · exact h.serving x hx
        · exact huser
      · rcases about_step htools ha with ha | heq
        · exact h.calls user' params' ha
        · cases heq
          exact huser
  · cases hst

/-- A step keeps the invariant. -/
theorem Inv.step {m : Move τ} (h : Inv cfg s) (hok : Unforged cfg s m)
    (hst : Router.step cfg s m = some s') : Inv cfg s' := by
  have hold : ∀ x ∈ s.serving, (∃ x' ∈ s.serving, x'.user = x.user) ∨ Admitted s.auth.conf x.user :=
    fun x hx => .inl ⟨x, hx, rfl⟩
  cases m with
  | auth m =>
    obtain ⟨auth, hauth, rfl⟩ := Option.map_eq_some_iff.1 hst
    exact h.goes (h.auth_step hauth) addUsers_reach (fun _ => .inl) hold
  | mcp bearer body =>
    rw [Router.step] at hst
    split at hst
    · cases hst
      exact h.goes h.same (.init rfl) (fun _ => .inl) hold
    · next claims hclaims =>
      cases hst
      refine h.goes h.same (.init rfl) (fun x hx => ?_) hold
      rcases List.mem_append.1 hx with hx | hx
      · exact .inl hx
      · rw [List.mem_singleton.1 hx]
        exact .inr (hok claims hclaims)
  | lookup i input =>
    obtain ⟨x, hi, hst⟩ := Option.bind_eq_some_iff.1 hst
    obtain ⟨found, hfound, rfl⟩ := Option.map_eq_some_iff.1 hst
    have hmem := List.mem_of_getElem? hi
    split
    · exact h.goes h.same (.init rfl) (fun _ hx => .inl (List.mem_of_mem_eraseIdx hx)) hold
    · next user huser =>
      refine h.goes h.same (.init rfl) (fun _ hx => .inl (List.mem_of_mem_eraseIdx hx))
        fun y hy => ?_
      rcases List.mem_append.1 hy with hy | hy
      · exact hold y hy
      · rw [List.mem_singleton.1 hy]
        exact .inr (h.admitted hmem hfound huser)
  | call i => exact h.call hst
  | tool i input =>
    obtain ⟨tools, htools, rfl⟩ := Option.map_eq_some_iff.1 hst
    exact h.goes h.same (step_reach htools fun _ heq => by cases heq) (fun _ => .inl) hold
  | disconnect i =>
    obtain ⟨x, hi, hst⟩ := Option.bind_eq_some_iff.1 hst
    obtain ⟨tools, htools, rfl⟩ := Option.map_eq_some_iff.1 hst
    exact h.goes h.same (step_reach htools fun _ heq => by cases heq) (fun _ => .inl)
      fun y hy => hold y (List.mem_of_mem_eraseIdx hy)
  | restart keys =>
    cases hst
    exact h.goes h.auth_restart dropCalls_reach (fun _ hx => absurd hx List.not_mem_nil)
      fun _ hx => absurd hx List.not_mem_nil

end Steps

/-! ## Runs -/

section Runs

variable {τ : Type} {cfg : Config τ} {s : State}

/-- Nobody is admitted at the start. -/
theorem Inv.start (h : Starts s) : Inv cfg s := by
  obtain ⟨⟨now, hauth⟩, htools, hchecking, hserving⟩ := h
  obtain ⟨auth, tools, keys, checking, serving, refused⟩ := s
  dsimp only at hauth htools hchecking hserving
  subst hauth htools hchecking hserving
  refine ⟨.start ⟨⟨by simp, by simp, by simp⟩, fun _ _ _ _ ⟨_, he⟩ => absurd he List.not_mem_nil,
    .nil⟩, .start ⟨by simp, by simp, by simp, .nil⟩,
    .init ⟨{ users := [], ownership := [] }, ⟨List.nodup_nil, rfl, rfl⟩, rfl⟩, by simp, by simp,
    fun user params ha => ?_⟩
  rcases ha with ⟨h, hh, -⟩ | ⟨id, o, r, he⟩ | ⟨id, a, he⟩
  · exact absurd hh List.not_mem_nil
  · exact absurd he List.not_mem_nil
  · exact absurd he List.not_mem_nil

/-- An admitted user signed in, and has the schema of the subject. -/
theorem Inv.signedIn (h : Inv cfg s) {user : AuthenticatedUser}
    (huser : Admitted s.auth.conf user) : ∃ subject row,
    Auth.SignedIn s.auth.conf.trace subject row user.clientId ∧ user.userId = row.id ∧
      user.vegapunkSchema = "user-" ++ subject := by
  obtain ⟨claims, row, ⟨n, req, ttl, r, hissued⟩, hrow, hid, rfl⟩ := huser
  have hdesc := h.lineage.inv.descends hissued rfl
  obtain ⟨subject, row', hin, hid'⟩ :=
    Auth.signedIn_of_descends h.lineage.inv h.provisioning.inv hdesc
  obtain ⟨hrow', -, -, hschema⟩ := hin.row h.provisioning.inv
  -- the row that was looked up is the one that the callback found
  obtain rfl := h.provisioning.inv.users.ids row hrow row' hrow' (hid.trans hid'.symm)
  exact ⟨subject, row, hin, rfl, hschema⟩

/-- In the run, each call is made in the schema of a subject who signed in, or in the
    shared one. -/
structure Tenancy (cfg : Config τ) (s : State) : Prop where
  own : ∀ n user params o r, .did n (.tool user params) o r ∈ s.tools.conf.trace →
    Guarded cfg.tools user o
  users : ∀ user params, About (.tool user params) s.tools → ∃ subject row,
    Auth.SignedIn s.auth.conf.trace subject row user.clientId ∧ user.userId = row.id ∧
      user.vegapunkSchema = "user-" ++ subject
  apart : ∀ user params user' params', About (.tool user params) s.tools →
    About (.tool user' params') s.tools → user.userId ≠ user'.userId →
    user.vegapunkSchema ≠ user'.vegapunkSchema

/-- In every run of the server, if tokens are not forged, what is done for a call is in
    the schema of a subject of Google who signed in to an authorization for the client that
    calls, or in the shared one; and different users have different schemas. -/
theorem tenancy (h : Reached cfg (Unforged cfg) s) : Tenancy cfg s := by
  have hinv : Inv cfg s := h.invariant (fun _ => Inv.start) fun _ _ _ _ hs hok => hs.step hok
  have hguarded : Doing (GuardedIn cfg.tools) (ListsIn cfg.tools) s.tools :=
    Server.does handle_does hinv.tools
  have husers := fun user params ha => hinv.signedIn (hinv.calls user params ha)
  refine ⟨fun n user params o r he => hguarded.did n _ o r he, husers,
    fun user params user' params' ha ha' hne hschema => hne ?_⟩
  obtain ⟨subject, row, hin, hid, hown⟩ := husers user params ha
  obtain ⟨subject', row', hin', hid', hown'⟩ := husers user' params' ha'
  have hsubject : subject = subject' := not_imp_comm.1 Auth.schema_ne
    (fun hne => hne ((hown.symm.trans hschema).trans hown'))
  subst hsubject
  obtain ⟨hrow, hgoogle, hsub, -⟩ := hin.row hinv.provisioning.inv
  obtain ⟨hrow', hgoogle', hsub', -⟩ := hin'.row hinv.provisioning.inv
  -- one subject has one row
  rw [hid, hid', hinv.provisioning.inv.users.subjects row hrow row' hrow'
    (hgoogle.trans hgoogle'.symm) (hsub.trans hsub'.symm)]

/-! ### A call after a restart -/

/-- The event issues a token of the user and the client of the claims. -/
def issues (claims : Auth.Claims) : Auth.Done → Bool
  | .did _ _ (.issueJwt userId clientId _) _ => userId = claims.sub ∧ clientId = claims.clientId
  | _ => false

/-- Whether the token, if it verifies, was issued. -/
def checkUnforged (cfg : Config τ) (s : State) : Move τ → Bool
  | .mcp bearer _ => match requireAuth cfg.libs s.keys s.auth.conf.state.now bearer with
    | .ok claims => s.auth.conf.trace.any (issues claims)
    | .error _ => true
  | _ => true

theorem unforged_of_check {m : Move τ} (h : checkUnforged cfg s m = true) : Unforged cfg s m := by
  cases m with
  | mcp bearer body =>
    intro claims hclaims
    rw [checkUnforged, hclaims] at h
    obtain ⟨e, he, hissues⟩ := List.any_eq_true.1 h
    unfold issues at hissues
    split at hissues
    · next n req userId clientId ttl r =>
      obtain ⟨rfl, rfl⟩ := of_decide_eq_true hissues
      exact ⟨n, req, ttl, r, he⟩
    · cases hissues
  | _ => trivial

/-- The configuration of the runs below. -/
def Config.sample : Config (Auth.Jwt.Header × Auth.Claims × List UInt8) :=
  ⟨Auth.Config.rotating.pkgs, Auth.Jwt.sampleLibs, .sample⟩

/-- The keys with `v1`. -/
def sampleKeys : Auth.Jwt.JwtKeys := ⟨"v1", AList.insert "v1" Auth.Jwt.sampleKey ∅⟩

/-- The server with empty tables. -/
def sampleStart : State where
  auth := .start { now := 1000000, db := ⟨[], [], []⟩ }
  tools := .start { users := [], ownership := [] }
  keys := sampleKeys

/-- A search in a schema of its own. -/
def sampleBody : Json :=
  .obj [("jsonrpc", .str "2.0"), ("id", .int 1), ("method", .str "tools/call"),
    ("params", sampleCall "search" [("query", .str "x"), ("schema", .str "user-other")])]

/-- The user signs in, and calls with the first token after a restart. -/
def callAfterRestart : List (Move (Auth.Jwt.Header × Auth.Claims × List UInt8)) :=
  Auth.firstRotation.map .auth ++
  [.restart sampleKeys,
    .mcp (some (⟨some "v1"⟩, ⟨"u1", "c1", 1000, 4600⟩, Auth.Jwt.sampleKey)) (some sampleBody),
    .mcp none (some sampleBody), .lookup 0 .ok, .call 0,
    .tool 0 (answerSearch (.ok ⟨[], "", 0, []⟩)), .tool 0 (answerSearch (.ok ⟨[], "", 0, []⟩))]

/-- The token of a user is good after a restart. -/
theorem tenancy_after_restart : ∃ s, Reached .sample (Unforged .sample) s ∧
    s.tools.conf.trace.filterMap searchedSchema = ["user-sub", "shared"] ∧ s.refused = [401] ∧
    Tenancy .sample s := by
  obtain ⟨s, hs, hboth⟩ : ∃ s, exec (step .sample) (checkUnforged .sample) sampleStart
      callAfterRestart = some s ∧ (s.tools.conf.trace.filterMap searchedSchema, s.refused) =
        (["user-sub", "shared"], [401]) :=
    Option.map_eq_some_iff.1 (by decide)
  obtain ⟨hsearched, hrefused⟩ := Prod.mk.inj hboth
  have hr : Reached .sample (Unforged .sample) s :=
    .exec (fun _ _ => unforged_of_check) (.init ⟨⟨_, rfl⟩, rfl, rfl, rfl⟩) hs
  exact ⟨s, hr, hsearched, hrefused, tenancy hr⟩

end Runs

end LlmMemory.Vegapunk.Router
