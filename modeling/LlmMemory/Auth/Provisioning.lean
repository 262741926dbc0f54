import LlmMemory.Auth.Runs
import LlmMemory.Auth.Tables

/-!
# The provisioning of users

A callback from Google provisions the user it is about in three statements: a
look-up, an insert that does nothing if there is a row already, and a look-up.
However many callbacks do so side by side, users are stable
(`provisioning_stable`): all the callbacks about a subject get the same row,
rows never change, and different subjects have different ids and schemas.

The rows found stay in the table, since the statements only add rows to it
(`UsersGrow`), and the table has one row for each subject and each id
(`UsersInv`).
-/

namespace LlmMemory.Auth

open Effects Runs Serving

/-! ## The table of users -/

/-- The constraints on the table of users, and the schema of the users that
    sign in with Google. -/
structure UsersInv (db : Db) : Prop where
  ids : ∀ u ∈ db.users, ∀ u' ∈ db.users, u.id = u'.id → u = u'
  subjects : ∀ u ∈ db.users, ∀ u' ∈ db.users,
    u.provider = u'.provider → u.subject = u'.subject → u = u'
  schemas : ∀ u ∈ db.users, u.provider = "google" → u.vegapunkSchema = "user-" ++ u.subject

/-- No user is lost. -/
def UsersGrow (s s' : AsState) : Prop := s.db.users ⊆ s'.db.users

/-- A user found has the subject looked up. -/
theorem Db.findUser_some {db : Db} {provider subject : String} {u : User}
    (h : db.findUser provider subject = some u) :
    u ∈ db.users ∧ u.provider = provider ∧ u.subject = subject := by
  have hu := List.find?_some h
  rw [decide_eq_true_eq] at hu
  exact ⟨List.mem_of_find?_eq_some h, hu⟩

theorem Db.insertUser_users {db db' : Db} {u : User} {row : Option User}
    (h : db.insertUser u = some (row, db')) : db.users ⊆ db'.users := by
  rw [insertUser] at h
  split at h
  · cases h
    exact List.Subset.refl _
  · split at h <;> cases h
    exact List.subset_append_left _ _

/-- An insert adds the row, if it adds one, within the constraints. -/
theorem UsersInv.insertUser {db db' : Db} {u : User} {row : Option User} (h : UsersInv db)
    (hu : u.provider = "google" → u.vegapunkSchema = "user-" ++ u.subject)
    (hins : db.insertUser u = some (row, db')) : UsersInv db' := by
  rw [Db.insertUser] at hins
  split at hins
  · cases hins
    exact h
  · rename_i hsubject
    split at hins
    · cases hins
    · rename_i hid
      cases hins
      have hnew : ∀ v ∈ db.users,
          v.id ≠ u.id ∧ ¬(v.provider = u.provider ∧ v.subject = u.subject) := fun v hv =>
        ⟨fun he => hid ⟨v, hv, he⟩, fun he => hsubject ⟨v, hv, he⟩⟩
      refine ⟨fun v hv v' hv' he => ?_, fun v hv v' hv' hp hs => ?_, fun v hv => ?_⟩
      · simp only [List.mem_append, List.mem_singleton] at hv hv'
        rcases hv with hv | rfl <;> rcases hv' with hv' | rfl
        · exact h.ids v hv v' hv' he
        · exact absurd he (hnew v hv).1
        · exact absurd he.symm (hnew v' hv').1
        · rfl
      · simp only [List.mem_append, List.mem_singleton] at hv hv'
        rcases hv with hv | rfl <;> rcases hv' with hv' | rfl
        · exact h.subjects v hv v' hv' hp hs
        · exact absurd ⟨hp, hs⟩ (hnew v hv).2
        · exact absurd ⟨hp.symm, hs.symm⟩ (hnew v' hv').2
        · rfl
      · rcases List.mem_append.1 hv with hv | hv
        · exact h.schemas v hv
        · rw [List.mem_singleton.1 hv]
          exact hu

/-- An operation leaves the users as they are, or inserts one. -/
theorem DbStep.users {pkgs : Packages} {db db' : Db} {o : Op} {r : o.Ans}
    (h : DbStep pkgs db o r db') : db'.users = db.users ∨
      ∃ u row, o = .insertUser u ∧ db.insertUser u = some (row, db') := by
  cases h with
  | same hw => exact .inl rfl
  | registerClient hc hins =>
    rw [Db.insertClient] at hins
    split at hins <;> cases hins
    exact .inl rfl
  | touchLastSeen => exact .inl rfl
  | insertUser hins => exact .inr ⟨_, _, rfl, hins⟩
  | createRefresh hins =>
    rw [Db.insertToken] at hins
    split at hins <;> cases hins
    exact .inl rfl
  | validateAndRevoke hx =>
    rw [Db.validateAndRevoke]
    split <;> exact .inl rfl
  | revoke => exact .inl rfl

theorem UsersInv.congr {db db' : Db} (h : UsersInv db) (hu : db'.users = db.users) :
    UsersInv db' := by
  refine ⟨?_, ?_, ?_⟩
  · rw [hu]
    exact h.ids
  · rw [hu]
    exact h.subjects
  · rw [hu]
    exact h.schemas

/-! ## The rows that callbacks get -/

/-- The `id`-th request found the row `u` for the subject. -/
def Found (l : List Done) (id : ℕ) (provider subject : String) (u : User) : Prop :=
  ∃ req, .did id req (.findUser provider subject) (.ok (some u)) ∈ l

/-- Google told the `id`-th request that it is about the subject. -/
def Identified (l : List Done) (id : ℕ) (subject : String) : Prop :=
  ∃ req token info, .did id req (.userinfo token) (.ok info) ∈ l ∧ info.sub = subject

/-- The `id`-th request, a callback from Google about the subject, got the row `u`. -/
structure Provisioned (l : List Done) (id : ℕ) (subject : String) (u : User) : Prop where
  identified : Identified l id subject
  found : Found l id "google" subject u

/-- What an event stands on: a code is for the row that its request got, and the
    schema ensured is that of the row. -/
def FoundGrounds (cfg : Config) (l : List Done) : Done → Prop
  | .did id _ (.putCode _ entry) _ =>
    ∃ subject u, Provisioned l id subject u ∧ entry.userId = u.id
  | .did id _ (.ensureSchema name) _ => name = cfg.sharedSchema ∨
      ∃ subject u, Provisioned l id subject u ∧ name = u.vegapunkSchema
  | _ => True

/-- The users are distinct, and those that requests found are among them. -/
structure ProvisioningInv (cfg : Config) (c : Conf) : Prop where
  users : UsersInv c.state.db
  found : ∀ id provider subject u, Found c.trace id provider subject u →
    u ∈ c.state.db.users ∧ u.provider = provider ∧ u.subject = subject
  grounded : Logs.Grounded (FoundGrounds cfg) c.trace

/-- The protocol of provisioning: users are only added. -/
def provisioning (cfg : Config) :
    Protocol AuthSig Request (Except Rejection Response) Input World AsState where
  server := server cfg
  inv := ProvisioningInv cfg
  keeps := UsersGrow

theorem Found.mono {l l' : List Done} (hl : l ⊆ l') {id : ℕ} {provider subject : String} {u : User}
    (h : Found l id provider subject u) : Found l' id provider subject u :=
  h.imp fun _ he => hl he

theorem Identified.mono {l l' : List Done} (hl : l ⊆ l') {id : ℕ} {subject : String}
    (h : Identified l id subject) : Identified l' id subject :=
  h.imp fun _ h => h.imp fun _ h => h.imp fun _ h => ⟨hl h.1, h.2⟩

theorem Provisioned.mono {l l' : List Done} (hl : l ⊆ l') {id : ℕ} {subject : String} {u : User}
    (h : Provisioned l id subject u) : Provisioned l' id subject u :=
  ⟨h.identified.mono hl, h.found.mono hl⟩

section Handlers

variable {cfg : Config} {n : ℕ} {req : Request} {input : Input}

/-- A look-up that finds a row finds one of the table. -/
theorem findUser_perform {s s' : AsState} {provider subject : String} {u : User}
    (h : perform cfg.pkgs n req input (.findUser provider subject) s = some (.ok (some u), s')) :
    s'.db.findUser provider subject = some u := by
  obtain ⟨x, hx, he⟩ := Option.map_eq_some_iff.1 h
  cases he
  cases input with
  | ok => exact Except.ok.inj (Option.some.inj hx)
  | _ => cases hx

/-- Whoever does an operation, rows stay, and those found are in the table. -/
theorem provisioning_evolves {c : Conf} {o : Op} {r : o.Ans} {s : AsState}
    (hp : (provisioning cfg).server.perform n req input o c.state = some (r, s))
    (hu : ∀ u, o = .insertUser u → u.provider = "google" → u.vegapunkSchema = "user-" ++ u.subject)
    (hg : FoundGrounds cfg c.trace (.did n req o r)) :
    (provisioning cfg).Evolves c (c.next s (.did n req o r)) := by
  have hp' : perform cfg.pkgs n req input o c.state = some (r, s) := hp
  have hstep := (dbStep_perform hp').users
  have hgrow : UsersGrow c.state s := by
    rcases hstep with heq | ⟨u, row, -, hins⟩
    · show c.state.db.users ⊆ s.db.users
      rw [heq]
      exact List.Subset.refl _
    · exact Db.insertUser_users hins
  refine ⟨⟨[_], rfl⟩, hgrow, fun h => ⟨?_, ?_, h.grounded.snoc hg⟩⟩
  · rcases hstep with heq | ⟨u, row, ho, hins⟩
    · exact h.users.congr heq
    · exact h.users.insertUser (hu u ho) hins
  · rintro id provider subject u ⟨req', he⟩
    rcases Conf.mem_next.1 he with he | he
    · obtain ⟨hmem, heq⟩ := h.found id provider subject u ⟨req', he⟩
      exact ⟨hgrow hmem, heq⟩
    · cases he
      exact Db.findUser_some (findUser_perform hp')

theorem provisioning_free {o : Op} (ho : o.provisions = false) : (provisioning cfg).Free o := by
  intro n req input c r s _ _ hp
  refine provisioning_evolves hp (fun u hu => by rw [hu] at ho; cases ho) ?_
  cases o with
  | putCode key entry => cases ho
  | ensureSchema name => cases ho
  | _ => trivial

variable {P : Lasting (provisioning cfg)}

theorem free_obeys {γ : Type} {o : Op} {k : o.Ans → Except Rejection γ}
    (ho : o.provisions = false) :
    Obeys (provisioning cfg) n req P (Attempt.call o k) fun _ => P :=
  Obeys.free (.call (provisioning_free ho))

/-- Google told the request about the subject. -/
def identified (cfg : Config) (n : ℕ) (subject : String) : Lasting (provisioning cfg) :=
  ⟨fun c => Identified c.trace n subject, fun ht _ h => h.mono ht.subset⟩

/-- The request found the row for the subject. -/
def foundRow (cfg : Config) (n : ℕ) (subject : String) (u : User) : Lasting (provisioning cfg) :=
  ⟨fun c => Found c.trace n "google" subject u, fun ht _ h => h.mono ht.subset⟩

/-- The user info identifies the request. -/
theorem userinfo_provisions {token : String}
    {k : Except Unit GoogleUserInfo → Except Rejection GoogleUserInfo}
    (hk : ∀ r info, k r = .ok info → r = .ok info) :
    Obeys (provisioning cfg) n req P (Attempt.call (.userinfo token) k) fun info =>
      identified cfg n info.sub :=
  Obeys.post (Obeys.keep (provisioning_free (o := .userinfo token) rfl))
    fun info _ ⟨_, r, hr, hmem⟩ => ⟨req, token, info, hk r info hr ▸ hmem, rfl⟩

/-- The row that is found is recorded. -/
theorem findUser_provisions {subject : String} :
    Obeys (provisioning cfg) n req P (query (.findUser "google" subject) id) fun x =>
      P.and (.found (foundRow cfg n subject) x) := by
  refine Obeys.post (Obeys.keep (provisioning_free (o := .findUser "google" subject) rfl))
    fun x c h => ⟨h.1, fun u hu => ?_⟩
  obtain ⟨-, r, hr, hmem⟩ := h
  cases r with
  | ok y =>
    cases hr
    subst hu
    exact ⟨req, hmem⟩
  | error _ => cases hr

/-- The provisioning ends with a row that a look-up of the same request found. -/
theorem findOrProvision_provisions {newId subject : String} {email : Option String} :
    Obeys (provisioning cfg) n req P
      (findOrProvision newId "google" subject email ("user-" ++ subject))
      fun u => P.and (foundRow cfg n subject u) := by
  refine Obeys.bind findUser_provisions fun x => ?_
  cases x with
  | some existing => exact Obeys.pure fun _ h => ⟨h.1, h.2 existing rfl⟩
  | none =>
    refine Obeys.bind (free_obeys rfl) fun now => ?_
    -- the insert is of a user of the schema, whether it adds a row or not
    refine Obeys.bind (C := fun _ => P) (Obeys.call fun c r s input hc _ hp => ?_) fun _ => ?_
    · have hev := provisioning_evolves hp (fun u hu _ => by cases hu; rfl) trivial
      exact ⟨hev, fun _ _ => P.lasts hev.trace hev.keeps hc.2.1⟩
    · refine Obeys.bind findUser_provisions fun y => ?_
      cases y with
      | some user => exact Obeys.pure fun _ h => ⟨h.1, h.2 user rfl⟩
      | none => exact Obeys.fail

/-- The schemas ensured are the shared one and that of the user provisioned. -/
theorem ensureSchema_provisions {name : String}
    {k : Except Unit Unit → Except Rejection (Except Unit Unit)}
    (h : ∀ c, P.holds c → name = cfg.sharedSchema ∨
      ∃ subject u, Provisioned c.trace n subject u ∧ name = u.vegapunkSchema) :
    Obeys (provisioning cfg) n req P (Attempt.call (.ensureSchema name) k) fun _ => P :=
  Obeys.call fun c r s input hc _ hp => by
    have hev := provisioning_evolves hp (fun u hu => by cases hu) (h c hc.2)
    exact ⟨hev, fun _ _ => P.lasts hev.trace hev.keeps hc.2⟩

/-- The callback provisions the subject it identified. -/
theorem callbackGoogle_provisions {cb : CallbackParams} :
    Obeys (provisioning cfg) n req P (callbackGoogle cfg.sharedSchema cb) fun _ => .none := by
  refine Obeys.bind (free_obeys rfl) fun x => ?_
  cases x with
  | none => exact Obeys.fail
  | some pending =>
    refine Obeys.bind (free_obeys rfl) fun token => ?_
    refine Obeys.bind (userinfo_provisions fun r info h => ?_) fun info => ?_
    · cases r <;> cases h
      rfl
    refine Obeys.bind (free_obeys rfl) fun newId => ?_
    refine Obeys.bind findOrProvision_provisions fun user => ?_
    refine Obeys.bind (ensureSchema_provisions fun c hc => .inr ⟨_, _, ⟨hc.1, hc.2⟩, rfl⟩)
      fun _ => ?_
    refine Obeys.bind (ensureSchema_provisions fun _ _ => .inl rfl) fun _ => ?_
    refine Obeys.bind (free_obeys rfl) fun code => ?_
    refine Obeys.bind (free_obeys rfl) fun now => ?_
    -- the code is for the row that was found
    refine Obeys.bind (C := fun _ => .none) (Obeys.call fun c r s input hc _ hp => ?_) fun _ =>
      Obeys.pure fun _ _ => trivial
    exact ⟨provisioning_evolves hp (fun u hu => by cases hu) ⟨_, _, ⟨hc.2.1, hc.2.2⟩, rfl⟩,
      fun _ _ => trivial⟩

theorem handle_provisions :
    Obeys (provisioning cfg) n req .none (handle cfg req) fun _ => .none := by
  have hother : FreeProgram (provisioning cfg) (handle cfg req) →
      Obeys (provisioning cfg) n req .none (handle cfg req) fun _ => .none :=
    fun h => Obeys.free h
  cases req with
  | callbackGoogle cb => exact callbackGoogle_provisions
  | _ => exact hother (handle_only (fun _ => provisioning_free) fun _ h => by cases h)

end Handlers

/-! ## Runs -/

section Runs

variable {cfg : Config} {n : ℕ} {req : Request}

/-- A change that leaves the users alone, and an event that stands on nothing. -/
theorem provisioning_evolves_of_eq {c : Conf} {s : AsState} {e : Done}
    (hs : s.db.users = c.state.db.users) (hg : ∀ l, FoundGrounds cfg l e)
    (he : ∀ id req o r, e ≠ .did id req o r) : (provisioning cfg).Evolves c (c.next s e) := by
  refine ⟨⟨[e], rfl⟩, ?_, fun h => ⟨h.users.congr hs, ?_, h.grounded.snoc (hg _)⟩⟩
  · show c.state.db.users ⊆ s.db.users
    rw [hs]
    exact List.Subset.refl _
  · rintro id provider subject u ⟨req, hmem⟩
    rw [Conf.next_state, hs]
    refine h.found id provider subject u ⟨req, ?_⟩
    exact (Conf.mem_next.1 hmem).resolve_right fun h => he _ _ _ _ h.symm

/-- The server keeps the protocol. -/
theorem provisioning_meets : (provisioning cfg).Meets fun _ _ _ _ => True where
  handle n req c h := Triple.post handle_provisions (fun _ _ _ => trivial) c ⟨h, trivial⟩
  finish n req a c _ _ :=
    provisioning_evolves_of_eq rfl (fun _ => trivial) fun _ _ _ _ h => by cases h
  world w c s _ _ hw := by
    cases hw
    cases w <;> exact provisioning_evolves_of_eq rfl (fun _ => trivial) fun _ _ _ _ h => by cases h

variable {ok : Sys → Serving.Move Request Input World → Prop} {s : Sys}

theorem provisioning_allows (s : Sys) (m : Serving.Move Request Input World) :
    (provisioning cfg).Allows s m := by
  cases m with
  | handling i input => exact fun _ _ _ _ _ => trivial
  | _ => trivial

/-- Every system reached from distinct users is sound. -/
theorem provisioning_sound (h : Reached cfg UsersInv ok s) :
    (provisioning cfg).Sound (fun _ _ _ _ => True) s := by
  refine provisioning_meets.sound (fun st hst => ?_) (fun s m _ => provisioning_allows s m) h
  exact ⟨hst.1, fun _ _ _ _ ⟨_, he⟩ => absurd he List.not_mem_nil, Logs.Grounded.nil⟩

/-- Different subjects have different schemas. -/
theorem schema_ne {subject subject' : String} (h : subject ≠ subject') :
    "user-" ++ subject ≠ "user-" ++ subject' := by
  intro he
  have hlist : "user-".toList ++ subject.toList = "user-".toList ++ subject'.toList := by
    simpa only [String.toList_append] using congrArg String.toList he
  exact h (String.ext (List.append_cancel_left hlist))

/-- Users are stable in the run that reached `s`, which goes on by steps that are
    `ok`. -/
structure StableUsers (cfg : Config)
    (ok : Sys → Serving.Move Request Input World → Prop) (s : Sys) : Prop where
  row : ∀ id provider subject u, Found s.conf.trace id provider subject u →
    u ∈ s.conf.state.db.users ∧ u.provider = provider ∧ u.subject = subject
  same : ∀ id id' provider subject u u', Found s.conf.trace id provider subject u →
    Found s.conf.trace id' provider subject u' → u = u'
  codes : ∀ id req key entry r, .did id req (.putCode key entry) r ∈ s.conf.trace →
    ∃ subject u, Provisioned s.conf.trace id subject u ∧ entry.userId = u.id
  schemas : ∀ id req name r, .did id req (.ensureSchema name) r ∈ s.conf.trace →
    name = cfg.sharedSchema ∨
      ∃ subject u, Provisioned s.conf.trace id subject u ∧ name = u.vegapunkSchema
  distinct : ∀ id id' subject subject' u u', Found s.conf.trace id "google" subject u →
    Found s.conf.trace id' "google" subject' u' → subject ≠ subject' →
    u.id ≠ u'.id ∧ u.vegapunkSchema ≠ u'.vegapunkSchema
  lasting : ∀ s', Reach (· = s) (server cfg).step ok s' → ∀ u ∈ s.conf.state.db.users,
    u ∈ s'.conf.state.db.users ∧ ∀ u' ∈ s'.conf.state.db.users,
      u'.id = u.id ∨ (u'.provider = u.provider ∧ u'.subject = u.subject) → u' = u

/-- Two subjects have two users, of two ids and schemas. -/
theorem ProvisioningInv.distinct {c : Conf} (h : ProvisioningInv cfg c) {id id' : ℕ}
    {subject subject' : String} {u u' : User} (hu : Found c.trace id "google" subject u)
    (hu' : Found c.trace id' "google" subject' u') (hne : subject ≠ subject') :
    u.id ≠ u'.id ∧ u.vegapunkSchema ≠ u'.vegapunkSchema := by
  obtain ⟨hmem, hprov, hsub⟩ := h.found id _ _ u hu
  obtain ⟨hmem', hprov', hsub'⟩ := h.found id' _ _ u' hu'
  refine ⟨fun he => hne ?_, ?_⟩
  · rw [← hsub, ← hsub', h.users.ids u hmem u' hmem' he]
  · rw [h.users.schemas u hmem hprov, h.users.schemas u' hmem' hprov', hsub, hsub']
    exact schema_ne hne

/-- In every run, however the callbacks about a subject interleave, they get the
    same row; rows are never changed; and different subjects of Google have
    different ids and schemas. -/
theorem provisioning_stable (h : Reached cfg UsersInv ok s) : StableUsers cfg ok s where
  row := (provisioning_sound h).inv.found
  same id id' provider subject u u' hu hu' := by
    have hinv := (provisioning_sound h).inv
    obtain ⟨hmem, hprov, hsub⟩ := hinv.found id provider subject u hu
    obtain ⟨hmem', hprov', hsub'⟩ := hinv.found id' provider subject u' hu'
    exact hinv.users.subjects u hmem u' hmem' (hprov.trans hprov'.symm) (hsub.trans hsub'.symm)
  codes id req key entry r he := by
    obtain ⟨l, hl, subject, u, hu, heq⟩ := (provisioning_sound h).inv.grounded.mem he
    exact ⟨subject, u, hu.mono hl, heq⟩
  schemas id req name r he := by
    obtain ⟨l, hl, heq | ⟨subject, u, hu, heq⟩⟩ := (provisioning_sound h).inv.grounded.mem he
    · exact .inl heq
    · exact .inr ⟨subject, u, hu.mono hl, heq⟩
  distinct id id' subject subject' u u' := (provisioning_sound h).inv.distinct
  lasting s' hs' u hu := by
    have hgrow : UsersGrow s.conf.state s'.conf.state :=
      provisioning_meets.keeps (K := provisioning cfg) (fun s m _ => provisioning_allows s m)
        (fun _ => List.Subset.refl _) (fun hab hbc => List.Subset.trans hab hbc)
        (provisioning_sound h) hs'
    have hinv := (provisioning_sound (h.append hs')).inv.users
    refine ⟨hgrow hu, fun u' hu' he => ?_⟩
    rcases he with hid | ⟨hprov, hsub⟩
    · exact hinv.ids u' hu' u (hgrow hu) hid
    · exact hinv.subjects u' hu' u (hgrow hu) hprov hsub

/-! ### Two callbacks side by side -/

/-- A client registers and asks for two authorizations; the callbacks about the
    same subject both find no row before either inserts one. -/
def twoCallbacks : List (Serving.Move Request Input World) :=
  [.request (.register ⟨["https://app.example.com/cb"], ["authorization_code"], none, none⟩),
    .handling 0 (.text "c1"), .handling 0 .ok] ++
  (["csrf1", "csrf2"].flatMap fun csrf =>
    [.request (.authorize ⟨"code", "c1", "https://app.example.com/cb", sampleChallenge, "S256",
        none⟩),
      .handling 0 .ok, .handling 0 .ok,
      .handling 0 (.google ⟨"https://accounts.google.com/o/oauth2/v2/auth", csrf, "secret"⟩),
      .handling 0 .ok, .handling 0 (.text ""), .handling 0 .ok]) ++
  [.request (.callbackGoogle ⟨"google-code", "csrf1"⟩),
    .request (.callbackGoogle ⟨"google-code", "csrf2"⟩)] ++
  ([0, 1].flatMap fun i =>
    [.handling i .ok, .handling i (.text "google-token"), .handling i (.info ⟨"sub", none⟩),
      .handling i (.text (if i = 0 then "u1" else "u2")), .handling i .ok]) ++
  [.handling 0 .ok, .handling 1 .ok, .handling 1 .ok, .handling 0 .ok, .handling 0 .ok,
    .handling 1 .ok]

/-- The row that an event says was found. -/
def foundUser : Done → Option (ℕ × User)
  | .did id _ (.findUser _ _) (.ok (some u)) => some (id, u)
  | _ => none

/-- What the trace records as found was found. -/
theorem found_of_foundUser {l : List Done} {id : ℕ} {u : User}
    (h : (id, u) ∈ l.filterMap foundUser) : ∃ provider subject, Found l id provider subject u := by
  obtain ⟨e, he, hf⟩ := List.mem_filterMap.1 h
  unfold foundUser at hf
  split at hf
  · cases hf
    exact ⟨_, _, _, he⟩
  · cases hf

/-- The row that the second callback inserted. -/
def insertedSecond : User := ⟨"u2", "google", "sub", none, "user-sub", 1000000⟩

/-- Two callbacks of one subject find the row that one of them inserted. -/
theorem provisioning_stable_two : ∃ s, Reached .sample UsersInv (fun _ _ => True) s ∧
    (∃ provider subject, Found s.conf.trace 3 provider subject insertedSecond) ∧
    (∃ provider subject, Found s.conf.trace 4 provider subject insertedSecond) ∧
    StableUsers .sample (fun _ _ => True) s := by
  obtain ⟨s, hs, hfound⟩ : ∃ s, exec (server .sample).step (fun _ _ => true)
      (.start { now := 1000000, db := ⟨[], [], []⟩ }) twoCallbacks = some s ∧
      s.conf.trace.filterMap foundUser = [(3, insertedSecond), (4, insertedSecond)] :=
    Option.map_eq_some_iff.1 (by decide)
  have hr : Reached .sample UsersInv (fun _ _ => True) s :=
    .exec (fun _ _ _ => trivial) (.init ⟨_, ⟨⟨by simp, by simp, by simp⟩, rfl, rfl⟩, rfl⟩) hs
  exact ⟨s, hr, found_of_foundUser (by simp [hfound]), found_of_foundUser (by simp [hfound]),
    provisioning_stable hr⟩

end Runs

end LlmMemory.Auth
