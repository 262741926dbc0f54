import LlmMemory.Auth.Server
import LlmMemory.Lib.Logs

/-!
# What the log of the authorization server says

Every event of the log stands on earlier ones (`Grounds`): a session is only
put by an authorization request of a registered client, a state only taken
while its session is pending, a code only issued for the session taken and the
user authenticated by the same callback, a code only taken while it is valid,
and tokens only given for the code taken by the same request, if it is one of
the grant of codes.

The state agrees with its log (`Inv`). It keeps to that when it evolves
(`Evolves`), be it that an event is recorded (`Evolves.event`), or none
(`Evolves.silent`).
-/

namespace LlmMemory.Auth

open Effects Logs

/-! ## What events stand on -/

/-- The csrf state that an action consumes. -/
def Action.stateTaken : Action → Option String
  | .pendingTaken key _ => some key
  | _ => none

/-- The code that an action consumes. -/
def Action.codeTaken? : Action → Option String
  | .codeTaken code _ => some code
  | _ => none

/-- The handling `id` of the request `req` did `acts`, in this order. -/
def Did (l : List Event) (id : ℕ) (req : Request) (acts : List Action) : Prop :=
  ∃ es : List Event, es.Sublist l ∧ es.map (·.act) = acts ∧ ∀ e ∈ es, e.id = id ∧ e.req = req

/-- A row that was in its table at first, or was inserted since, which is the
    action `act` of it. -/
def Inserted {α : Type} (rows : List α) (act : α → Action) (l : List Event) (x : α) : Prop :=
  x ∈ rows ∨ ∃ e ∈ l, e.act = act x

/-- A client of the start, or registered since. -/
abbrev ClientRow (db₀ : Db) : List Event → OAuthClient → Prop := Inserted db₀.clients .registered

/-- A user of the start, or provisioned since. -/
abbrev UserRow (db₀ : Db) : List Event → User → Prop := Inserted db₀.users .provisioned

/-- The client of the request is registered, with its redirect URI and the
    grant. -/
def Registered (db₀ : Db) (l : List Event) (p : AuthorizeParams) : Prop :=
  ∃ c uris grants, ClientRow db₀ l c ∧ c.id = p.clientId ∧
    c.redirectUris = some uris ∧ p.redirectUri ∈ uris ∧
    c.grantTypes = some grants ∧ "authorization_code" ∈ grants

/-- An authorization request puts the session `pending`. -/
structure Authorizes (db₀ : Db) (l : List Event) (e : Event) (key : String)
    (pending : PendingAuth) (p : AuthorizeParams) : Prop where
  req : e.req = .authorize p
  params : checkParams p = .ok ()
  registered : Registered db₀ l p
  session : ∃ g t, pending = pendingOf p g t ∧ t ≤ e.time
  fresh : ∀ e' ∈ l, e'.act.statePut ≠ some key

/-- A callback takes the session `pending`. -/
structure TakesState (l : List Event) (e : Event) (key : String) (pending : PendingAuth)
    (cb : CallbackParams) : Prop where
  req : e.req = .callbackGoogle cb
  state : cb.state = key
  inTime : e.time < pending.expiresAtMs
  put : ∃ e' ∈ l, e'.act = .pendingPut key pending
  first : ∀ e' ∈ l, e'.act.stateTaken ≠ some key

/-- A user that Google names by `subject`. -/
structure IsUser (db₀ : Db) (l : List Event) (subject : String) (u : User) : Prop where
  row : UserRow db₀ l u
  provider : u.provider = "google"
  subject : u.subject = subject

/-- A callback issues a code for the session it took and the user that Google
    named to it. -/
structure Issues (db₀ : Db) (l : List Event) (e : Event) (key : String) (pending : PendingAuth)
    (info : GoogleUserInfo) (user : User) (c : AuthCode) : Prop where
  did : Did l e.id e.req [.pendingTaken key pending, .authenticated info]
  isUser : IsUser db₀ l info.sub user
  issued : ∃ t, c = codeOf pending user t ∧ t ≤ e.time

/-- A token request takes a code. -/
structure TakesCode (l : List Event) (e : Event) (code : String) (c : AuthCode)
    (body : TokenForm) : Prop where
  req : e.req = .token body
  presented : body.code = some code
  inTime : e.time < c.expiresAtMs
  put : ∃ e' ∈ l, e'.act = .codePut code c
  first : ∀ e' ∈ l, e'.act.codeTaken? ≠ some code

/-- The tokens `r` are given for a code, which the request took and matched. -/
structure Redeems (pkgs : Packages) (l : List Event) (id : ℕ) (req : Request) (body : TokenForm)
    (code verifier : String) (c : AuthCode) (r : TokenResponse) : Prop where
  did : Did l id req [.codeTaken code c]
  proved : body.codeVerifier = some verifier
  checked : checkCode pkgs body verifier c = .ok ()
  sub : r.accessToken.sub = c.userId
  client : r.accessToken.clientId = c.clientId

/-- The tokens `r` are given for a code, if `req` is of the grant of codes. -/
def Granted (pkgs : Packages) (l : List Event) (id : ℕ) (req : Request) (r : TokenResponse) :
    Prop :=
  ∀ body, req = .token body → body.grantType = "authorization_code" →
    ∃ code verifier c, Redeems pkgs l id req body code verifier c r

/-- What an event stands on, given the events before it. -/
def Grounds (pkgs : Packages) (db₀ : Db) (l : List Event) (e : Event) : Prop :=
  match e.act with
  | .pendingPut key pending => ∃ p, Authorizes db₀ l e key pending p
  | .pendingTaken key pending => ∃ cb, TakesState l e key pending cb
  | .codePut code c => (∃ key pending info user, Issues db₀ l e key pending info user c) ∧
      ∀ e' ∈ l, e'.act.codePut? ≠ some code
  | .codeTaken code c => ∃ body, TakesCode l e code c body
  | .answered (.tokens r) => Granted pkgs l e.id e.req r
  | _ => True

/-! ### Growing logs -/

section Growing

variable {pkgs : Packages} {db₀ : Db} {l l' : List Event} {id : ℕ} {req : Request}

theorem Did.mono {acts : List Action} (h : Did l id req acts) (hl : l <+: l') :
    Did l' id req acts := by
  obtain ⟨es, hes, hact⟩ := h
  exact ⟨es, hes.trans hl.sublist, hact⟩

/-- A request did nothing at first. -/
theorem Did.nil : Did l id req [] :=
  ⟨[], List.nil_sublist _, rfl, fun _ h => absurd h List.not_mem_nil⟩

theorem Did.snoc {acts : List Action} (h : Did l id req acts) (act : Action) (t : Int) :
    Did (l ++ [⟨id, req, act, t⟩]) id req (acts ++ [act]) := by
  obtain ⟨es, hes, rfl, hof⟩ := h
  refine ⟨es ++ [⟨id, req, act, t⟩], hes.append (.refl _), by simp, fun e he => ?_⟩
  rcases List.mem_append.1 he with he | he
  · exact hof e he
  · rw [List.mem_singleton.1 he]
    exact ⟨rfl, rfl⟩

theorem Inserted.mono {α : Type} {rows : List α} {act : α → Action} {x : α}
    (h : Inserted rows act l x) (hl : l <+: l') : Inserted rows act l' x :=
  h.imp_right fun ⟨e, he, ha⟩ => ⟨e, hl.subset he, ha⟩

theorem Registered.mono {p : AuthorizeParams} (h : Registered db₀ l p) (hl : l <+: l') :
    Registered db₀ l' p :=
  let ⟨c, uris, grants, hc, h⟩ := h
  ⟨c, uris, grants, hc.mono hl, h⟩

theorem IsUser.mono {subject : String} {u : User} (h : IsUser db₀ l subject u) (hl : l <+: l') :
    IsUser db₀ l' subject u :=
  { h with row := h.row.mono hl }

theorem Granted.mono {r : TokenResponse} (h : Granted pkgs l id req r) (hl : l <+: l') :
    Granted pkgs l' id req r := fun body hb hg =>
  let ⟨code, verifier, c, h⟩ := h body hb hg
  ⟨code, verifier, c, { h with did := h.did.mono hl }⟩

theorem inserted_snoc {α : Type} {rows : List α} {act : α → Action} {x : α} {e : Event} :
    Inserted rows act (l ++ [e]) x ↔ Inserted rows act l x ∨ e.act = act x := by
  simp only [Inserted, List.mem_append, List.mem_singleton]
  constructor
  · rintro (h | ⟨e', he | rfl, ha⟩)
    · exact .inl (.inl h)
    · exact .inl (.inr ⟨e', he, ha⟩)
    · exact .inr ha
  · rintro ((h | ⟨e', he, ha⟩) | ha)
    · exact .inl h
    · exact .inr ⟨e', .inl he, ha⟩
    · exact .inr ⟨e, .inr rfl, ha⟩

end Growing

/-! ## The state agrees with its log -/

/-- Two rows of a client, with the same registration. -/
def SameRegistration (c c' : OAuthClient) : Prop :=
  c.id = c'.id ∧ c.redirectUris = c'.redirectUris ∧ c.grantTypes = c'.grantTypes

/-- The log is grounded, and every row of the tables and every session comes from the start
    or the log. -/
structure Inv (pkgs : Packages) (db₀ : Db) (s : AsState) : Prop where
  grounded : Grounded (Grounds pkgs db₀) s.log
  clients : ∀ c ∈ s.db.clients, ∃ c₀, ClientRow db₀ s.log c₀ ∧ SameRegistration c₀ c
  users : ∀ u, u ∈ s.db.users ↔ UserRow db₀ s.log u
  pending : ∀ x ∈ s.sessions.pending, (∃ e ∈ s.log, e.act = .pendingPut x.1 x.2) ∧
    ∀ e ∈ s.log, e.act.stateTaken ≠ some x.1
  codes : ∀ x ∈ s.sessions.codes, (∃ e ∈ s.log, e.act = .codePut x.1 x.2) ∧
    ∀ e ∈ s.log, e.act.codeTaken? ≠ some x.1

/-- How the state may change: the log and the clock go on, and the state still
    agrees with the log. -/
structure Evolves (pkgs : Packages) (db₀ : Db) (s s' : AsState) : Prop where
  log : s.log <+: s'.log
  now : s.now ≤ s'.now
  inv : Inv pkgs db₀ s → Inv pkgs db₀ s'

variable {pkgs : Packages} {db₀ : Db} {s s' : AsState}

theorem Evolves.refl : Evolves pkgs db₀ s s := ⟨List.prefix_rfl, Int.le_refl _, id⟩

/-- A state that was taken was put. -/
theorem Inv.put_of_stateTaken (h : Inv pkgs db₀ s) {e : Event} (he : e ∈ s.log) {key : String}
    (ht : e.act.stateTaken = some key) : ∃ e' ∈ s.log, e'.act.statePut = some key := by
  obtain ⟨l, hl, hg⟩ := h.grounded.mem he
  obtain ⟨id, req, act, t⟩ := e
  cases act with
  | pendingTaken key' pending =>
    cases ht
    obtain ⟨cb, hcb⟩ := hg
    obtain ⟨e', he', ha⟩ := hcb.put
    exact ⟨e', hl he', by rw [ha]; rfl⟩
  | _ => cases ht

/-- A code that was taken was put before. -/
theorem Inv.put_of_codeTaken (h : Inv pkgs db₀ s) {e : Event} (he : e ∈ s.log) {code : String}
    (ht : e.act.codeTaken? = some code) : ∃ e' ∈ s.log, e'.act.codePut? = some code := by
  obtain ⟨l, hl, hg⟩ := h.grounded.mem he
  obtain ⟨id, req, act, t⟩ := e
  cases act with
  | codeTaken code' c =>
    cases ht
    obtain ⟨body, hb⟩ := hg
    obtain ⟨e', he', ha⟩ := hb.put
    exact ⟨e', hl he', by rw [ha]; rfl⟩
  | _ => cases ht

/-- A change recorded by one event, on which the session maps only gain the
    entry it puts, and lose the one it takes. -/
theorem Evolves.event {e : Event} (hlog : s'.log = s.log ++ [e]) (hnow : s'.now = s.now)
    (he : Inv pkgs db₀ s → Grounds pkgs db₀ s.log e)
    (hclients : ∀ c ∈ s'.db.clients, c ∈ s.db.clients ∨ e.act = .registered c)
    (husers : ∀ u, u ∈ s'.db.users ↔ u ∈ s.db.users ∨ e.act = .provisioned u)
    (hpending : ∀ x ∈ s'.sessions.pending,
      (x ∈ s.sessions.pending ∨ e.act = .pendingPut x.1 x.2) ∧ e.act.stateTaken ≠ some x.1)
    (hcodes : ∀ x ∈ s'.sessions.codes,
      (x ∈ s.sessions.codes ∨ e.act = .codePut x.1 x.2) ∧ e.act.codeTaken? ≠ some x.1) :
    Evolves pkgs db₀ s s' where
  log := ⟨[e], hlog.symm⟩
  now := Int.le_of_eq hnow.symm
  inv h := by
    have hpre : s.log <+: s'.log := ⟨[e], hlog.symm⟩
    have hmem : ∀ {P : Event → Prop}, (∀ e' ∈ s.log, P e') → P e → ∀ e' ∈ s'.log, P e' :=
      fun hP hPe e' he' => by
        rw [hlog] at he'
        rcases List.mem_append.1 he' with he' | he'
        · exact hP e' he'
        · rw [List.mem_singleton.1 he']
          exact hPe
    have hself : e ∈ s'.log := by rw [hlog]; simp
    have hg := he h
    refine ⟨hlog ▸ h.grounded.snoc hg, fun c hc => ?_, fun u => ?_, fun x hx => ?_, fun x hx => ?_⟩
    · rcases hclients c hc with hc | ha
      · obtain ⟨c₀, h₀, hsame⟩ := h.clients c hc
        exact ⟨c₀, h₀.mono hpre, hsame⟩
      · exact ⟨c, .inr ⟨e, hself, ha⟩, rfl, rfl, rfl⟩
    · rw [husers, h.users, hlog]
      exact inserted_snoc.symm
    · obtain ⟨hx, hne⟩ := hpending x hx
      rcases hx with hx | ha
      · obtain ⟨⟨e', he', ha⟩, hno⟩ := h.pending x hx
        exact ⟨⟨e', hpre.subset he', ha⟩, hmem hno hne⟩
      · refine ⟨⟨e, hself, ha⟩, hmem (fun e' he' ht => ?_) hne⟩
        -- the state of the new session was never put, and so never taken
        rw [Grounds, ha] at hg
        obtain ⟨p, hp⟩ := hg
        obtain ⟨e'', he'', hput⟩ := h.put_of_stateTaken he' ht
        exact hp.fresh e'' he'' hput
    · obtain ⟨hx, hne⟩ := hcodes x hx
      rcases hx with hx | ha
      · obtain ⟨⟨e', he', ha⟩, hno⟩ := h.codes x hx
        exact ⟨⟨e', hpre.subset he', ha⟩, hmem hno hne⟩
      · refine ⟨⟨e, hself, ha⟩, hmem (fun e' he' ht => ?_) hne⟩
        rw [Grounds, ha] at hg
        obtain ⟨e'', he'', hput⟩ := h.put_of_codeTaken he' ht
        exact hg.2 e'' he'' hput

/-- A change that records nothing, of what the log does not speak about; the
    session maps may lose entries. -/
theorem Evolves.silent (hlog : s'.log = s.log) (hnow : s.now ≤ s'.now)
    (hclients : ∀ c ∈ s'.db.clients, ∃ c' ∈ s.db.clients, SameRegistration c' c)
    (husers : s'.db.users = s.db.users) (hpending : s'.sessions.pending ⊆ s.sessions.pending)
    (hcodes : s'.sessions.codes ⊆ s.sessions.codes) :
    Evolves pkgs db₀ s s' where
  log := hlog ▸ List.prefix_rfl
  now := hnow
  inv h := by
    refine ⟨hlog ▸ h.grounded, fun c hc => ?_, ?_, ?_, ?_⟩
    · obtain ⟨c', hc', hsame'⟩ := hclients c hc
      obtain ⟨c₀, h₀, hsame⟩ := h.clients c' hc'
      exact ⟨c₀, hlog ▸ h₀, hsame.1.trans hsame'.1, hsame.2.1.trans hsame'.2.1,
        hsame.2.2.trans hsame'.2.2⟩
    · rw [husers, hlog]; exact h.users
    · rw [hlog]; exact fun x hx => h.pending x (hpending hx)
    · rw [hlog]; exact fun x hx => h.codes x (hcodes hx)

end LlmMemory.Auth
