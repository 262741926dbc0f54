import LlmMemory.Auth.Log

/-!
# The handlers, step by step

What a handler knows of the state at each point is a fact that lasts (`Fact`):
the log only grows, and the clock only advances. A triple `Spec P p C` says
that a program `p` that starts with the fact `P` keeps the log grounded, and
ends, unless it rejects the request, with the fact `C` about its result.

The operations that neither put nor take a secret are free (`Op.Free`): they
keep every fact. The others come one by one, each with what makes its event
stand on what the handler did before. The result is the triple of each handler
(`handle_spec`): tokens for a code are only given as `Granted` says.
-/

namespace LlmMemory.Auth

open Effects

/-! ## Facts -/

/-- A property of the state that others do not make false. -/
structure Fact where
  holds : AsState → Prop
  lasts : ∀ {s s' : AsState}, s.log <+: s'.log → s.now ≤ s'.now → holds s → holds s'

namespace Fact

/-- Nothing is known. -/
def none : Fact := ⟨fun _ => True, fun _ _ h => h⟩

/-- Both facts are known. -/
def and (P Q : Fact) : Fact :=
  ⟨fun s => P.holds s ∧ Q.holds s, fun hl ht h => ⟨P.lasts hl ht h.1, Q.lasts hl ht h.2⟩⟩

/-- A fact that does not depend on the state. -/
def const (p : Prop) : Fact := ⟨fun _ => p, fun _ _ h => h⟩

/-- A fact about what a query found, if it found something. -/
def found {α : Type} (P : α → Fact) (x : Option α) : Fact :=
  ⟨fun s => ∀ a, x = some a → (P a).holds s, fun hl ht h a ha => (P a).lasts hl ht (h a ha)⟩

/-- The row of a client, as far as its registration goes. -/
def client (db₀ : Db) (id : String) (c : OAuthClient) : Fact :=
  ⟨fun s => c.id = id ∧ ∃ c₀, ClientRow db₀ s.log c₀ ∧ SameRegistration c₀ c,
    fun hl _ ⟨hid, c₀, h₀, hs⟩ => ⟨hid, c₀, h₀.mono hl, hs⟩⟩

/-- The client of an authorization request is registered as the request says. -/
def registered (db₀ : Db) (p : AuthorizeParams) : Fact :=
  ⟨fun s => Registered db₀ s.log p, fun hl _ h => h.mono hl⟩

/-- The clock has reached `t`. -/
def clock (t : Int) : Fact := ⟨fun s => t ≤ s.now, fun _ ht h => Int.le_trans h ht⟩

/-- The request did these actions. -/
def did (id : ℕ) (req : Request) (acts : List Action) : Fact :=
  ⟨fun s => Did s.log id req acts, fun hl _ h => h.mono hl⟩

/-- The row of a user of a provider and a subject. -/
def user (db₀ : Db) (provider subject : String) (u : User) : Fact :=
  ⟨fun s => UserRow db₀ s.log u ∧ u.provider = provider ∧ u.subject = subject,
    fun hl _ h => ⟨h.1.mono hl, h.2⟩⟩

/-- Tokens are given in answer to `req` as `Granted` says. -/
def answer (pkgs : Packages) (id : ℕ) (req : Request) (r : Response) : Fact :=
  ⟨fun s => ∀ t, r = .tokens t → Granted pkgs s.log id req t, fun hl _ h t ht => (h t ht).mono hl⟩

end Fact

/-! ## Triples -/

/-- The operations of the handling `n` of the request `req`. -/
def interp (cfg : Config) (db₀ : Db) (n : ℕ) (req : Request) : Interp AuthSig AsState where
  perf o s r s' := o.isFresh s = true ∧ ∃ input, perform cfg.pkgs n req input o s = some (r, s')
  rely := Evolves cfg.pkgs db₀
  guar := Evolves cfg.pkgs db₀

/-- The state agrees with its log, and a fact holds. -/
def Given (pkgs : Packages) (db₀ : Db) (P : Fact) (s : AsState) : Prop := Inv pkgs db₀ s ∧ P.holds s

/-- `p`, given the fact `P`, ends with the fact `C` about its result, or rejects
    the request. -/
abbrev Spec (cfg : Config) (db₀ : Db) (n : ℕ) (req : Request) {α : Type} (P : Fact)
    (p : Handler α) (C : α → Fact) : Prop :=
  Triple (interp cfg db₀ n req) (.never _) (Given cfg.pkgs db₀ P) p
    (OnOk (fun a => Given cfg.pkgs db₀ (C a)) fun _ => True)

section Rules

variable {cfg : Config} {db₀ : Db} {n : ℕ} {req : Request} {α β : Type} {P P' : Fact}
  {C C' : α → Fact} {D : β → Fact} {s s' : AsState}

/-- What is given is kept by what others do. -/
theorem Given.evolves (h : Given cfg.pkgs db₀ P s) (he : Evolves cfg.pkgs db₀ s s') :
    Given cfg.pkgs db₀ P s' :=
  ⟨he.inv h.1, P.lasts he.log he.now h.2⟩

theorem given_stable : (interp cfg db₀ n req).Stable (Given cfg.pkgs db₀ P) :=
  fun _ _ h hr => h.evolves hr

namespace Spec

theorem pre {p : Handler α} (h : Spec cfg db₀ n req P p C) (hP : ∀ s, P'.holds s → P.holds s) :
    Spec cfg db₀ n req P' p C :=
  Triple.pre h fun s hs => ⟨hs.1, hP s hs.2⟩

theorem post {p : Handler α} (h : Spec cfg db₀ n req P p C)
    (hC : ∀ a s, (C a).holds s → (C' a).holds s) : Spec cfg db₀ n req P p C' :=
  Triple.post h fun
    | .ok a => fun s hs => ⟨hs.1, hC a s hs.2⟩
    | .error _ => fun _ h => h

theorem pure {a : α} (h : ∀ s, P.holds s → (C a).holds s) :
    Spec cfg db₀ n req P (Pure.pure a) C :=
  Triple.pure given_stable fun s hs => ⟨hs.1, h s hs.2⟩

/-- A handler that rejects meets any specification. -/
theorem reject {r : Rejection} : Spec cfg db₀ n req P (Auth.reject r : Handler α) C :=
  fun _ _ _ _ => trivial

theorem bind {p : Handler α} {f : α → Handler β} (hp : Spec cfg db₀ n req P p C)
    (hf : ∀ a, Spec cfg db₀ n req (C a) (f a) D) : Spec cfg db₀ n req P (p >>= f) D :=
  Triple.andThen (fun _ _ _ _ => trivial) hp hf

/-- A check whose success is used. -/
theorem ofExcept_bind {x : Except Rejection α} {f : α → Handler β}
    (h : ∀ a, x = .ok a → Spec cfg db₀ n req P (f a) D) :
    Spec cfg db₀ n req P (ofExcept x >>= f) D := by
  cases x with
  | ok a => exact h a rfl
  | error e => exact reject

theorem required_bind {x : Option α} {r : Rejection} {f : α → Handler β}
    (h : ∀ a, x = some a → Spec cfg db₀ n req P (f a) D) :
    Spec cfg db₀ n req P (required x r >>= f) D := by
  cases x with
  | some a => exact h a rfl
  | none => exact reject

/-- An operation, its answer read by `k`. -/
theorem call {o : Op} {k : o.Ans → Except Rejection α}
    (h : ∀ s r s' input, Given cfg.pkgs db₀ P s → o.isFresh s = true →
      perform cfg.pkgs n req input o s = some (r, s') →
      Evolves cfg.pkgs db₀ s s' ∧ ∀ a, k r = .ok a → (C a).holds s') :
    Spec cfg db₀ n req P (Attempt.call o k) C :=
  Triple.call given_stable (fun _ => given_stable) (fun _ _ _ _ => trivial)
    fun s r s' hs ⟨hfresh, input, hp⟩ => by
      obtain ⟨he, hC⟩ := h s r s' input hs hfresh hp
      refine ⟨he, ?_⟩
      cases hk : k r with
      | ok a => exact ⟨he.inv hs.1, hC a hk⟩
      | error e => trivial

end Spec

end Rules

/-! ## Free operations -/

/-- The operations that neither put nor take a secret. -/
def Op.Free : Op → Prop
  | .putPending _ _ => False
  | .takePending _ => False
  | .putCode _ _ => False
  | .takeCode _ => False
  | _ => True

/-- A program of free operations. -/
abbrev FreeProg {α : Type} (p : Handler α) : Prop := Attempt.Only Op.Free (fun _ => False) p

namespace FreeProg

variable {α β : Type}

/-- One operation that needs nothing to be known. -/
theorem call (o : Op) {k : o.Ans → Except Rejection α} (ho : o.Free) :
    FreeProg (Attempt.call o k) :=
  Attempt.Only.call ho

/-- One such program after another. -/
theorem bind {p : Handler α} {f : α → Handler β} (hp : FreeProg p) (hf : ∀ a, FreeProg (f a)) :
    FreeProg (p >>= f) :=
  Attempt.Only.andThen hp hf

/-- A value that must be there needs no operation. -/
theorem required {x : Option α} {r : Rejection} : FreeProg (Auth.required x r) := by
  cases x <;> exact trivial

end FreeProg

section Free

variable {cfg : Config} {pkgs : Packages} {db₀ : Db} {n : ℕ} {req : Request} {input : Input}
  {s s' : AsState}

/-- An event alone, that neither inserts a user nor takes a secret. -/
theorem Evolves.note {act : Action}
    (hg : Inv pkgs db₀ s → Grounds pkgs db₀ s.log ⟨n, req, act, s.now⟩)
    (hu : ∀ u, act ≠ .provisioned u) (hs : act.stateTaken = none) (hc : act.codeTaken? = none) :
    Evolves pkgs db₀ s (s.note n req act) :=
  .event rfl rfl hg (fun c h => .inl h) (fun u => ⟨.inl, fun h => h.resolve_right (hu u)⟩)
    (fun x hx => ⟨.inl hx, by simp [hs]⟩) (fun x hx => ⟨.inl hx, by simp [hc]⟩)

/-- An answer that may be an error leaves the state. -/
theorem evolves_of_answer {α ε : Type} {a : α} {e : ε} {r : Except ε α}
    (h : (answer a e input).map (·, s) = some (r, s')) : Evolves pkgs db₀ s s' := by
  rw [(answer_state h).1]
  exact .refl

/-- A write of what the log does not speak about. -/
theorem evolves_of_write (db : Option Db) {r : Except StorageError Unit}
    (hdb : ∀ db', db = some db' → db'.users = s.db.users ∧
      ∀ c ∈ db'.clients, ∃ c' ∈ s.db.clients, SameRegistration c' c)
    (h : write s db input = some (r, s')) : Evolves pkgs db₀ s s' := by
  cases input with
  | ok =>
    cases db with
    | some db' =>
      cases h
      exact .silent rfl (Int.le_refl _) (hdb db' rfl).2 (hdb db' rfl).1 (List.Subset.refl _) (.refl _)
    | none => cases h; exact .refl
  | fail => cases h; exact .refl
  | text t => cases h
  | google g => cases h
  | info i => cases h

theorem Db.touchLastSeen_clients {db : Db} {clientId : String} {now : Int} :
    ∀ c ∈ (db.touchLastSeen clientId now).clients, ∃ c' ∈ db.clients, SameRegistration c' c := by
  intro c hc
  obtain ⟨c', hc', rfl⟩ := List.mem_map.1 hc
  refine ⟨c', hc', ?_⟩
  split <;> exact ⟨rfl, rfl, rfl⟩

theorem Db.same_clients {db : Db} : ∀ c ∈ db.clients, ∃ c' ∈ db.clients, SameRegistration c' c :=
  fun c hc => ⟨c, hc, rfl, rfl, rfl⟩

/-- Storing a token leaves the other tables. -/
theorem Db.insertToken_some {db db' : Db} {t : Token} (h : db.insertToken t = some db') :
    db'.users = db.users ∧ db'.clients = db.clients := by
  rw [insertToken] at h
  split at h
  · cases h
  · cases h; exact ⟨rfl, rfl⟩

theorem Db.validateAndRevoke_tables {db : Db} {hash : List UInt8} {now : Int} :
    (db.validateAndRevoke hash now).2.users = db.users ∧
      (db.validateAndRevoke hash now).2.clients = db.clients := by
  rw [validateAndRevoke]
  split <;> exact ⟨rfl, rfl⟩

/-- A registration adds its client at the end. -/
theorem Db.insertClient_some {db db' : Db} {c : OAuthClient} (h : db.insertClient c = some db') :
    db' = { db with clients := db.clients ++ [c] } := by
  rw [insertClient] at h
  split at h
  · cases h
  · cases h; rfl

/-- An insertion of a user adds its row at the end, or, if there is a conflict, leaves the
    table. -/
theorem Db.insertUser_some {db db' : Db} {u : User} {row : Option User}
    (h : db.insertUser u = some (row, db')) :
    (row = none ∧ db' = db) ∨ (row = some u ∧ db' = { db with users := db.users ++ [u] }) := by
  rw [insertUser] at h
  split at h
  · cases h; exact .inl ⟨rfl, rfl⟩
  · split at h
    · cases h
    · cases h; exact .inr ⟨rfl, rfl⟩

/-- A registration is one of the steps that others may do. -/
theorem evolves_registered {c : OAuthClient} {db : Db} (h : s.db.insertClient c = some db) :
    Evolves pkgs db₀ s ({ s with db := db }.note n req (.registered c)) := by
  cases Db.insertClient_some h
  refine .event rfl rfl (fun _ => trivial) (fun c' hc => ?_) (fun u => ?_)
    (fun x hx => ⟨.inl hx, nofun⟩) fun x hx => ⟨.inl hx, nofun⟩
  · rcases List.mem_append.1 hc with hc | hc
    · exact .inl hc
    · exact .inr (by rw [List.mem_singleton.1 hc])
  · exact ⟨.inl, fun h => h.resolve_right nofun⟩

theorem evolves_provisioned {u : User} {row : Option User} {db : Db}
    (h : s.db.insertUser u = some (row, db)) :
    Evolves pkgs db₀ s ({ s with db := db }.noteSome n req (row.map .provisioned)) := by
  rcases Db.insertUser_some h with ⟨rfl, rfl⟩ | ⟨rfl, rfl⟩
  · exact .refl
  · refine .event rfl rfl (fun _ => trivial) (fun c hc => .inl hc) (fun u' => ?_)
      (fun x hx => ⟨.inl hx, nofun⟩) fun x hx => ⟨.inl hx, nofun⟩
    show u' ∈ s.db.users ++ [u] ↔ _
    rw [List.mem_append, List.mem_singleton]
    exact or_congr_right ⟨fun h => by rw [h], fun h => (Action.provisioned.inj h).symm⟩

/-- A free operation keeps the state in agreement with its log. -/
theorem Op.Free.evolves {o : Op} {r : o.Ans} (ho : o.Free)
    (h : perform pkgs n req input o s = some (r, s')) : Evolves pkgs db₀ s s' := by
  cases o with
  | nowMs => cases h; exact .refl
  | newUlid =>
    simp only [perform] at h
    split at h
    · cases h; exact .refl
    · cases h
  | registerClient uris grants authMethod clientName =>
    simp only [perform] at h
    split at h
    · split at h
      · rename_i hdb
        cases h
        exact evolves_registered hdb
      · cases h; exact .refl
    · cases h; exact .refl
    · cases h
  | getClient clientId => exact evolves_of_answer h
  | touchLastSeen clientId =>
    refine evolves_of_write (some (s.db.touchLastSeen clientId s.now)) (fun _ hdb => ?_) h
    cases hdb
    exact ⟨rfl, Db.touchLastSeen_clients⟩
  | authorizeUrl =>
    simp only [perform] at h
    split at h
    · cases h; exact .refl
    · cases h
  -- not free: the callback relies on what is put and taken
  | putPending key p => exact ho.elim
  | takePending key => exact ho.elim
  | exchangeCode code verifier =>
    simp only [perform] at h
    split at h
    · cases h; exact .refl
    · cases h; exact .refl
    · cases h
  | userinfo accessToken =>
    simp only [perform] at h
    split at h
    · cases h
      -- only what the identity provider vouched for is noted in the log
      exact .note (fun _ => trivial) nofun rfl rfl
    · cases h; exact .refl
    · cases h
  | findUser provider subject => exact evolves_of_answer h
  | insertUser u =>
    simp only [perform] at h
    split at h
    · split at h
      · rename_i hdb
        cases h
        exact evolves_provisioned hdb
      · cases h; exact .refl
    · cases h; exact .refl
    · cases h
  | ensureSchema name => exact evolves_of_answer h
  | putCode key c => exact ho.elim
  | takeCode key => exact ho.elim
  | issueJwt userId clientId ttl => exact evolves_of_answer h
  | createRefresh token userId clientId expiresAt =>
    refine evolves_of_write _ (fun _ hdb => ?_) h
    obtain ⟨hu, hc⟩ := Db.insertToken_some hdb
    exact ⟨hu, hc ▸ Db.same_clients⟩
  | validateAndRevoke token now =>
    simp only [perform] at h
    split at h
    · cases h
      exact .silent rfl (Int.le_refl _)
        (by rw [Db.validateAndRevoke_tables.2]; exact Db.same_clients)
        Db.validateAndRevoke_tables.1 (List.Subset.refl _) (.refl _)
    · cases h; exact .refl
    · cases h
  | revoke token now =>
    refine evolves_of_write (some (s.db.revoke (pkgs.sha256 token) now)) (fun _ hdb => ?_) h
    cases hdb
    exact ⟨rfl, Db.same_clients⟩

end Free

/-! ## The operations, one by one -/

section Operations

variable {cfg : Config} {db₀ : Db} {n : ℕ} {req : Request} {P : Fact} {s s' : AsState}

/-- A program of free operations keeps what is known. -/
theorem Spec.free {α : Type} {p : Handler α} (hp : FreeProg p) :
    Spec cfg db₀ n req P p fun _ => P :=
  Triple.post (Prog.Only.keeps (I := interp cfg db₀ n req) given_stable
    (fun _ _ _ _ ho hs ⟨_, _, hp⟩ => ⟨ho.evolves hp, hs.evolves (ho.evolves hp)⟩) hp) fun
    | .ok _ => fun _ h => h
    | .error _ => fun _ _ => trivial

/-- An operation that needs nothing keeps what is known. -/
theorem Spec.keep {α : Type} (o : Op) {k : o.Ans → Except Rejection α} (ho : o.Free) :
    Spec cfg db₀ n req P (Attempt.call o k) fun _ => P :=
  Spec.free (.call o ho)

theorem nowMs_spec : Spec cfg db₀ n req P (perf .nowMs) fun t => P.and (.clock t) :=
  Spec.call fun s r s' input hs _ h => by
    cases h
    refine ⟨.refl, fun t ht => ?_⟩
    cases ht
    exact ⟨hs.2, Int.le_refl _⟩

/-- A query that succeeds answers what it found. -/
theorem query_spec {α : Type} {o : Op} {result : o.Ans → Except StorageError α} {C : α → Fact}
    (found : AsState → α) (ho : o.Free)
    (hperf : ∀ {input s r s'}, perform cfg.pkgs n req input o s = some (r, s') →
      s' = s ∧ (result r = .ok (found s) ∨ ∃ e, result r = .error e))
    (hC : ∀ s, Inv cfg.pkgs db₀ s → (C (found s)).holds s) :
    Spec cfg db₀ n req P (query o result) fun x => P.and (C x) :=
  Spec.call fun s r s' input hs _ h => by
    refine ⟨ho.evolves h, fun x hx => ?_⟩
    obtain ⟨rfl, hr | ⟨e, hr⟩⟩ := hperf h
    · rw [hr] at hx
      cases hx
      exact ⟨hs.2, hC _ hs.1⟩
    · rw [hr] at hx
      cases hx

theorem getClient_spec {clientId : String} :
    Spec cfg db₀ n req P (query (.getClient clientId) id) fun x =>
      P.and (.found (.client db₀ clientId) x) :=
  query_spec (fun s => s.db.getClient clientId) trivial
    (fun h => ⟨(answer_state h).1, (answer_state h).2.imp_right fun h => ⟨_, h⟩⟩) fun s hs c hc => by
      have hid : c.id = clientId := by simpa using List.find?_some hc
      obtain ⟨c₀, h₀, hsame⟩ := hs.clients c (List.mem_of_find?_eq_some hc)
      exact ⟨hid, c₀, h₀, hsame⟩

/-- A user is looked up by provider and subject. -/
theorem findUser_spec {provider subject : String} :
    Spec cfg db₀ n req P (query (.findUser provider subject) id) fun x =>
      P.and (.found (.user db₀ provider subject) x) :=
  query_spec (fun s => s.db.findUser provider subject) trivial
    (fun h => ⟨(answer_state h).1, (answer_state h).2.imp_right fun h => ⟨_, h⟩⟩) fun s hs u hu => by
      have hof : u.provider = provider ∧ u.subject = subject := by simpa using List.find?_some hu
      exact ⟨(hs.users u).1 (List.mem_of_find?_eq_some hu), hof⟩

/-- Google authenticates the user of the access token. -/
theorem userinfo_spec {accessToken : String} {r : Rejection} {acts : List Action} :
    Spec cfg db₀ n req (.did n req acts) (attempt (.userinfo accessToken) id r) fun info =>
      .did n req (acts ++ [.authenticated info]) :=
  Spec.call fun s x s' input hs _ h => by
    refine ⟨Op.Free.evolves (o := .userinfo accessToken) trivial h, fun info hinfo => ?_⟩
    simp only [perform] at h
    split at h
    · cases h
      cases hinfo
      exact hs.2.snoc _ _
    · cases h; cases hinfo
    · cases h

/-- A session put by an authorization request. -/
theorem putPending_spec {p : AuthorizeParams} {g : GoogleAuthorize} {t : Int}
    (hp : checkParams p = .ok ()) :
    Spec cfg db₀ n (.authorize p) ((Fact.registered db₀ p).and (.clock t))
      (perf (.putPending g.csrf (pendingOf p g t))) fun _ => .none :=
  Spec.call fun s r s' input hs hfresh h => by
    refine ⟨?_, fun _ _ => trivial⟩
    simp only [perform] at h
    split at h
    · obtain ⟨m, hm, he⟩ := Option.map_eq_some_iff.1 h
      cases he
      have hno : ∀ e' ∈ s.log, e'.act.statePut ≠ some g.csrf := by
        simpa [Op.isFresh] using hfresh
      refine .event rfl rfl (fun _ => ⟨p, rfl, hp, hs.2.1, ⟨g, t, rfl, hs.2.2⟩, hno⟩)
        (fun c hc => .inl hc) (fun u => ⟨.inl, fun h => h.resolve_right nofun⟩) (fun x hx => ?_)
        fun x hx => ⟨.inl hx, nofun⟩
      rcases ExpiringMap.mem_put hm hx with rfl | ⟨hx, _⟩
      · exact ⟨.inr rfl, nofun⟩
      · exact ⟨.inl hx, nofun⟩
    · cases h

/-- A session taken by a callback. -/
theorem takePending_spec {cb : CallbackParams} :
    Spec cfg db₀ n (.callbackGoogle cb) P (perf (.takePending cb.state)) (Fact.found fun pending =>
      .did n (.callbackGoogle cb) [.pendingTaken cb.state pending]) :=
  Spec.call fun s r s' input hs _ h => by
    simp only [perform] at h
    cases hx : (ExpiringMap.take PendingAuth.expiresAtMs s.now cb.state s.sessions.pending).1 with
    | none =>
      rw [hx] at h
      cases h
      refine ⟨.silent rfl (Int.le_refl _) Db.same_clients rfl
        (fun x hx => (ExpiringMap.mem_take hx).1) (List.Subset.refl _), ?_⟩
      rintro _ ⟨⟩ _ ⟨⟩
    | some pending =>
      rw [hx] at h
      cases h
      obtain ⟨hmem, htime⟩ := ExpiringMap.take_some hx
      refine ⟨.event rfl rfl (fun hi => ⟨cb, rfl, rfl, htime, (hi.pending _ hmem).1,
        (hi.pending _ hmem).2⟩) (fun c hc => .inl hc) (fun u => ⟨.inl, fun h => h.resolve_right nofun⟩)
        (fun x hx => ?_) fun x hx => ⟨.inl hx, nofun⟩, ?_⟩
      · obtain ⟨hx, hne⟩ := ExpiringMap.mem_take hx
        exact ⟨.inl hx, fun h => hne (Option.some.inj h).symm⟩
      · rintro _ ⟨⟩ _ ⟨⟩
        exact Did.nil.snoc _ _

/-- A code issued for the session that the callback took. -/
theorem putCode_spec {code key : String} {pending : PendingAuth} {info : GoogleUserInfo}
    {u : User} {t : Int} :
    Spec cfg db₀ n req (((Fact.did n req [.pendingTaken key pending, .authenticated info]).and
      (.user db₀ "google" info.sub u)).and (.clock t))
      (perf (.putCode code (codeOf pending u t))) fun _ => .none :=
  Spec.call fun s r s' input hs hfresh h => by
    refine ⟨?_, fun _ _ => trivial⟩
    obtain ⟨hi, ⟨hdid, hrow, hprov, hsub⟩, ht⟩ := hs
    simp only [perform] at h
    split at h
    · obtain ⟨m, hm, he⟩ := Option.map_eq_some_iff.1 h
      cases he
      have hno : ∀ e' ∈ s.log, e'.act.codePut? ≠ some code := by simpa [Op.isFresh] using hfresh
      refine .event rfl rfl (fun _ => ⟨⟨key, pending, info, u, hdid, ⟨hrow, hprov, hsub⟩, t, rfl, ht⟩,
        hno⟩) (fun c hc => .inl hc) (fun u => ⟨.inl, fun h => h.resolve_right nofun⟩)
        (fun x hx => ⟨.inl hx, nofun⟩) fun x hx => ?_
      rcases ExpiringMap.mem_put hm hx with rfl | ⟨hx, _⟩
      · exact ⟨.inr rfl, nofun⟩
      · exact ⟨.inl hx, nofun⟩
    · cases h

/-- A code taken by a token request. -/
theorem takeCode_spec {body : TokenForm} {code : String} (hb : body.code = some code) :
    Spec cfg db₀ n (.token body) P (perf (.takeCode code)) (Fact.found fun c =>
      .did n (.token body) [.codeTaken code c]) :=
  Spec.call fun s r s' input hs _ h => by
    simp only [perform] at h
    cases hx : (ExpiringMap.take AuthCode.expiresAtMs s.now code s.sessions.codes).1 with
    | none =>
      rw [hx] at h
      cases h
      refine ⟨.silent rfl (Int.le_refl _) Db.same_clients rfl (List.Subset.refl _)
        (fun x hx => (ExpiringMap.mem_take hx).1), ?_⟩
      rintro _ ⟨⟩ _ ⟨⟩
    | some c =>
      rw [hx] at h
      cases h
      obtain ⟨hmem, htime⟩ := ExpiringMap.take_some hx
      refine ⟨.event rfl rfl (fun hi => ⟨body, rfl, hb, htime, (hi.codes _ hmem).1,
        (hi.codes _ hmem).2⟩) (fun c hc => .inl hc) (fun u => ⟨.inl, fun h => h.resolve_right nofun⟩)
        (fun x hx => ⟨.inl hx, nofun⟩) fun x hx => ?_, ?_⟩
      · obtain ⟨hx, hne⟩ := ExpiringMap.mem_take hx
        exact ⟨.inl hx, fun h => hne (Option.some.inj h).symm⟩
      · rintro _ ⟨⟩ _ ⟨⟩
        exact Did.nil.snoc _ _

/-- The claims of a token name the user and the client it is for. -/
theorem issueJwt_spec {userId clientId : String} {ttl : Int} {r : Rejection} :
    Spec cfg db₀ n req P (attempt (.issueJwt userId clientId ttl) id r) fun claims =>
      P.and (.const (claims.sub = userId ∧ claims.clientId = clientId)) :=
  Spec.call fun s x s' input hs _ h => by
    have he : Evolves cfg.pkgs db₀ s s' :=
      Op.Free.evolves (o := .issueJwt userId clientId ttl) trivial h
    refine ⟨he, fun claims hclaims => ⟨P.lasts he.log he.now hs.2, ?_⟩⟩
    rcases (answer_state h).2 with rfl | rfl
    · cases hclaims
      exact ⟨rfl, rfl⟩
    · cases hclaims

end Operations

/-! ## The handlers -/

section Handlers

variable {cfg : Config} {db₀ : Db} {n : ℕ} {req : Request} {P : Fact}

/-- A user is found, or provisioned. -/
theorem findOrProvision_spec {newId provider subject schema : String} {email : Option String} :
    Spec cfg db₀ n req P (findOrProvision newId provider subject email schema) fun u =>
      P.and (.user db₀ provider subject u) := by
  refine Spec.bind findUser_spec fun x => ?_
  cases x with
  | some existing => exact Spec.pure fun s h => ⟨h.1, h.2 existing rfl⟩
  | none =>
    refine Spec.pre ?_ fun s h => h.1
    refine Spec.bind (Spec.keep .nowMs trivial) fun now => ?_
    refine Spec.bind (Spec.keep (.insertUser _) trivial) fun _ => ?_
    refine Spec.bind findUser_spec fun x => ?_
    cases x with
    | some user => exact Spec.pure fun s h => ⟨h.1, h.2 user rfl⟩
    | none => exact Spec.reject

theorem clientGrantTypes_free {clientId : String} :
    FreeProg (clientGrantTypes clientId) := by
  refine FreeProg.bind (.call (.getClient clientId) trivial) fun
    | none => trivial
    | some client => ?_
  dsimp only
  split <;> exact trivial

theorem issueTokens_free {userId clientId : String} {refresh : Bool} :
    FreeProg (issueTokens userId clientId refresh) := by
  refine FreeProg.bind (.call (.issueJwt _ _ _) trivial) fun access => ?_
  cases refresh with
  | false => exact trivial
  | true =>
    exact FreeProg.bind (.call .newUlid trivial) fun _ =>
      FreeProg.bind (.call .nowMs trivial) fun _ =>
      FreeProg.bind (.call (.createRefresh _ _ _ _) trivial) fun _ => trivial

/-- The tokens given name the user and the client they are for. -/
theorem issueTokens_spec {userId clientId : String} {refresh : Bool} :
    Spec cfg db₀ n req P (issueTokens userId clientId refresh) fun r =>
      P.and (.const (∀ t, r = .tokens t →
        t.accessToken.sub = userId ∧ t.accessToken.clientId = clientId)) := by
  refine Spec.bind issueJwt_spec fun access => ?_
  cases refresh with
  | false => exact Spec.pure fun s h => ⟨h.1, fun t ht => by cases ht; exact h.2⟩
  | true =>
    refine Spec.bind (Spec.keep .newUlid trivial) fun _ => ?_
    refine Spec.bind (Spec.keep .nowMs trivial) fun _ => ?_
    refine Spec.bind (Spec.keep (.createRefresh _ _ _ _) trivial) fun _ => ?_
    exact Spec.pure fun s h => ⟨h.1, fun t ht => by cases ht; exact h.2⟩

theorem register_free {body : Dcr.DcrRequest} :
    FreeProg (register cfg.pkgs body) := by
  rw [register]
  split
  · exact trivial
  · exact FreeProg.bind (.call (.registerClient _ _ _ _) trivial)
      fun _ => trivial

theorem revoke_free {tok : String} : FreeProg (revoke tok) :=
  FreeProg.bind (.call .nowMs trivial) fun _ =>
    FreeProg.bind (.call (.revoke _ _) trivial) fun _ => trivial

theorem grantRefresh_free {body : TokenForm} : FreeProg (grantRefresh body) := by
  refine FreeProg.bind .required fun tok => FreeProg.bind (.call .nowMs trivial) fun now =>
    FreeProg.bind (.call (.validateAndRevoke tok now) trivial) fun
    | none => trivial
    | some (userId, clientId) => FreeProg.bind clientGrantTypes_free fun
      | none => trivial
      | some grants => ?_
  dsimp only
  split
  · exact issueTokens_free
  · exact trivial

/-- The client of a request that passes the checks is registered for it. -/
theorem registered_of_check {l : List Event} {p : AuthorizeParams} {c c₀ : OAuthClient}
    (h₀ : ClientRow db₀ l c₀) (hsame : SameRegistration c₀ c) (hid : c.id = p.clientId)
    (h : checkClient p c = .ok ()) : Registered db₀ l p := by
  rw [checkClient] at h
  split at h
  · cases h
  rename_i uris hu
  split at h
  · cases h
  rename_i hmem
  split at h
  · cases h
  rename_i grants hg
  split at h
  · cases h
  rename_i hgrant
  exact ⟨c₀, uris, grants, h₀, hsame.1.trans hid, hsame.2.1.trans hu, not_not.1 hmem,
    hsame.2.2.trans hg, not_not.1 hgrant⟩

/-- An authorization request puts its session for a registered client. -/
theorem authorize_spec {p : AuthorizeParams} :
    Spec cfg db₀ n (.authorize p) .none (authorize p) fun _ => .none := by
  refine Spec.ofExcept_bind fun _ hp => ?_
  refine Spec.bind getClient_spec fun x => ?_
  cases x with
  | none => exact Spec.reject
  | some client =>
    refine Spec.ofExcept_bind fun _ hc => ?_
    refine Spec.pre (P := .registered db₀ p) ?_ fun s h =>
      let ⟨hid, c₀, h₀, hsame⟩ := h.2 client rfl
      registered_of_check h₀ hsame hid hc
    refine Spec.bind (Spec.keep (.touchLastSeen _) trivial) fun _ => ?_
    refine Spec.bind (Spec.keep .authorizeUrl trivial) fun g => ?_
    refine Spec.bind nowMs_spec fun now => ?_
    exact Spec.bind (putPending_spec hp) fun _ => Spec.pure fun _ h => h

/-- A callback puts a code for the session that it took. -/
theorem callbackGoogle_spec {cb : CallbackParams} {sharedSchema : String} :
    Spec cfg db₀ n (.callbackGoogle cb) .none (callbackGoogle sharedSchema cb) fun _ => .none := by
  refine Spec.bind takePending_spec fun x => ?_
  cases x with
  | none => exact Spec.reject
  | some pending =>
    refine Spec.pre (P := .did n (.callbackGoogle cb) [.pendingTaken cb.state pending]) ?_
      fun s h => h pending rfl
    refine Spec.bind (Spec.keep (.exchangeCode _ _) trivial) fun token => ?_
    refine Spec.bind userinfo_spec fun info => ?_
    refine Spec.bind (Spec.keep .newUlid trivial) fun newUserId => ?_
    refine Spec.bind findOrProvision_spec fun user => ?_
    refine Spec.bind (Spec.keep (.ensureSchema _) trivial) fun _ => ?_
    refine Spec.bind (Spec.keep (.ensureSchema _) trivial) fun _ => ?_
    refine Spec.bind (Spec.keep .newUlid trivial) fun code => ?_
    refine Spec.bind nowMs_spec fun now => ?_
    exact Spec.bind putCode_spec fun _ => Spec.pure fun _ h => h

/-- A code is exchanged for tokens of its user. -/
theorem grantAuthCode_spec {body : TokenForm} :
    Spec cfg db₀ n (.token body) .none (grantAuthCode cfg.pkgs body)
      (Fact.answer cfg.pkgs n (.token body)) := by
  refine Spec.required_bind fun code hcode => ?_
  refine Spec.required_bind fun verifier hverifier => ?_
  refine Spec.bind (takeCode_spec hcode) fun x => ?_
  cases x with
  | none => exact Spec.reject
  | some entry =>
    refine Spec.ofExcept_bind fun _ hcheck => ?_
    refine Spec.pre (P := .did n (.token body) [.codeTaken code entry]) ?_ fun s h => h entry rfl
    refine Spec.bind (Spec.free clientGrantTypes_free) fun x => ?_
    cases x with
    | none => exact Spec.reject
    | some grants =>
      refine Spec.post issueTokens_spec fun r s h t ht body' hb _ => ?_
      obtain ⟨hsub, hclient⟩ := h.2 t ht
      cases hb
      exact ⟨code, verifier, entry, h.1, hverifier, hcheck, hsub, hclient⟩

/-- Whatever the request, tokens are only given as `Granted` says. -/
theorem handle_spec : Spec cfg db₀ n req .none (handle cfg req) (Fact.answer cfg.pkgs n req) := by
  have hother : ∀ {r : Response}, (∀ body, req = .token body →
      body.grantType ≠ "authorization_code") → ∀ s, (Fact.answer cfg.pkgs n req r).holds s :=
    fun h _ _ _ body hb hg => absurd hg (h body hb)
  cases req with
  | register body => exact Spec.post (Spec.free register_free) fun _ _ _ => hother nofun _
  | authorize p => exact Spec.post authorize_spec fun _ _ _ => hother nofun _
  | callbackGoogle cb => exact Spec.post callbackGoogle_spec fun _ _ _ => hother nofun _
  | revoke tok => exact Spec.post (Spec.free revoke_free) fun _ _ _ => hother nofun _
  | token body =>
    show Spec cfg db₀ n _ _ (token cfg.pkgs body) _
    rw [token]
    split
    · exact grantAuthCode_spec
    · rename_i hg
      have hno : ∀ body', Request.token body = .token body' →
          body'.grantType ≠ "authorization_code" := fun _ h => by cases h; exact hg
      split
      · exact Spec.post (Spec.free grantRefresh_free) fun _ _ _ => hother hno _
      · exact Spec.reject

end Handlers

end LlmMemory.Auth
