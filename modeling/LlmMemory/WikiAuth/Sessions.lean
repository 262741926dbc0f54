import LlmMemory.Auth.Runs
import LlmMemory.Lib.Accesses
import LlmMemory.WikiAuth.Binding

/-!
# The sessions of both authorization servers

Each of the two authorization servers keeps two maps in memory: the sessions of
`/authorize` (`pending`) and the authorization codes (`codes`). Whatever its
operations do in whatever order, the accesses to each (`PendingHistory`,
`CodeHistory`) are those of a bounded map of entries that expire and can be
taken once (`sessions_proper`).
-/

namespace LlmMemory.Auth

open ExpiringMap Serving

/-- The access to the sessions of `/authorize` that an operation is. -/
def pendingAct : (Σ o : Op, o.Ans) → Option (Act String PendingAuth)
  | ⟨.putPending key p, _⟩ => some (.put key p)
  | ⟨.takePending key, r⟩ => some (.take key r)
  | _ => none

/-- The access to the codes that an operation is. -/
def codeAct : (Σ o : Op, o.Ans) → Option (Act String AuthCode)
  | ⟨.putCode key c, _⟩ => some (.put key c)
  | ⟨.takeCode key, r⟩ => some (.take key r)
  | _ => none

/-- The accesses to the sessions of `/authorize` in a run of operations of the
    server, between which the world may move. -/
abbrev PendingHistory (cfg : Config) : AsState → List (Access String PendingAuth) → Prop :=
  ExpiringMap.History (fun s => s.sessions = {}) (Changes (server cfg) pendingAct) AsState.now
    fun s => s.sessions.pending

/-- The accesses to the codes in a run of operations of the server. -/
abbrev CodeHistory (cfg : Config) : AsState → List (Access String AuthCode) → Prop :=
  ExpiringMap.History (fun s => s.sessions = {}) (Changes (server cfg) codeAct) AsState.now
    fun s => s.sessions.codes

variable {pkgs : Packages} {n : ℕ} {req : Request} {input : Input} {s s' : AsState}

/-- An access to the sessions. -/
def Op.accesses : Op → Bool
  | .putPending _ _ => true
  | .takePending _ => true
  | .putCode _ _ => true
  | .takeCode _ => true
  | _ => false

/-- A session is put in the map, which evicts one if it is full. -/
theorem putPending_cases {key : String} {p : PendingAuth} {r : Unit}
    (h : perform pkgs n req input (.putPending key p) s = some (r, s')) :
    ∃ victim m, ExpiringMap.put PendingAuth.expiresAtMs MAX_PENDING_AUTHS victim s.now key p
        s.sessions.pending = some m ∧
      s' = (s.setPending m).note n req (.pendingPut key p) := by
  simp only [perform] at h
  split at h
  · obtain ⟨m, hm, he⟩ := Option.map_eq_some_iff.1 h
    cases he
    exact ⟨_, m, hm, rfl⟩
  · cases h

theorem putCode_cases {key : String} {c : AuthCode} {r : Unit}
    (h : perform pkgs n req input (.putCode key c) s = some (r, s')) :
    ∃ victim m, ExpiringMap.put AuthCode.expiresAtMs MAX_AUTH_CODES victim s.now key c
        s.sessions.codes = some m ∧
      s' = (s.setCodes m).note n req (.codePut key c) := by
  simp only [perform] at h
  split at h
  · obtain ⟨m, hm, he⟩ := Option.map_eq_some_iff.1 h
    cases he
    exact ⟨_, m, hm, rfl⟩
  · cases h

theorem noteSome_frame {id : ℕ} {act : Option Action} :
    (s.noteSome id req act).now = s.now ∧ (s.noteSome id req act).sessions = s.sessions := by
  cases act <;> exact ⟨rfl, rfl⟩

theorem write_frame (db : Option Db) {r : Except StorageError Unit}
    (h : write s db input = some (r, s')) : s'.now = s.now ∧ s'.sessions = s.sessions := by
  cases input with
  | ok => cases db <;> (cases h; exact ⟨rfl, rfl⟩)
  | fail => cases h; exact ⟨rfl, rfl⟩
  | text t => cases h
  | google g => cases h
  | info i => cases h

/-- An operation that is no access to the sessions leaves them, and the time,
    as they are. -/
theorem perform_frame {o : Op} (ho : o.accesses = false) {r : o.Ans}
    (h : perform pkgs n req input o s = some (r, s')) :
    s'.now = s.now ∧ s'.sessions = s.sessions := by
  -- the operations on the two maps aside, nothing reads or writes a session
  cases o with
  | putPending key p => cases ho
  | takePending key => cases ho
  | putCode key c => cases ho
  | takeCode key => cases ho
  | nowMs => cases h; exact ⟨rfl, rfl⟩
  | getClient clientId => rw [(answer_state h).1]; exact ⟨rfl, rfl⟩
  | findUser provider subject => rw [(answer_state h).1]; exact ⟨rfl, rfl⟩
  | ensureSchema name => rw [(answer_state h).1]; exact ⟨rfl, rfl⟩
  | issueJwt userId clientId ttl => rw [(answer_state h).1]; exact ⟨rfl, rfl⟩
  | touchLastSeen clientId => exact write_frame (some _) h
  | createRefresh token userId clientId expiresAt => exact write_frame _ h
  | revoke token now => exact write_frame (some _) h
  | registerClient uris grants authMethod clientName =>
    simp only [perform] at h
    split at h
    · split at h <;> (cases h; exact ⟨rfl, rfl⟩)
    · cases h; exact ⟨rfl, rfl⟩
    · cases h
  | insertUser u =>
    simp only [perform] at h
    split at h
    · split at h
      · cases h; exact noteSome_frame
      · cases h; exact ⟨rfl, rfl⟩
    · cases h; exact ⟨rfl, rfl⟩
    · cases h
  | newUlid | authorizeUrl | exchangeCode _ _ | userinfo _ | validateAndRevoke _ _ =>
    simp only [perform] at h
    split at h <;> cases h <;> exact ⟨rfl, rfl⟩

/-- An operation is an access to the sessions of `/authorize`, or to the codes, as to a
    map of entries that expire, or leaves both as they are. -/
theorem perform_accesses {o : Op} {r : o.Ans} (h : perform pkgs n req input o s = some (r, s')) :
    s'.now = s.now ∧
    ((∃ act, pendingAct ⟨o, r⟩ = some act ∧ Does PendingAuth.expiresAtMs MAX_PENDING_AUTHS s.now
        s.sessions.pending act s'.sessions.pending) ∨
      (pendingAct ⟨o, r⟩ = none ∧ s'.sessions.pending = s.sessions.pending)) ∧
    ((∃ act, codeAct ⟨o, r⟩ = some act ∧ Does AuthCode.expiresAtMs MAX_AUTH_CODES s.now
        s.sessions.codes act s'.sessions.codes) ∨
      (codeAct ⟨o, r⟩ = none ∧ s'.sessions.codes = s.sessions.codes)) := by
  cases o with
  | putPending key p =>
    obtain ⟨_, _, hm, rfl⟩ := putPending_cases h
    exact ⟨rfl, .inl ⟨_, rfl, .put hm⟩, .inr ⟨rfl, rfl⟩⟩
  | takePending key =>
    cases h
    rw [noteSome_frame.1, noteSome_frame.2]
    exact ⟨rfl, .inl ⟨_, rfl, .take⟩, .inr ⟨rfl, rfl⟩⟩
  | putCode key c =>
    obtain ⟨_, _, hm, rfl⟩ := putCode_cases h
    exact ⟨rfl, .inr ⟨rfl, rfl⟩, .inl ⟨_, rfl, .put hm⟩⟩
  | takeCode key =>
    cases h
    rw [noteSome_frame.1, noteSome_frame.2]
    exact ⟨rfl, .inr ⟨rfl, rfl⟩, .inl ⟨_, rfl, .take⟩⟩
  | _ =>
    obtain ⟨hn, hs⟩ := perform_frame rfl h
    exact ⟨hn, .inr ⟨rfl, by rw [hs]⟩, .inr ⟨rfl, by rw [hs]⟩⟩

/-- The world lets time pass, and leaves the sessions as they are. -/
theorem world_frame {cfg : Config} {w : World} (h : (server cfg).world w s = some s') :
    s.now ≤ s'.now ∧ s'.sessions = s.sessions := by
  cases h
  cases w with
  | tick dt => exact ⟨Int.le_add_of_nonneg_right (Int.natCast_nonneg dt), rfl⟩
  | revokeClient id => exact ⟨le_rfl, rfl⟩

/-- The handlers access the map of sessions. -/
theorem pending_accessed (cfg : Config) :
    Accessed PendingAuth.expiresAtMs MAX_PENDING_AUTHS (server cfg) pendingAct AsState.now
      fun s => s.sessions.pending where
  perform h := ⟨(perform_accesses h).1, (perform_accesses h).2.1⟩
  finish _ _ _ _ := ⟨rfl, rfl⟩
  world h := ⟨(world_frame h).1, by rw [(world_frame h).2]⟩

theorem codes_accessed (cfg : Config) :
    Accessed AuthCode.expiresAtMs MAX_AUTH_CODES (server cfg) codeAct AsState.now
      fun s => s.sessions.codes where
  perform h := ⟨(perform_accesses h).1, (perform_accesses h).2.2⟩
  finish _ _ _ _ := ⟨rfl, rfl⟩
  world h := ⟨(world_frame h).1, by rw [(world_frame h).2]⟩

/-- No insertion is stuck: one of the sessions of a full map expires first. -/
theorem put_performed (key : String) (p : PendingAuth) (c : AuthCode) :
    (∃ input s', perform pkgs n req input (.putPending key p) s = some ((), s')) ∧
      ∃ input s', perform pkgs n req input (.putCode key c) s = some ((), s') := by
  obtain ⟨v, m, hm⟩ : ∃ v m, ExpiringMap.put PendingAuth.expiresAtMs MAX_PENDING_AUTHS v s.now key p
      s.sessions.pending = some m := put_total (by decide)
  obtain ⟨v', m', hm'⟩ : ∃ v m, ExpiringMap.put AuthCode.expiresAtMs MAX_AUTH_CODES v s.now key c
      s.sessions.codes = some m := put_total (by decide)
  exact ⟨⟨.text v, _, by rw [perform, hm]; rfl⟩, .text v', _, by rw [perform, hm']; rfl⟩

end LlmMemory.Auth

namespace LlmMemory.WikiAuth

open ExpiringMap Auth

/-- The access to the sessions of `/authorize` that an operation is. -/
def pendingAct : (Σ o : Op, o.Ans) → Option (Act String PendingAuth)
  | ⟨.putPending key p, _⟩ => some (.put key p)
  | ⟨.takePending key, r⟩ => some (.take key r)
  | _ => none

/-- The access to the codes that an operation is. -/
def codeAct : (Σ o : Op, o.Ans) → Option (Act String AuthCode)
  | ⟨.putCode key c, _⟩ => some (.put key c)
  | ⟨.takeCode key, r⟩ => some (.take key r)
  | _ => none

/-- The accesses to the sessions of `/authorize` in a run of operations of the
    server, between which time may pass. -/
abbrev PendingHistory (pkgs : Packages) : AsState → List (Access String PendingAuth) → Prop :=
  ExpiringMap.History (fun s => s.sessions = {}) (Changes (server pkgs) pendingAct) AsState.now
    fun s => s.sessions.pending

/-- The accesses to the codes in a run of operations of the server. -/
abbrev CodeHistory (pkgs : Packages) : AsState → List (Access String AuthCode) → Prop :=
  ExpiringMap.History (fun s => s.sessions = {}) (Changes (server pkgs) codeAct) AsState.now
    fun s => s.sessions.codes

variable {pkgs : Packages} {input : Input} {s s' : AsState}

/-- A session is put in the map, which evicts one if it is full. -/
theorem putPending_cases {key : String} {p : PendingAuth} {r : Unit}
    (h : perform pkgs input (.putPending key p) s = some (r, s')) :
    ∃ victim m, ExpiringMap.put PendingAuth.expiresAtMs MAX_PENDING_AUTHS victim s.now key p
        s.sessions.pending = some m ∧ s' = s.setPending m := by
  simp only [perform] at h
  split at h
  · obtain ⟨m, hm, he⟩ := Option.map_eq_some_iff.1 h
    cases he
    exact ⟨_, m, hm, rfl⟩
  · cases h

theorem putCode_cases {key : String} {c : AuthCode} {r : Unit}
    (h : perform pkgs input (.putCode key c) s = some (r, s')) :
    ∃ victim m, ExpiringMap.put AuthCode.expiresAtMs MAX_AUTH_CODES victim s.now key c
        s.sessions.codes = some m ∧ s' = s.setCodes m := by
  simp only [perform] at h
  split at h
  · obtain ⟨m, hm, he⟩ := Option.map_eq_some_iff.1 h
    cases he
    exact ⟨_, m, hm, rfl⟩
  · cases h

/-- An operation is an access to the sessions of `/authorize`, or to the codes, as to a
    map of entries that expire, or leaves both as they are. -/
theorem perform_accesses {o : Op} {r : o.Ans} (h : perform pkgs input o s = some (r, s')) :
    s'.now = s.now ∧
    ((∃ act, pendingAct ⟨o, r⟩ = some act ∧ Does PendingAuth.expiresAtMs MAX_PENDING_AUTHS s.now
        s.sessions.pending act s'.sessions.pending) ∨
      (pendingAct ⟨o, r⟩ = none ∧ s'.sessions.pending = s.sessions.pending)) ∧
    ((∃ act, codeAct ⟨o, r⟩ = some act ∧ Does AuthCode.expiresAtMs MAX_AUTH_CODES s.now
        s.sessions.codes act s'.sessions.codes) ∨
      (codeAct ⟨o, r⟩ = none ∧ s'.sessions.codes = s.sessions.codes)) := by
  cases o with
  | putPending key p =>
    obtain ⟨_, _, hm, rfl⟩ := putPending_cases h
    exact ⟨rfl, .inl ⟨_, rfl, .put hm⟩, .inr ⟨rfl, rfl⟩⟩
  | takePending key =>
    cases h
    exact ⟨rfl, .inl ⟨_, rfl, .take⟩, .inr ⟨rfl, rfl⟩⟩
  | putCode key c =>
    obtain ⟨_, _, hm, rfl⟩ := putCode_cases h
    exact ⟨rfl, .inr ⟨rfl, rfl⟩, .inl ⟨_, rfl, .put hm⟩⟩
  | takeCode key =>
    cases h
    exact ⟨rfl, .inr ⟨rfl, rfl⟩, .inl ⟨_, rfl, .take⟩⟩
  | _ =>
    obtain ⟨hn, hs⟩ := Op.Plain.frame (by exact trivial) h
    exact ⟨hn, .inr ⟨rfl, by rw [hs]⟩, .inr ⟨rfl, by rw [hs]⟩⟩

/-- The handlers access the map of sessions. -/
theorem pending_accessed (pkgs : Packages) :
    Accessed PendingAuth.expiresAtMs MAX_PENDING_AUTHS (server pkgs) pendingAct AsState.now
      fun s => s.sessions.pending where
  perform h := ⟨(perform_accesses h).1, (perform_accesses h).2.1⟩
  finish _ _ _ _ := ⟨rfl, rfl⟩
  world h := by
    cases h
    exact ⟨Int.le_add_of_nonneg_right (Int.natCast_nonneg _), rfl⟩

theorem codes_accessed (pkgs : Packages) :
    Accessed AuthCode.expiresAtMs MAX_AUTH_CODES (server pkgs) codeAct AsState.now
      fun s => s.sessions.codes where
  perform h := ⟨(perform_accesses h).1, (perform_accesses h).2.2⟩
  finish _ _ _ _ := ⟨rfl, rfl⟩
  world h := by
    cases h
    exact ⟨Int.le_add_of_nonneg_right (Int.natCast_nonneg _), rfl⟩

/-- No insertion is stuck: one of the sessions of a full map expires first. -/
theorem put_performed (key : String) (p : PendingAuth) (c : AuthCode) :
    (∃ input s', perform pkgs input (.putPending key p) s = some ((), s')) ∧
      ∃ input s', perform pkgs input (.putCode key c) s = some ((), s') := by
  obtain ⟨v, m, hm⟩ : ∃ v m, ExpiringMap.put PendingAuth.expiresAtMs MAX_PENDING_AUTHS v s.now key p
      s.sessions.pending = some m := put_total (by decide)
  obtain ⟨v', m', hm'⟩ : ∃ v m, ExpiringMap.put AuthCode.expiresAtMs MAX_AUTH_CODES v s.now key c
      s.sessions.codes = some m := put_total (by decide)
  exact ⟨⟨.of (.text v), _, by rw [perform, hm]; rfl⟩, .of (.text v'), _, by rw [perform, hm']; rfl⟩

/-- Every access to a session map of either server, in every run, is one to a
    map of at most 10,000 entries, each of which can be taken once, until it
    expires. -/
theorem sessions_proper (cfg : Config) (pkgs : Packages) :
    (∀ s h, Auth.PendingHistory cfg s h →
      Logs.Grounded (Proper PendingAuth.expiresAtMs 10000) h) ∧
    (∀ s h, Auth.CodeHistory cfg s h → Logs.Grounded (Proper AuthCode.expiresAtMs 10000) h) ∧
    (∀ s h, PendingHistory pkgs s h → Logs.Grounded (Proper PendingAuth.expiresAtMs 10000) h) ∧
    (∀ s h, CodeHistory pkgs s h → Logs.Grounded (Proper AuthCode.expiresAtMs 10000) h) := by
  refine ⟨fun s h hr => ?_, fun s h hr => ?_, fun s h hr => ?_, fun s h hr => ?_⟩
  · exact ((Auth.pending_accessed cfg).uses fun s hs => by rw [hs]).proper hr
  · exact ((Auth.codes_accessed cfg).uses fun s hs => by rw [hs]).proper hr
  · exact ((pending_accessed pkgs).uses fun s hs => by rw [hs]).proper hr
  · exact ((codes_accessed pkgs).uses fun s hs => by rw [hs]).proper hr

/-! ### A session taken twice -/

/-- A session of `/authorize`, until the time 5. -/
def shortSession : PendingAuth :=
  ⟨"c1", "https://app.example.com/cb", none, sampleChallenge, "S256", "csrf", "secret", 5⟩

/-- The server at the time 0, with the sessions `m`. -/
def withSessions (m : List (String × PendingAuth)) : AsState :=
  { now := 0, db := ⟨[], [], []⟩, sessions := { pending := m } }

/-- A session is taken once, and not a second time. -/
theorem sessions_proper_twice : ∃ s h, PendingHistory .sample s h ∧
    h.map Access.act = [.put "csrf" shortSession, .take "csrf" (some shortSession),
      .take "csrf" none] ∧ Logs.Grounded (Proper PendingAuth.expiresAtMs 10000) h := by
  have hput : (server .sample).Change (withSessions [])
      (some ⟨.putPending "csrf" shortSession, ()⟩) (withSessions [("csrf", shortSession)]) :=
    .op (show (server .sample).perform 0 (.revoke "") (.of (.text "")) _ _ = _ by rfl)
  have htake : (server .sample).Change (withSessions [("csrf", shortSession)])
      (some ⟨.takePending "csrf", some shortSession⟩) (withSessions []) :=
    .op (show (server .sample).perform 0 (.revoke "") (.of .ok) _ _ = _ by rfl)
  have hagain : (server .sample).Change (withSessions [])
      (some ⟨.takePending "csrf", none⟩) (withSessions []) :=
    .op (show (server .sample).perform 0 (.revoke "") (.of .ok) _ _ = _ by rfl)
  have hr : PendingHistory .sample (withSessions []) _ :=
    .access (.access (.access (.init rfl) ⟨_, hput, rfl⟩) ⟨_, htake, rfl⟩) ⟨_, hagain, rfl⟩
  exact ⟨_, _, hr, rfl, (sessions_proper ⟨.sample, ""⟩ .sample).2.2.1 _ _ hr⟩

end LlmMemory.WikiAuth
