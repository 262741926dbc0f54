import LlmMemory.WikiAuth.Server

/-!
# What the operations do to the tables

An operation that succeeds writes to a table or leaves all of them as they are, and one
that fails leaves them as they are (`DbStep`, `dbStep_perform`). Clients are kept, with
their redirect URIs, and there are no others than those registered (`DbStep.client_kept`,
`DbStep.client`); rows of users are added by upserts (`DbStep.users`), and rows of tokens
for users that are there (`DbStep.token`).
-/

namespace LlmMemory.WikiAuth

open Effects Auth

/-- The operation, with its answer, wrote to a table. -/
def wrote : (o : Op) → o.Ans → Bool
  | .registerClient _ _ _ _, .ok _ => true
  | .touchLastSeen _, .ok _ => true
  | .upsertUser _, .ok _ => true
  | .createRefresh _ _ _ _, .ok _ => true
  | .validateAndRevoke _ _, .ok (some _) => true
  | .revoke _ _, .ok _ => true
  | _, _ => false

/-- The tables before and after an operation with its answer. -/
inductive DbStep (pkgs : Packages) (db : Db) : (o : Op) → o.Ans → Db → Prop
  | same {o : Op} {r : o.Ans} (h : wrote o r = false) : DbStep pkgs db o r db
  | registerClient {uris grants : List String} {authMethod : String} {clientName : Option String}
      {c : OAuthClient} {db' : Db} (hc : c.redirectUris = some uris)
      (h : db.insertClient c = some db') :
      DbStep pkgs db (.registerClient uris grants authMethod clientName) (.ok c) db'
  | touchLastSeen {clientId : String} {now : Int} :
      DbStep pkgs db (.touchLastSeen clientId) (.ok ()) (db.touchLastSeen clientId now)
  | upsertUser {u : User} {db' : Db} (h : db.upsertUser u = some db') :
      DbStep pkgs db (.upsertUser u) (.ok ()) db'
  | createRefresh {tok userId clientId : String} {expiresAt : Int} {db' : Db}
      (h : db.insertToken ⟨pkgs.sha256 tok, userId, clientId, expiresAt, none⟩ = some db') :
      DbStep pkgs db (.createRefresh tok userId clientId expiresAt) (.ok ()) db'
  | validateAndRevoke {tok : String} {now : Int} {x : String × String}
      (h : (db.validateAndRevoke (pkgs.sha256 tok) now).1 = some x) :
      DbStep pkgs db (.validateAndRevoke tok now) (.ok (some x))
        (db.validateAndRevoke (pkgs.sha256 tok) now).2
  | revoke {tok : String} {now : Int} :
      DbStep pkgs db (.revoke tok now) (.ok ()) (db.revoke (pkgs.sha256 tok) now)

section Perform

variable {pkgs : Packages} {input : Input} {s s' : AsState}

/-- A write does what it is to do, or fails and does nothing. -/
theorem write_cases (db : Option Db) {r : Except StorageError Unit}
    (h : write s db input = some (r, s')) :
    (r = .ok () ∧ db = some s'.db) ∨ (r = .error .sqlx ∧ s'.db = s.db) := by
  cases input with
  | error text => cases h
  | of input =>
    cases input with
    | ok =>
      cases db with
      | some db' => cases h; exact .inl ⟨rfl, rfl⟩
      | none => cases h; exact .inr ⟨rfl, rfl⟩
    | fail => cases h; exact .inr ⟨rfl, rfl⟩
    | text t => cases h
    | google g => cases h
    | info i => cases h

/-- An operation takes one step on the tables. -/
theorem dbStep_perform {o : Op} {r : o.Ans} (h : perform pkgs input o s = some (r, s')) :
    DbStep pkgs s.db o r s'.db := by
  cases o with
  | nowMs => cases h; exact .same rfl
  -- the maps of pending authorizations and of codes are no tables
  | takePending key => cases h; exact .same rfl
  | takeCode key => cases h; exact .same rfl
  | getClient clientId =>
    obtain ⟨r', -, he⟩ := Option.map_eq_some_iff.1 h
    cases he
    exact .same rfl
  | findUser provider subject =>
    obtain ⟨r', -, he⟩ := Option.map_eq_some_iff.1 h
    cases he
    exact .same rfl
  | issueJwt userId clientId ttl =>
    obtain ⟨r', -, he⟩ := Option.map_eq_some_iff.1 h
    cases he
    exact .same rfl
  | newUlid | authorizeUrl | exchangeCode _ _ | userinfo _ =>
    simp only [perform] at h
    split at h <;> first | (cases h; done) | (cases h; exact .same rfl)
  | putPending key p =>
    simp only [perform] at h
    split at h
    · obtain ⟨m, -, he⟩ := Option.map_eq_some_iff.1 h
      cases he
      exact .same rfl
    · cases h
  | putCode key c =>
    simp only [perform] at h
    split at h
    · obtain ⟨m, -, he⟩ := Option.map_eq_some_iff.1 h
      cases he
      exact .same rfl
    · cases h
  | registerClient uris grants authMethod clientName =>
    simp only [perform] at h
    split at h
    · split at h
      · next hdb =>
        cases h
        exact .registerClient rfl hdb
      · cases h; exact .same rfl
    · cases h; exact .same rfl
    · cases h
  | touchLastSeen clientId =>
    -- the update has no constraint to violate, so it only fails with the database
    rcases write_cases (some _) h with ⟨rfl, hdb⟩ | ⟨rfl, hdb⟩
    · rw [← Option.some.inj hdb]
      exact .touchLastSeen
    · rw [hdb]
      exact .same rfl
  | revoke tok now =>
    rcases write_cases (some _) h with ⟨rfl, hdb⟩ | ⟨rfl, hdb⟩
    · rw [← Option.some.inj hdb]
      exact .revoke
    · rw [hdb]
      exact .same rfl
  | upsertUser u =>
    rcases write_cases _ h with ⟨rfl, hdb⟩ | ⟨rfl, hdb⟩
    · exact .upsertUser hdb
    · rw [hdb]
      exact .same rfl
  | createRefresh tok userId clientId expiresAt =>
    rcases write_cases _ h with ⟨rfl, hdb⟩ | ⟨rfl, hdb⟩
    · exact .createRefresh hdb
    · rw [hdb]
      exact .same rfl
  | validateAndRevoke tok now =>
    simp only [perform] at h
    split at h
    · cases hx : (s.db.validateAndRevoke (pkgs.sha256 tok) now).1 with
      | some x =>
        cases h
        rw [hx]
        exact .validateAndRevoke hx
      | none =>
        cases h
        rw [hx]
        have hdb : (s.db.validateAndRevoke (pkgs.sha256 tok) now).2 = s.db := by
          rw [Db.validateAndRevoke] at hx ⊢
          split at hx
          · cases hx
          · rfl
        show DbStep pkgs s.db _ _ (s.db.validateAndRevoke (pkgs.sha256 tok) now).2
        rw [hdb]
        exact .same rfl
    · cases h; exact .same rfl
    · cases h

/-- A query that succeeds answers what is in the tables. -/
theorem query_perform {α : Type} {a b : α} {e : StorageError}
    (h : (answer a e input).map (·, s) = some (.ok b, s')) : b = a := by
  obtain ⟨r, hr, he⟩ := Option.map_eq_some_iff.1 h
  cases he
  cases input with
  | error text => cases hr
  | of input =>
    cases input with
    | ok => exact (Except.ok.inj (Option.some.inj hr)).symm
    | _ => cases hr

/-- A client that is found is in the table. -/
theorem getClient_perform {clientId : String} {client : OAuthClient}
    (h : perform pkgs input (.getClient clientId) s = some (.ok (some client), s')) :
    client ∈ s.db.clients ∧ client.id = clientId := by
  have hfound : some client = s.db.getClient clientId := query_perform h
  exact ⟨List.mem_of_find?_eq_some hfound.symm, by simpa using List.find?_some hfound.symm⟩

/-- A user that is found is in the table. -/
theorem findUser_perform {provider subject : String} {user : User}
    (h : perform pkgs input (.findUser provider subject) s = some (.ok (some user), s')) :
    user ∈ s.db.users :=
  List.mem_of_find?_eq_some (query_perform h : some user = s.db.findUser provider subject).symm

end Perform

/-! ## The rows after an operation -/

section Rows

variable {pkgs : Packages} {db db' : Db} {o : Op} {r : o.Ans}

/-- A client is added to its table. -/
theorem Db.insertClient_eq {c : OAuthClient} (h : db.insertClient c = some db') :
    db' = { db with clients := db.clients ++ [c] } := by
  rw [insertClient] at h
  split at h <;> cases h
  rfl

/-- A token is added to its table, of a user that is there. -/
theorem Db.insertToken_eq {t : Auth.Token} (h : db.insertToken t = some db') :
    db' = { db with tokens := db.tokens ++ [t] } ∧ ∃ u ∈ db.users, u.id = t.userId := by
  rw [insertToken] at h
  split at h
  · cases h
  · next hconstraints =>
    cases h
    push Not at hconstraints
    exact ⟨rfl, hconstraints.2.1⟩

/-- An upsert keeps the ids that are there, and adds at most its own. -/
theorem Db.upsertUser_ids {u : User} (h : db.upsertUser u = some db') :
    db'.clients = db.clients ∧ db'.tokens = db.tokens ∧
      (∀ x ∈ db.users, ∃ x' ∈ db'.users, x'.id = x.id) ∧
      ∀ x' ∈ db'.users, (∃ x ∈ db.users, x.id = x'.id) ∨ x'.id = u.id := by
  rw [upsertUser] at h
  split at h
  · cases h
    refine ⟨rfl, rfl, fun x hx => ⟨_, List.mem_map_of_mem hx, by split <;> rfl⟩, fun x' hx' => ?_⟩
    obtain ⟨x, hx, rfl⟩ := List.mem_map.1 hx'
    exact .inl ⟨x, hx, by split <;> rfl⟩
  · split at h <;> cases h
    refine ⟨rfl, rfl, fun x hx => ⟨x, List.mem_append_left _ hx, rfl⟩, fun x' hx' => ?_⟩
    rcases List.mem_append.1 hx' with hx' | hx'
    · exact .inl ⟨x', hx', rfl⟩
    · rw [List.mem_singleton.1 hx']
      exact .inr rfl

theorem Db.validateAndRevoke_frame {hash : List UInt8} {now : Int} :
    (db.validateAndRevoke hash now).2.clients = db.clients ∧
      (db.validateAndRevoke hash now).2.users = db.users := by
  rw [validateAndRevoke]
  split <;> exact ⟨rfl, rfl⟩

/-- A revoked token is of the same user. -/
theorem Db.mem_revoke {hash : List UInt8} {now : Int} {t : Auth.Token}
    (ht : t ∈ (db.revoke hash now).tokens) : ∃ t₀ ∈ db.tokens, t₀.userId = t.userId := by
  obtain ⟨t₀, ht₀, rfl⟩ := List.mem_map.1 ht
  exact ⟨t₀, ht₀, by split <;> rfl⟩

theorem Db.mem_validateAndRevoke {hash : List UInt8} {now : Int} {t : Auth.Token}
    (ht : t ∈ (db.validateAndRevoke hash now).2.tokens) :
    ∃ t₀ ∈ db.tokens, t₀.userId = t.userId := by
  rw [validateAndRevoke] at ht
  split at ht
  · exact mem_revoke ht
  · exact ⟨t, ht, rfl⟩

/-- Clients are kept, with their redirect URIs. -/
theorem DbStep.client_kept (h : DbStep pkgs db o r db') {c : OAuthClient} (hc : c ∈ db.clients) :
    ∃ c' ∈ db'.clients, c'.id = c.id ∧ c'.redirectUris = c.redirectUris := by
  cases h with
  | same hw => exact ⟨c, hc, rfl, rfl⟩
  | registerClient hnew hins =>
    rw [Db.insertClient_eq hins]
    exact ⟨c, List.mem_append_left _ hc, rfl, rfl⟩
  | touchLastSeen => exact ⟨_, List.mem_map_of_mem hc, by split <;> exact ⟨rfl, rfl⟩⟩
  | upsertUser hups =>
    rw [(Db.upsertUser_ids hups).1]
    exact ⟨c, hc, rfl, rfl⟩
  | createRefresh hins =>
    rw [(Db.insertToken_eq hins).1]
    exact ⟨c, hc, rfl, rfl⟩
  | validateAndRevoke hx =>
    rw [Db.validateAndRevoke_frame.1]
    exact ⟨c, hc, rfl, rfl⟩
  | revoke => exact ⟨c, hc, rfl, rfl⟩

/-- A client was there before, or is registered, with its redirect URIs. -/
theorem DbStep.client (h : DbStep pkgs db o r db') {c' : OAuthClient} (hc : c' ∈ db'.clients) :
    (∃ c ∈ db.clients, c'.redirectUris = c.redirectUris) ∨
      ∃ uris grants authMethod clientName, o = .registerClient uris grants authMethod clientName ∧
        c'.redirectUris = some uris := by
  cases h with
  | same hw => exact .inl ⟨c', hc, rfl⟩
  | registerClient hnew hins =>
    rw [Db.insertClient_eq hins] at hc
    rcases List.mem_append.1 hc with hc | hc
    · exact .inl ⟨c', hc, rfl⟩
    · rw [List.mem_singleton.1 hc]
      exact .inr ⟨_, _, _, _, rfl, hnew⟩
  | touchLastSeen =>
    obtain ⟨c, hmem, rfl⟩ := List.mem_map.1 hc
    exact .inl ⟨c, hmem, by split <;> rfl⟩
  | upsertUser hups =>
    rw [(Db.upsertUser_ids hups).1] at hc
    exact .inl ⟨c', hc, rfl⟩
  | createRefresh hins =>
    rw [(Db.insertToken_eq hins).1] at hc
    exact .inl ⟨c', hc, rfl⟩
  | validateAndRevoke hx =>
    rw [Db.validateAndRevoke_frame.1] at hc
    exact .inl ⟨c', hc, rfl⟩
  | revoke => exact .inl ⟨c', hc, rfl⟩

/-- A user was there before, or is upserted; and those before are kept. -/
theorem DbStep.users (h : DbStep pkgs db o r db') :
    (∀ x ∈ db.users, ∃ x' ∈ db'.users, x'.id = x.id) ∧
      ∀ x' ∈ db'.users, (∃ x ∈ db.users, x.id = x'.id) ∨
        ∃ u, o = .upsertUser u ∧ x'.id = u.id := by
  have hsame : ∀ {db' : Db}, db'.users = db.users →
      (∀ x ∈ db.users, ∃ x' ∈ db'.users, x'.id = x.id) ∧
        ∀ x' ∈ db'.users, (∃ x ∈ db.users, x.id = x'.id) ∨ ∃ u, o = .upsertUser u ∧ x'.id = u.id :=
    fun heq => ⟨fun x hx => ⟨x, heq ▸ hx, rfl⟩, fun x' hx' => .inl ⟨x', heq ▸ hx', rfl⟩⟩
  cases h with
  | same hw => exact hsame rfl
  | registerClient hnew hins => exact hsame (by rw [Db.insertClient_eq hins])
  | touchLastSeen => exact hsame rfl
  | upsertUser hups =>
    obtain ⟨-, -, hkept, hold⟩ := Db.upsertUser_ids hups
    exact ⟨hkept, fun x' hx' => (hold x' hx').imp_right fun hid => ⟨_, rfl, hid⟩⟩
  | createRefresh hins => exact hsame (by rw [(Db.insertToken_eq hins).1])
  | validateAndRevoke hx => exact hsame Db.validateAndRevoke_frame.2
  | revoke => exact hsame rfl

/-- A token was there before, or is for a user that is there. -/
theorem DbStep.token (h : DbStep pkgs db o r db') {t : Auth.Token} (ht : t ∈ db'.tokens) :
    (∃ t₀ ∈ db.tokens, t₀.userId = t.userId) ∨ ∃ x ∈ db.users, x.id = t.userId := by
  cases h with
  | same hw => exact .inl ⟨t, ht, rfl⟩
  | registerClient hnew hins =>
    rw [Db.insertClient_eq hins] at ht
    exact .inl ⟨t, ht, rfl⟩
  | touchLastSeen => exact .inl ⟨t, ht, rfl⟩
  | upsertUser hups =>
    rw [(Db.upsertUser_ids hups).2.1] at ht
    exact .inl ⟨t, ht, rfl⟩
  | createRefresh hins =>
    obtain ⟨heq, huser⟩ := Db.insertToken_eq hins
    rw [heq] at ht
    rcases List.mem_append.1 ht with ht | ht
    · exact .inl ⟨t, ht, rfl⟩
    · rw [List.mem_singleton.1 ht]
      exact .inr huser
  | validateAndRevoke hx => exact .inl (Db.mem_validateAndRevoke ht)
  | revoke => exact .inl (Db.mem_revoke ht)

/-- A refresh token is only stored for a user that is there. -/
theorem DbStep.stored {tok userId clientId : String} {expiresAt : Int}
    (h : DbStep pkgs db (.createRefresh tok userId clientId expiresAt) (.ok ()) db') :
    ∃ x ∈ db.users, x.id = userId := by
  cases h with
  | same hw => cases hw
  | createRefresh hins => exact (Db.insertToken_eq hins).2

/-- A refresh token that is redeemed is in the table. -/
theorem DbStep.redeemed {tok userId clientId : String} {now : Int}
    (h : DbStep pkgs db (.validateAndRevoke tok now) (.ok (some (userId, clientId))) db') :
    ∃ t ∈ db.tokens, t.userId = userId := by
  cases h with
  | same hw => cases hw
  | validateAndRevoke hx =>
    rw [Db.validateAndRevoke] at hx
    split at hx
    · next t ht =>
      cases hx
      exact ⟨t, List.mem_of_find?_eq_some ht, rfl⟩
    · cases hx

end Rows

end LlmMemory.WikiAuth
