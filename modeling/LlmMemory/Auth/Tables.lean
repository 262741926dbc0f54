import LlmMemory.Auth.Operations

/-!
# What the operations do to the tables

An operation that succeeds writes to a table or leaves all of them as they are,
and one that fails leaves them as they are (`DbStep`): the one lemma about
`perform` that invariants of the tables are derived from is `dbStep_perform`.
-/

namespace LlmMemory.Auth

namespace Db

variable {db db' : Db}

theorem insertUser_clients {u : User} {row : Option User} (h : db.insertUser u = some (row, db')) :
    db'.clients = db.clients := by
  rw [insertUser] at h
  split at h
  · cases h; rfl
  · split at h <;> cases h
    rfl

theorem insertToken_clients {t : Token} (h : db.insertToken t = some db') :
    db'.clients = db.clients := by
  rw [insertToken] at h
  split at h <;> cases h
  rfl

/-- What is not valid is not revoked. -/
theorem validateAndRevoke_none {hash : List UInt8} {now : Int}
    (h : (db.validateAndRevoke hash now).1 = none) : (db.validateAndRevoke hash now).2 = db := by
  rw [validateAndRevoke] at h ⊢
  split at h
  · cases h
  · rfl

theorem validateAndRevoke_clients {hash : List UInt8} {now : Int} :
    (db.validateAndRevoke hash now).2.clients = db.clients := by
  rw [validateAndRevoke]
  split <;> rfl

end Db

/-- The operation, with its answer, wrote to a table. -/
def wrote : (o : Op) → o.Ans → Bool
  | .registerClient _ _ _ _, .ok _ => true
  | .touchLastSeen _, .ok _ => true
  | .insertUser _, .ok _ => true
  | .createRefresh _ _ _ _, .ok _ => true
  | .validateAndRevoke _ _, .ok (some _) => true
  | .revoke _ _, .ok _ => true
  | _, _ => false

/-- The tables before and after an operation with its answer. -/
inductive DbStep (pkgs : Packages) (db : Db) : (o : Op) → o.Ans → Db → Prop
  | same {o : Op} {r : o.Ans} (h : wrote o r = false) : DbStep pkgs db o r db
  | registerClient {uris grants : List String} {authMethod : String} {clientName : Option String}
      {c : OAuthClient} {db' : Db} (hc : c.revokedAt = none) (h : db.insertClient c = some db') :
      DbStep pkgs db (.registerClient uris grants authMethod clientName) (.ok c) db'
  | touchLastSeen {clientId : String} {now : Int} :
      DbStep pkgs db (.touchLastSeen clientId) (.ok ()) (db.touchLastSeen clientId now)
  | insertUser {u : User} {row : Option User} {db' : Db} (h : db.insertUser u = some (row, db')) :
      DbStep pkgs db (.insertUser u) (.ok ()) db'
  | createRefresh {tok userId clientId : String} {expiresAt : Int} {db' : Db}
      (h : db.insertToken ⟨pkgs.sha256 tok, userId, clientId, expiresAt, none⟩ = some db') :
      DbStep pkgs db (.createRefresh tok userId clientId expiresAt) (.ok ()) db'
  | validateAndRevoke {tok : String} {now : Int} {x : String × String}
      (h : (db.validateAndRevoke (pkgs.sha256 tok) now).1 = some x) :
      DbStep pkgs db (.validateAndRevoke tok now) (.ok (some x))
        (db.validateAndRevoke (pkgs.sha256 tok) now).2
  | revoke {tok : String} {now : Int} :
      DbStep pkgs db (.revoke tok now) (.ok ()) (db.revoke (pkgs.sha256 tok) now)

section Perform

variable {pkgs : Packages} {n : ℕ} {req : Request} {input : Input} {s s' : AsState}

/-- A write does what it is to do, or fails and does nothing. -/
theorem write_cases (db : Option Db) {r : Except StorageError Unit}
    (h : write s db input = some (r, s')) :
    (r = .ok () ∧ db = some s'.db) ∨ (r = .error .sqlx ∧ s'.db = s.db) := by
  cases input with
  | ok =>
    cases db with
    | some db' => cases h; exact .inl ⟨rfl, rfl⟩
    | none => cases h; exact .inr ⟨rfl, rfl⟩
  | fail => cases h; exact .inr ⟨rfl, rfl⟩
  | text t => cases h
  | google g => cases h
  | info i => cases h

/-- An operation that only reads. -/
theorem dbStep_of_eq {o : Op} {r : o.Ans} (h : s'.db = s.db) (hw : wrote o r = false) :
    DbStep pkgs s.db o r s'.db :=
  h ▸ .same hw

/-- An operation takes one step on the tables. -/
theorem dbStep_perform {o : Op} {r : o.Ans} (h : perform pkgs n req input o s = some (r, s')) :
    DbStep pkgs s.db o r s'.db := by
  cases o with
  | nowMs => cases h; exact .same rfl
  -- the maps of pending authorizations and of codes are no tables
  | takePending key => cases h; exact dbStep_of_eq AsState.noteSome_db rfl
  | takeCode key => cases h; exact dbStep_of_eq AsState.noteSome_db rfl
  | getClient clientId => exact dbStep_of_eq (by rw [(answer_state h).1]) rfl
  | findUser provider subject => exact dbStep_of_eq (by rw [(answer_state h).1]) rfl
  | ensureSchema name => exact dbStep_of_eq (by rw [(answer_state h).1]) rfl
  | issueJwt userId clientId ttl => exact dbStep_of_eq (by rw [(answer_state h).1]) rfl
  | newUlid | authorizeUrl | exchangeCode _ _ | userinfo _ =>
    simp only [perform] at h
    split at h <;> first | (cases h; done) | (cases h; exact .same rfl)
  | putPending key p =>
    simp only [perform] at h
    split at h
    · obtain ⟨m, -, he⟩ := Option.map_eq_some_iff.1 h
      cases he
      exact .same rfl
    · cases h
  | putCode key c =>
    simp only [perform] at h
    split at h
    · obtain ⟨m, -, he⟩ := Option.map_eq_some_iff.1 h
      cases he
      exact .same rfl
    · cases h
  | registerClient uris grants authMethod clientName =>
    simp only [perform] at h
    split at h
    · split at h
      · rename_i hdb
        cases h
        exact .registerClient rfl hdb
      · cases h; exact .same rfl
    · cases h; exact .same rfl
    · cases h
  | insertUser u =>
    simp only [perform] at h
    split at h
    · split at h
      · rename_i row db hdb
        cases h
        rw [AsState.noteSome_db]
        exact .insertUser hdb
      · cases h; exact .same rfl
    · cases h; exact .same rfl
    · cases h
  | touchLastSeen clientId =>
    -- the update has no constraint to violate, so it only fails with the database
    rcases write_cases (some _) h with ⟨rfl, hdb⟩ | ⟨rfl, hdb⟩
    · rw [← Option.some.inj hdb]
      exact .touchLastSeen
    · exact dbStep_of_eq hdb rfl
  | createRefresh tok userId clientId expiresAt =>
    rcases write_cases _ h with ⟨rfl, hdb⟩ | ⟨rfl, hdb⟩
    · exact .createRefresh hdb
    · exact dbStep_of_eq hdb rfl
  | revoke tok now =>
    rcases write_cases (some _) h with ⟨rfl, hdb⟩ | ⟨rfl, hdb⟩
    · rw [← Option.some.inj hdb]
      exact .revoke
    · exact dbStep_of_eq hdb rfl
  | validateAndRevoke tok now =>
    simp only [perform] at h
    split at h
    · cases hx : (s.db.validateAndRevoke (pkgs.sha256 tok) now).1 with
      | some x =>
        rw [hx] at h
        cases h
        exact .validateAndRevoke hx
      | none =>
        -- no token that is valid has this hash: the update matches no row
        rw [hx, Db.validateAndRevoke_none hx] at h
        cases h
        exact .same rfl
    · cases h; exact .same rfl
    · cases h

end Perform

end LlmMemory.Auth
