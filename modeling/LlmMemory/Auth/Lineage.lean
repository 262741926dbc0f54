import LlmMemory.Auth.Provisioning
import LlmMemory.Auth.Rotation

/-!
# The lineage of tokens

Every token that the authorization server issues goes back to a code that a callback
put (`LineageInv.descends`): an access token is issued, and a refresh token stored, for
the user and the client of a code that the request took, or of a refresh token that it
redeemed, which was stored before. The code is for the client that asked for the
authorization whose session the callback took (`LineageGrounds`).

So a token of a user and a client is only issued if the user signed in to an
authorization for the client (`SignedIn`).
-/

namespace LlmMemory.Auth

open Effects Runs Serving

/-! ## Events and what they stand on -/

/-- A session was put under the key. -/
def PendingPut (l : List Done) (key : String) (p : PendingAuth) : Prop :=
  ∃ n req r, .did n req (.putPending key p) r ∈ l

/-- A code was put. -/
def CodePut (l : List Done) (key : String) (entry : AuthCode) : Prop :=
  ∃ n req r, .did n req (.putCode key entry) r ∈ l

/-- A refresh token was stored for the user and the client. -/
def RefreshStored (l : List Done) (userId clientId : String) : Prop :=
  ∃ n req tok expiresAt r, .did n req (.createRefresh tok userId clientId expiresAt) r ∈ l

/-- The `n`-th request took a code of the user and the client, or redeemed a refresh token
    of theirs. -/
def Entitled (l : List Done) (n : ℕ) (userId clientId : String) : Prop :=
  (∃ req key entry, .did n req (.takeCode key) (some entry) ∈ l ∧ entry.userId = userId ∧
    entry.clientId = clientId) ∨
  ∃ req tok now, .did n req (.validateAndRevoke tok now) (.ok (some (userId, clientId))) ∈ l

/-- Tokens of whom the operation issues or stores. -/
def Op.issuedFor : Op → Option (String × String)
  | .issueJwt userId clientId _ => some (userId, clientId)
  | .createRefresh _ userId clientId _ => some (userId, clientId)
  | _ => none

/-- The operation hands a secret on. -/
def Op.issues : Op → Bool
  | .putPending _ _ | .putCode _ _ => true
  | o => o.issuedFor.isSome

/-- What an event stands on, given the events before it. -/
def LineageGrounds (l : List Done) : Done → Prop
  | .did _ req (.putPending _ p) _ => ∃ a, req = .authorize a ∧ p.clientId = a.clientId
  | .did _ _ (.takePending key) (some p) => PendingPut l key p
  | .did n req (.putCode _ entry) _ => ∃ cb p, req = .callbackGoogle cb ∧
    .did n req (.takePending cb.state) (some p) ∈ l ∧ entry.clientId = p.clientId
  | .did _ _ (.takeCode key) (some entry) => CodePut l key entry
  | .did _ _ (.validateAndRevoke _ _) (.ok (some (userId, clientId))) =>
    RefreshStored l userId clientId
  | .did n _ (.issueJwt userId clientId _) _ => Entitled l n userId clientId
  | .did n _ (.createRefresh _ userId clientId _) _ => Entitled l n userId clientId
  | _ => True

/-- What is in the maps was put there, and the refresh tokens in the table were stored. -/
structure LineageInv (c : Conf) : Prop where
  pending : ∀ x ∈ c.state.sessions.pending, PendingPut c.trace x.1 x.2
  codes : ∀ x ∈ c.state.sessions.codes, CodePut c.trace x.1 x.2
  tokens : ∀ t ∈ c.state.db.tokens, RefreshStored c.trace t.userId t.clientId
  grounded : Logs.Grounded LineageGrounds c.trace

/-- The protocol of the grants: the log says where every session and refresh token came
    from. -/
def lineage (cfg : Config) :
    Protocol AuthSig Request (Except Rejection Response) Input World AsState where
  server := server cfg
  inv := LineageInv
  keeps _ _ := True

section Mono

variable {l l' : List Done} (hl : l ⊆ l')
include hl

theorem PendingPut.mono {key : String} {p : PendingAuth} (h : PendingPut l key p) :
    PendingPut l' key p :=
  h.imp fun _ h => h.imp fun _ h => h.imp fun _ h => hl h

theorem CodePut.mono {key : String} {entry : AuthCode} (h : CodePut l key entry) :
    CodePut l' key entry :=
  h.imp fun _ h => h.imp fun _ h => h.imp fun _ h => hl h

theorem RefreshStored.mono {userId clientId : String} (h : RefreshStored l userId clientId) :
    RefreshStored l' userId clientId :=
  h.imp fun _ h => h.imp fun _ h => h.imp fun _ h => h.imp fun _ h => h.imp fun _ h => hl h

theorem Entitled.mono {n : ℕ} {userId clientId : String} (h : Entitled l n userId clientId) :
    Entitled l' n userId clientId :=
  h.imp (fun h => h.imp fun _ h => h.imp fun _ h => h.imp fun _ h => ⟨hl h.1, h.2⟩)
    fun h => h.imp fun _ h => h.imp fun _ h => h.imp fun _ h => hl h

end Mono

/-! ## The maps and the table of tokens -/

section Perform

variable {pkgs : Packages} {n : ℕ} {req : Request} {input : Input} {s s' : AsState} {o : Op}
  {r : o.Ans}

/-- The operation is one on the session maps. -/
def Op.onSessions : Op → Bool
  | .putPending _ _ | .takePending _ | .putCode _ _ | .takeCode _ => true
  | _ => false

theorem AsState.noteSome_sessions {act : Option Action} :
    (s.noteSome n req act).sessions = s.sessions := by
  cases act <;> rfl

theorem write_sessions (db : Option Db) {r : Except StorageError Unit}
    (h : write s db input = some (r, s')) : s'.sessions = s.sessions := by
  cases input with
  | ok => cases db <;> cases h <;> rfl
  | fail => cases h; rfl
  | text _ => cases h
  | google _ => cases h
  | info _ => cases h

theorem sessions_perform (ho : o.onSessions = false)
    (h : perform pkgs n req input o s = some (r, s')) : s'.sessions = s.sessions := by
  cases o with
  | putPending key p => cases ho
  | takePending key => cases ho
  | putCode key c => cases ho
  | takeCode key => cases ho
  | nowMs => cases h; rfl
  | getClient clientId => rw [(answer_state h).1]
  | findUser provider subject => rw [(answer_state h).1]
  | ensureSchema name => rw [(answer_state h).1]
  | issueJwt userId clientId ttl => rw [(answer_state h).1]
  | touchLastSeen clientId => exact write_sessions (some _) h
  | createRefresh tok userId clientId expiresAt => exact write_sessions _ h
  | revoke tok now => exact write_sessions (some _) h
  | newUlid | authorizeUrl | exchangeCode _ _ | userinfo _ =>
    simp only [perform] at h
    split at h <;> first | (cases h; done) | (cases h; rfl)
  | registerClient uris grants authMethod clientName =>
    simp only [perform] at h
    split at h
    · split at h <;> cases h <;> rfl
    · cases h; rfl
    · cases h
  | insertUser u =>
    simp only [perform] at h
    split at h
    · split at h
      · cases h
        exact AsState.noteSome_sessions
      · cases h; rfl
    · cases h; rfl
    · cases h
  | validateAndRevoke tok now =>
    simp only [perform] at h
    split at h <;> cases h <;> rfl

/-- The sessions after an operation were there before, or it put them. -/
theorem pending_perform (h : perform pkgs n req input o s = some (r, s'))
    {x : String × PendingAuth} (hx : x ∈ s'.sessions.pending) :
    x ∈ s.sessions.pending ∨ o = .putPending x.1 x.2 := by
  cases o with
  | putPending key p =>
    simp only [perform] at h
    split at h
    · obtain ⟨m, hm, he⟩ := Option.map_eq_some_iff.1 h
      cases he
      rcases ExpiringMap.mem_put hm hx with rfl | ⟨hx, -⟩
      · exact .inr rfl
      · exact .inl hx
    · cases h
  | takePending key =>
    cases h
    rw [AsState.noteSome_sessions] at hx
    exact .inl (ExpiringMap.mem_take hx).1
  | putCode key c =>
    simp only [perform] at h
    split at h
    · obtain ⟨m, hm, he⟩ := Option.map_eq_some_iff.1 h
      cases he
      exact .inl hx
    · cases h
  | takeCode key =>
    cases h
    rw [AsState.noteSome_sessions] at hx
    exact .inl hx
  | _ =>
    rw [sessions_perform rfl h] at hx
    exact .inl hx

/-- The codes after an operation were there before, or it put them. -/
theorem codes_perform (h : perform pkgs n req input o s = some (r, s')) {x : String × AuthCode}
    (hx : x ∈ s'.sessions.codes) : x ∈ s.sessions.codes ∨ o = .putCode x.1 x.2 := by
  cases o with
  | putPending key p =>
    simp only [perform] at h
    split at h
    · obtain ⟨m, hm, he⟩ := Option.map_eq_some_iff.1 h
      cases he
      exact .inl hx
    · cases h
  | takePending key =>
    cases h
    rw [AsState.noteSome_sessions] at hx
    exact .inl hx
  | putCode key c =>
    simp only [perform] at h
    split at h
    · obtain ⟨m, hm, he⟩ := Option.map_eq_some_iff.1 h
      cases he
      rcases ExpiringMap.mem_put hm hx with rfl | ⟨hx, -⟩
      · exact .inr rfl
      · exact .inl hx
    · cases h
  | takeCode key =>
    cases h
    rw [AsState.noteSome_sessions] at hx
    exact .inl (ExpiringMap.mem_take hx).1
  | _ =>
    rw [sessions_perform rfl h] at hx
    exact .inl hx

/-- Revoking a token keeps its user and client. -/
theorem Db.mem_revoke {db : Db} {hash : List UInt8} {now : Int} {t : Token}
    (ht : t ∈ (db.revoke hash now).tokens) :
    ∃ t₀ ∈ db.tokens, t₀.userId = t.userId ∧ t₀.clientId = t.clientId := by
  obtain ⟨t₀, ht₀, rfl⟩ := List.mem_map.1 ht
  refine ⟨t₀, ht₀, ?_⟩
  split <;> exact ⟨rfl, rfl⟩

/-- The refresh tokens after an operation were there before, but for their revocation, or
    it stored them. -/
theorem DbStep.tokens {db db' : Db} (h : DbStep pkgs db o r db') {t : Token}
    (ht : t ∈ db'.tokens) :
    (∃ t₀ ∈ db.tokens, t₀.userId = t.userId ∧ t₀.clientId = t.clientId) ∨
      ∃ tok expiresAt, o = .createRefresh tok t.userId t.clientId expiresAt := by
  cases h with
  | same hw => exact .inl ⟨t, ht, rfl, rfl⟩
  | touchLastSeen => exact .inl ⟨t, ht, rfl, rfl⟩
  | registerClient hc hins =>
    rw [Db.insertClient] at hins
    split at hins <;> cases hins
    exact .inl ⟨t, ht, rfl, rfl⟩
  | insertUser hins =>
    rw [Db.insertUser] at hins
    split at hins
    · cases hins
      exact .inl ⟨t, ht, rfl, rfl⟩
    · split at hins <;> cases hins
      exact .inl ⟨t, ht, rfl, rfl⟩
  | createRefresh hins =>
    rw [Db.insertToken] at hins
    split at hins <;> cases hins
    rcases List.mem_append.1 ht with ht | ht
    · exact .inl ⟨t, ht, rfl, rfl⟩
    · rw [List.mem_singleton.1 ht]
      exact .inr ⟨_, _, rfl⟩
  | validateAndRevoke hx =>
    rw [Db.validateAndRevoke] at ht
    split at ht
    · exact .inl (Db.mem_revoke ht)
    · exact .inl ⟨t, ht, rfl, rfl⟩
  | revoke => exact .inl (Db.mem_revoke ht)

/-- A refresh token that is redeemed is in the table. -/
theorem DbStep.redeemed {db db' : Db} {tok userId clientId : String} {now : Int}
    (h : DbStep pkgs db (.validateAndRevoke tok now) (.ok (some (userId, clientId))) db') :
    ∃ t ∈ db.tokens, t.userId = userId ∧ t.clientId = clientId := by
  cases h with
  | same hw => cases hw
  | validateAndRevoke hx =>
    rw [Db.validateAndRevoke] at hx
    split at hx
    · next t ht =>
      cases hx
      exact ⟨t, List.mem_of_find?_eq_some ht, rfl, rfl⟩
    · cases hx

/-- A state that is taken was pending. -/
theorem takePending_perform {key : String} {p : PendingAuth}
    (h : perform pkgs n req input (.takePending key) s = some (some p, s')) :
    (key, p) ∈ s.sessions.pending := by
  simp only [perform] at h
  exact (ExpiringMap.take_some (congrArg Prod.fst (Option.some.inj h))).1

theorem takeCode_perform {key : String} {entry : AuthCode}
    (h : perform pkgs n req input (.takeCode key) s = some (some entry, s')) :
    (key, entry) ∈ s.sessions.codes := by
  simp only [perform] at h
  exact (ExpiringMap.take_some (congrArg Prod.fst (Option.some.inj h))).1

end Perform

/-! ## The handlers -/

section Handlers

variable {cfg : Config} {n : ℕ} {req : Request} {P : Lasting (lineage cfg)}

/-- Whoever does an operation that has its grounds, the invariant is kept. -/
theorem lineage_evolves {c : Conf} {o : Op} {r : o.Ans} {s : AsState} {input : Input}
    (hp : perform cfg.pkgs n req input o c.state = some (r, s))
    (hg : o.issues = true → LineageGrounds c.trace (.did n req o r)) :
    (lineage cfg).Evolves c (c.next s (.did n req o r)) := by
  have hsub : c.trace ⊆ (c.next s (.did n req o r)).trace := List.subset_append_left _ _
  have hdid : (.did n req o r : Done) ∈ (c.next s (.did n req o r)).trace :=
    Conf.mem_next.2 (.inr rfl)
  refine ⟨⟨[_], rfl⟩, trivial, fun h => ⟨fun x hx => ?_, fun x hx => ?_, fun t ht => ?_,
    h.grounded.snoc ?_⟩⟩
  · rcases pending_perform hp hx with hx | rfl
    · exact (h.pending x hx).mono hsub
    · exact ⟨n, req, r, hdid⟩
  · rcases codes_perform hp hx with hx | rfl
    · exact (h.codes x hx).mono hsub
    · exact ⟨n, req, r, hdid⟩
  · rcases (dbStep_perform hp).tokens ht with ⟨t₀, ht₀, huser, hclient⟩ | ⟨tok, expiresAt, rfl⟩
    · rw [← huser, ← hclient]
      exact (h.tokens t₀ ht₀).mono hsub
    · exact ⟨n, req, tok, expiresAt, r, hdid⟩
  · cases hissues : o.issues with
    | true => exact hg hissues
    | false =>
      -- what the operation answers comes from the maps, or from the table
      cases o with
      | takePending key =>
        cases r with
        | none => trivial
        | some p => exact h.pending _ (takePending_perform hp)
      | takeCode key =>
        cases r with
        | none => trivial
        | some entry => exact h.codes _ (takeCode_perform hp)
      | validateAndRevoke tok now =>
        match r with
        | .error _ => trivial
        | .ok none => trivial
        | .ok (some (userId, clientId)) =>
          obtain ⟨t, ht, rfl, rfl⟩ := (dbStep_perform hp).redeemed
          exact h.tokens t ht
      | putPending key p => cases hissues
      | putCode key entry => cases hissues
      | issueJwt userId clientId ttl => cases hissues
      | createRefresh tok userId clientId expiresAt => cases hissues
      | _ => trivial

theorem lineage_free {o : Op} (ho : o.issues = false) : (lineage cfg).Free o :=
  fun _ _ _ _ _ _ _ _ hp => lineage_evolves hp fun h => by rw [ho] at h; cases h

theorem lineage_obeys {γ : Type} {o : Op} {k : o.Ans → Except Rejection γ}
    (ho : o.issues = false) : Obeys (lineage cfg) n req P (Attempt.call o k) fun _ => P :=
  Obeys.free (.call (lineage_free ho))

/-- An operation that hands a secret on, with its grounds. -/
theorem issues_obeys {γ : Type} {o : Op} {k : o.Ans → Except Rejection γ}
    (hg : ∀ c r, P.holds c → LineageGrounds c.trace (.did n req o r)) :
    Obeys (lineage cfg) n req P (Attempt.call o k) fun _ => P :=
  Obeys.call fun c r s input hc _ hp => by
    have hev := lineage_evolves hp fun _ => hg c r hc.2
    exact ⟨hev, fun _ _ => P.lasts hev.trace hev.keeps hc.2⟩

/-- An operation that takes something, and has taken it. -/
theorem takes_obeys {γ : Type} {o : Op} {k : o.Ans → Except Rejection γ} {e : γ → Done}
    (ho : o.issues = false) (hk : ∀ r x, k r = .ok x → e x = .did n req o r) :
    Obeys (lineage cfg) n req P (Attempt.call o k) fun x => .happened (e x) :=
  Obeys.call fun c r s input hc hok hp => by
    refine ⟨lineage_free ho n req input c r s hc.1 hok hp, fun x hx => ?_⟩
    exact Conf.mem_next.2 (.inr (hk r x hx))

/-- The request may have tokens of the user and the client. -/
def entitled (cfg : Config) (n : ℕ) (userId clientId : String) : Lasting (lineage cfg) :=
  ⟨fun c => Entitled c.trace n userId clientId, fun ht _ h => h.mono ht.subset⟩

/-- The grant types are read freely. -/
theorem clientGrantTypes_lineage {clientId : String} :
    FreeProgram (lineage cfg) (clientGrantTypes clientId) := by
  refine FreeProgram.bind (.call (lineage_free rfl)) fun x => ?_
  cases x with
  | none => exact FreeProgram.ret
  | some client =>
    dsimp only
    split <;> exact FreeProgram.ret

/-- The tokens are issued to a user and a client that are entitled. -/
theorem issueTokens_lineage {userId clientId : String} {refresh : Bool} :
    Obeys (lineage cfg) n req (entitled cfg n userId clientId)
      (issueTokens userId clientId refresh) fun _ => .none := by
  refine Obeys.bind (issues_obeys fun _ _ h => h) fun access => ?_
  cases refresh with
  | false => exact Obeys.pure fun _ _ => trivial
  | true =>
    refine Obeys.bind (lineage_obeys rfl) fun tok => Obeys.bind (lineage_obeys rfl) fun now => ?_
    exact Obeys.bind (issues_obeys fun _ _ h => h) fun _ => Obeys.pure fun _ _ => trivial

theorem authorize_lineage {p : AuthorizeParams} :
    Obeys (lineage cfg) n (.authorize p) .none (authorize p) fun _ => .none := by
  refine Obeys.ret_bind fun _ _ => Obeys.bind (lineage_obeys rfl) fun x => ?_
  cases x with
  | none => exact Obeys.fail
  | some client =>
    refine Obeys.ret_bind fun _ _ => Obeys.bind (lineage_obeys rfl) fun _ =>
      Obeys.bind (lineage_obeys rfl) fun g => Obeys.bind (lineage_obeys rfl) fun now => ?_
    exact Obeys.bind (issues_obeys fun _ _ _ => ⟨p, rfl, rfl⟩) fun _ => Obeys.pure fun _ h => h

theorem findOrProvision_lineage {newId provider subject schema : String}
    {email : Option String} :
    FreeProgram (lineage cfg) (findOrProvision newId provider subject email schema) := by
  refine FreeProgram.bind (.call (lineage_free rfl)) fun x => ?_
  cases x with
  | some existing => exact FreeProgram.ret
  | none =>
    refine FreeProgram.bind (.call (lineage_free rfl)) fun now =>
      FreeProgram.bind (.call (lineage_free rfl)) fun _ =>
      FreeProgram.bind (.call (lineage_free rfl)) fun y => ?_
    cases y <;> exact FreeProgram.ret

/-- The callback puts the code of the user it found, for the client of the state. -/
theorem callbackGoogle_lineage {cb : CallbackParams} {sharedSchema : String} :
    Obeys (lineage cfg) n (.callbackGoogle cb) .none (callbackGoogle sharedSchema cb) fun _ => .none := by
  refine Obeys.bind (takes_obeys (e := fun x => .did n _ (.takePending cb.state) x) rfl
    fun r x h => by cases h; rfl) fun x => ?_
  cases x with
  | none => exact Obeys.fail
  | some pending =>
    refine Obeys.bind (lineage_obeys rfl) fun token => Obeys.bind (lineage_obeys rfl) fun info =>
      Obeys.bind (lineage_obeys rfl) fun newId =>
      Obeys.bind (Obeys.free findOrProvision_lineage) fun user =>
      Obeys.bind (lineage_obeys rfl) fun _ => Obeys.bind (lineage_obeys rfl) fun _ =>
      Obeys.bind (lineage_obeys rfl) fun code => Obeys.bind (lineage_obeys rfl) fun now => ?_
    -- the code is for the client of the session
    exact Obeys.bind (issues_obeys fun _ _ h => ⟨cb, pending, rfl, h, rfl⟩) fun _ =>
      Obeys.pure fun _ _ => trivial

/-- The code grant issues for the user and the client of the code. -/
theorem grantAuthCode_lineage {body : TokenForm} :
    Obeys (lineage cfg) n req .none (grantAuthCode cfg.pkgs body) fun _ => .none := by
  refine required_obeys fun code _ => required_obeys fun verifier _ => ?_
  refine Obeys.bind (takes_obeys (e := fun x => .did n req (.takeCode code) x) rfl
    fun r x h => by cases h; rfl) fun x => ?_
  cases x with
  | none => exact Obeys.fail
  | some entry =>
    refine Obeys.ret_bind fun _ _ => Obeys.bind (Obeys.free clientGrantTypes_lineage) fun grants => ?_
    cases grants with
    | none => exact Obeys.fail
    | some grants =>
      exact Obeys.pre issueTokens_lineage fun _ h => .inl ⟨req, code, entry, h, rfl, rfl⟩

/-- The refresh grant issues for the user and the client of the token. -/
theorem grantRefresh_lineage {body : TokenForm} :
    Obeys (lineage cfg) n req .none (grantRefresh body) fun _ => .none := by
  refine required_obeys fun tok _ => Obeys.bind (lineage_obeys rfl) fun now => ?_
  refine Obeys.bind (takes_obeys (e := fun x => .did n req (.validateAndRevoke tok now) (.ok x))
    rfl fun r x h => ?_) fun x => ?_
  · cases r <;> cases h
    rfl
  · cases x with
    | none => exact Obeys.fail
    | some x =>
      obtain ⟨userId, clientId⟩ := x
      refine Obeys.bind (Obeys.free clientGrantTypes_lineage) fun grants => ?_
      cases grants with
      | none => exact Obeys.fail
      | some grants =>
        dsimp only
        split
        · exact Obeys.pre issueTokens_lineage fun _ h => .inr ⟨req, tok, now, h⟩
        · exact Obeys.fail

theorem handle_lineage :
    Obeys (lineage cfg) n req .none (handle cfg req) fun _ => .none := by
  cases req with
  | register body =>
    refine Obeys.free ?_
    show FreeProgram (lineage cfg) (register cfg.pkgs body)
    rw [register]
    split
    · exact FreeProgram.ret
    · exact FreeProgram.bind (.call (lineage_free rfl)) fun _ => FreeProgram.ret
  | authorize p => exact authorize_lineage
  | callbackGoogle cb => exact callbackGoogle_lineage
  | revoke tok =>
    exact Obeys.bind (lineage_obeys rfl) fun _ => Obeys.bind (lineage_obeys rfl) fun _ =>
      Obeys.pure fun _ h => h
  | token body =>
    show Obeys (lineage cfg) n (.token body) .none (token cfg.pkgs body) fun _ => .none
    rw [token]
    split
    · exact grantAuthCode_lineage
    · split
      · exact grantRefresh_lineage
      · exact Obeys.fail

end Handlers

/-! ## Runs -/

section Runs

variable {cfg : Config} {l : List Done}

/-- The server keeps the protocol. -/
theorem lineage_meets : (lineage cfg).Meets fun _ _ _ _ => True where
  handle n req c h := Triple.post handle_lineage (fun _ _ _ => trivial) c ⟨h, trivial⟩
  finish n req a c _ _ := by
    refine ⟨⟨[_], rfl⟩, trivial, fun h => ⟨fun x hx => ?_, fun x hx => ?_, fun t ht => ?_,
      h.grounded.snoc trivial⟩⟩
    · exact (h.pending x hx).mono (List.subset_append_left _ _)
    · exact (h.codes x hx).mono (List.subset_append_left _ _)
    · exact (h.tokens t ht).mono (List.subset_append_left _ _)
  world w c s _ _ hw := by
    cases hw
    refine ⟨⟨[_], rfl⟩, trivial, fun h => ⟨fun x hx => ?_, fun x hx => ?_, fun t ht => ?_,
      h.grounded.snoc trivial⟩⟩
    · refine (h.pending x ?_).mono (List.subset_append_left _ _)
      cases w <;> exact hx
    · refine (h.codes x ?_).mono (List.subset_append_left _ _)
      cases w <;> exact hx
    · refine (h.tokens t ?_).mono (List.subset_append_left _ _)
      cases w <;> exact ht

/-- A code goes back to the authorization request of its client. -/
theorem LineageInv.code {c : Conf} (h : LineageInv c) {n : ℕ} {req : Request} {key : String}
    {entry : AuthCode} {r : Unit} (he : .did n req (.putCode key entry) r ∈ c.trace) :
    ∃ m a cb p r', .did m (.authorize a) (.putPending cb.state p) r' ∈ c.trace ∧
      a.clientId = entry.clientId ∧ req = .callbackGoogle cb ∧
      .did n req (.takePending cb.state) (some p) ∈ c.trace := by
  obtain ⟨l₁, hl₁, cb, p, hreq, htaken, hclient⟩ := h.grounded.mem he
  obtain ⟨l₂, hl₂, m, req', r', hput⟩ := h.grounded.mem (hl₁ htaken)
  obtain ⟨l₃, -, a, rfl, hasked⟩ := h.grounded.mem (hl₂ hput)
  exact ⟨m, a, cb, p, r', hl₂ hput, hasked.symm.trans hclient.symm, hreq, hl₁ htaken⟩

/-- A code was put for the user and the client. -/
def Descends (l : List Done) (userId clientId : String) : Prop :=
  ∃ key entry, CodePut l key entry ∧ entry.userId = userId ∧ entry.clientId = clientId

/-- Tokens are only issued to whom a code was put for: by the grounds of each event, an
    induction along the trace. -/
theorem LineageInv.descends {c : Conf} (h : LineageInv c) {n : ℕ} {req : Request} {o : Op}
    {r : o.Ans} {userId clientId : String} (he : .did n req o r ∈ c.trace)
    (ho : o.issuedFor = some (userId, clientId)) : Descends c.trace userId clientId := by
  have hall : ∀ e ∈ c.trace, ∀ n req o r userId clientId, e = .did n req o r →
      o.issuedFor = some (userId, clientId) → Descends c.trace userId clientId := by
    refine h.grounded.induction fun l e hsub hl hg ih n req o r userId clientId he ho => ?_
    have hentitled : Entitled l n userId clientId → Descends c.trace userId clientId := by
      rintro (⟨req', key, entry, htaken, huser, hclient⟩ | ⟨req', tok, now, hredeemed⟩)
      · obtain ⟨l₁, hl₁, hput⟩ := hl.mem htaken
        exact ⟨key, entry, (CodePut.mono hl₁ hput).mono hsub, huser, hclient⟩
      · -- the refresh token was stored before
        obtain ⟨l₁, hl₁, m, req'', tok', expiresAt, r', hstored⟩ := hl.mem hredeemed
        exact ih _ (hl₁ hstored) m req'' _ r' userId clientId rfl rfl
    subst he
    cases o with
    | issueJwt userId' clientId' ttl =>
      cases ho
      exact hentitled hg
    | createRefresh tok userId' clientId' expiresAt =>
      cases ho
      exact hentitled hg
    | _ => cases ho
  exact hall _ he n req o r userId clientId rfl ho

/-- The user of the row signed in to an authorization for the client: the client asked
    for it, and a callback about its session was told the subject by Google, found the
    row for it, and put a code. -/
def SignedIn (l : List Done) (subject : String) (row : User) (clientId : String) : Prop :=
  ∃ m a n cb p code entry r r', .did m (.authorize a) (.putPending cb.state p) r ∈ l ∧
    a.clientId = clientId ∧ .did n (.callbackGoogle cb) (.takePending cb.state) (some p) ∈ l ∧
    Provisioned l n subject row ∧ .did n (.callbackGoogle cb) (.putCode code entry) r' ∈ l ∧
    entry.userId = row.id ∧ entry.clientId = clientId

/-- Whom a code was put for signed in. -/
theorem signedIn_of_descends {c : Conf} (h : LineageInv c) (hprov : ProvisioningInv cfg c)
    {userId clientId : String} (hdesc : Descends c.trace userId clientId) :
    ∃ subject row, SignedIn c.trace subject row clientId ∧ row.id = userId := by
  obtain ⟨key, entry, ⟨n, req, r', hput⟩, huser, hclient⟩ := hdesc
  obtain ⟨m, a, cb, p, r, hasked, ha, rfl, htaken⟩ := h.code hput
  obtain ⟨l, hl, subject, row, hrow, hid⟩ := hprov.grounded.mem hput
  exact ⟨subject, row, ⟨m, a, n, cb, p, key, entry, r, r', hasked, ha.trans hclient, htaken,
    hrow.mono hl, hput, hid, hclient⟩, hid.symm.trans huser⟩

/-- The row is that of the subject, and its schema too. -/
theorem SignedIn.row {c : Conf} (hprov : ProvisioningInv cfg c) {subject clientId : String}
    {row : User} (h : SignedIn c.trace subject row clientId) :
    row ∈ c.state.db.users ∧ row.provider = "google" ∧ row.subject = subject ∧
      row.vegapunkSchema = "user-" ++ subject := by
  obtain ⟨m, a, n, cb, p, code, entry, r, r', -, -, -, hrow, -⟩ := h
  obtain ⟨hmem, hgoogle, hsubject⟩ := hprov.found n "google" subject row hrow.found
  refine ⟨hmem, hgoogle, hsubject, ?_⟩
  rw [hprov.users.schemas row hmem hgoogle, hsubject]

/-- There are no refresh tokens. -/
def Untouched (db : Db) : Prop := UsersInv db ∧ db.tokens = []

variable {ok : Sys → Serving.Move Request Input World → Prop} {s : Sys}

/-- What starts in fewer ways is reached from more. -/
theorem Reached.of_starts {Q Q' : Db → Prop} (h : Reached cfg Q ok s) (hQ : ∀ db, Q db → Q' db) :
    Reached cfg Q' ok s := by
  induction h with
  | init hs =>
    obtain ⟨st, hst, rfl⟩ := hs
    exact .init ⟨st, ⟨hQ _ hst.1, hst.2⟩, rfl⟩
  | step _ hok hst ih => exact .step ih hok hst

/-- Every system reached from untouched tables is sound. -/
theorem lineage_sound (h : Reached cfg Untouched ok s) :
    (lineage cfg).Sound (fun _ _ _ _ => True) s := by
  refine lineage_meets.sound (fun st hst => ?_) (fun s m _ => ?_) h
  · obtain ⟨⟨-, htokens⟩, hsessions, -⟩ := hst
    refine ⟨fun x hx => ?_, fun x hx => ?_, fun t ht => ?_, .nil⟩
    · rw [hsessions] at hx
      exact absurd hx List.not_mem_nil
    · rw [hsessions] at hx
      exact absurd hx List.not_mem_nil
    · rw [htokens] at ht
      exact absurd ht List.not_mem_nil
  · cases m with
    | handling i input => exact fun _ _ _ _ _ => trivial
    | _ => trivial

/-- In the run, tokens are only issued, stored and kept for users who signed in. -/
structure TokensDescend (s : Sys) : Prop where
  issued : ∀ n req o r userId clientId, .did n req o r ∈ s.conf.trace →
    o.issuedFor = some (userId, clientId) →
    ∃ subject row, SignedIn s.conf.trace subject row clientId ∧ row.id = userId
  kept : ∀ t ∈ s.conf.state.db.tokens,
    ∃ subject row, SignedIn s.conf.trace subject row t.clientId ∧ row.id = t.userId
  rows : ∀ subject row clientId, SignedIn s.conf.trace subject row clientId →
    row ∈ s.conf.state.db.users ∧ row.provider = "google" ∧ row.subject = subject ∧
      row.vegapunkSchema = "user-" ++ subject

/-- In every run, whatever the interleaving, a token is only issued for a user who signed
    in, by Google, to an authorization that the client of the token asked for. -/
theorem tokens_descend (h : Reached cfg Untouched ok s) : TokensDescend s := by
  have hlineage : LineageInv s.conf := (lineage_sound h).inv
  have hprov : ProvisioningInv cfg s.conf := (provisioning_sound (h.of_starts fun _ h => h.1)).inv
  refine ⟨fun n req o r userId clientId he ho =>
    signedIn_of_descends hlineage hprov (hlineage.descends he ho), fun t ht => ?_,
    fun subject row clientId hin => hin.row hprov⟩
  obtain ⟨n, req, tok, expiresAt, r, hstored⟩ := hlineage.tokens t ht
  exact signedIn_of_descends hlineage hprov (hlineage.descends hstored rfl)

/-- The two refresh tokens of a rotation. -/
theorem tokens_descend_rotation : ∃ s, Reached .rotating Untouched (fun _ _ => True) s ∧
    s.conf.state.db.tokens.map (fun t => (t.userId, t.clientId)) = [("u1", "c1"), ("u1", "c1")] ∧
    TokensDescend s := by
  obtain ⟨s, hs, htokens⟩ : ∃ s, exec (server .rotating).step (fun _ _ => true)
      (.start { now := 1000000, db := ⟨[], [], []⟩ }) firstRotation = some s ∧
      s.conf.state.db.tokens.map (fun t => (t.userId, t.clientId)) =
        [("u1", "c1"), ("u1", "c1")] :=
    Option.map_eq_some_iff.1 (by decide)
  have hr : Reached .rotating Untouched (fun _ _ => True) s :=
    .exec (fun _ _ _ => trivial)
      (.init ⟨_, ⟨⟨⟨by simp, by simp, by simp⟩, rfl⟩, rfl, rfl⟩, rfl⟩) hs
  exact ⟨s, hr, htokens, tokens_descend hr⟩

end Runs

end LlmMemory.Auth
