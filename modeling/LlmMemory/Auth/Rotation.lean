import LlmMemory.Auth.Runs
import LlmMemory.Auth.Tables
import LlmMemory.Lib.Rows

/-!
# Refresh tokens

A refresh token is known to the server by its hash. It is *issued* by a row of
the table, *redeemed* by `validate_and_revoke`, and *retired* once it was
redeemed or revoked (`Issued`, `Retired`).

* `refresh_once`: a token is redeemed at most once, after it was issued, before
  it expires, and never after it was retired;
* `not_redeemable_lasts`: a token that is not redeemable never is again;
* `validateRefresh_eq`: the two validations accept the same tokens;
* `rotation_identity`: along a chain of rotations, tokens keep the user and the
  client of the code it starts from.

These hold in every run (`refresh_rotation`), however the requests interleave.
-/

namespace LlmMemory.Auth

open Effects Runs Serving

/-! ## Validation without revocation -/

/-- Give the user and the client of the refresh token of a hash, if it is valid. -/
def Db.validateRefresh (db : Db) (hash : List UInt8) (now : Int) : Option (String × String) :=
  match db.tokens.find? fun t => t.refreshTokenHash = hash with
  | some t => if t.revokedAt.isSome ∨ t.expiresAt ≤ now then none else some (t.userId, t.clientId)
  | none => none

/-- The hashes are the primary key of the table of tokens. -/
def Db.TokensKeyed (db : Db) : Prop := (db.tokens.map (·.refreshTokenHash)).Nodup

/-- The refresh token of a hash can be redeemed at the time `now`. -/
def Db.Redeemable (db : Db) (hash : List UInt8) (now : Int) : Prop :=
  (db.validateAndRevoke hash now).1.isSome

theorem Db.TokensKeyed.unique {db : Db} (h : db.TokensKeyed) {t t' : Token} (ht : t ∈ db.tokens)
    (ht' : t' ∈ db.tokens) (hk : t.refreshTokenHash = t'.refreshTokenHash) : t = t' :=
  List.inj_on_of_nodup_map h ht ht' hk

/-- What is validated and revoked was valid. -/
theorem Db.validateAndRevoke_some {db : Db} {hash : List UInt8} {now : Int} {x : String × String}
    (h : (db.validateAndRevoke hash now).1 = some x) :
    (∃ t ∈ db.tokens, t.refreshTokenHash = hash ∧ t.revokedAt = none ∧ now < t.expiresAt ∧
      x = (t.userId, t.clientId)) ∧ (db.validateAndRevoke hash now).2 = db.revoke hash now := by
  rw [validateAndRevoke] at h ⊢
  split at h
  · rename_i t ht
    have hp := List.find?_some ht
    simp only [decide_eq_true_eq] at hp
    exact ⟨⟨t, List.mem_of_find?_eq_some ht, hp.1, hp.2.1, hp.2.2, (Option.some.inj h).symm⟩, rfl⟩
  · cases h

/-- A hash is redeemable if it has a valid row. -/
theorem Db.redeemable_iff {db : Db} {hash : List UInt8} {now : Int} :
    db.Redeemable hash now ↔
      ∃ t ∈ db.tokens, t.refreshTokenHash = hash ∧ t.revokedAt = none ∧ now < t.expiresAt := by
  constructor
  · intro h
    obtain ⟨x, hx⟩ := Option.isSome_iff_exists.1 h
    obtain ⟨⟨t, ht, hh, hr, he, -⟩, -⟩ := validateAndRevoke_some hx
    exact ⟨t, ht, hh, hr, he⟩
  · rintro ⟨t, ht, hh, hr, he⟩
    rw [Redeemable, validateAndRevoke]
    split
    · rfl
    · rename_i hnone
      exact absurd (List.find?_eq_none.1 hnone t ht) (by simp [hh, hr, he])

/-- The two validations accept the same tokens, and answer the same. -/
theorem validateRefresh_eq {db : Db} (h : db.TokensKeyed) (hash : List UInt8) (now : Int) :
    db.validateRefresh hash now = (db.validateAndRevoke hash now).1 := by
  rw [Db.validateRefresh]
  cases hx : (db.validateAndRevoke hash now).1 with
  | some x =>
    obtain ⟨⟨t, ht, rfl, hr, he, rfl⟩, -⟩ := Db.validateAndRevoke_some hx
    have hfind : db.tokens.find? (fun t' => t'.refreshTokenHash = t.refreshTokenHash) = some t :=
      Rows.find?_eq_some_of_unique ht (by simp) fun t' ht' hk =>
        h.unique ht' ht (of_decide_eq_true hk)
    rw [hfind]
    exact if_neg (by simp [hr, he])
  | none =>
    split
    · rename_i t ht
      obtain rfl : t.refreshTokenHash = hash := by simpa using List.find?_some ht
      refine if_pos (by_contra fun hno => ?_)
      -- a token that passes the first validation is redeemable
      have hred : db.Redeemable t.refreshTokenHash now := Db.redeemable_iff.2
        ⟨t, List.mem_of_find?_eq_some ht, rfl, by simpa using fun hs => hno (.inl hs),
          Int.not_le.1 fun he => hno (.inr he)⟩
      rw [Db.Redeemable, hx] at hred
      cases hred
    · rfl

/-! ## What events do to tokens -/

/-- What an event does to the refresh tokens. -/
inductive TokenEffect
  | none
  | created (t : Token)
  | redeemed (hash : List UInt8) (now : Int) (userId clientId : String)
  | revoked (hash : List UInt8)
  deriving DecidableEq, Repr

/-- The effect of an event on the refresh tokens: only a storage call that succeeds has one. -/
def tokenEffect (pkgs : Packages) : Done → TokenEffect
  | .did _ _ (.createRefresh tok userId clientId expiresAt) (.ok _) =>
    .created ⟨pkgs.sha256 tok, userId, clientId, expiresAt, .none⟩
  | .did _ _ (.validateAndRevoke tok now) (.ok (some (userId, clientId))) =>
    .redeemed (pkgs.sha256 tok) now userId clientId
  | .did _ _ (.revoke tok _) (.ok _) => .revoked (pkgs.sha256 tok)
  | _ => .none

/-- The row as it was inserted. -/
def Token.asIssued (t : Token) : Token := { t with revokedAt := none }

/-- The token was in the table at first, or was inserted since. -/
def Issued (pkgs : Packages) (db₀ : Db) (l : List Done) (t : Token) : Prop :=
  (∃ t₀ ∈ db₀.tokens, t₀.asIssued = t) ∨ ∃ e ∈ l, tokenEffect pkgs e = .created t

/-- The event `e`, after those of `l`, redeems the token of a hash, or revokes
    it, it being issued. -/
def Retires (pkgs : Packages) (db₀ : Db) (l : List Done) (e : Done) (hash : List UInt8) : Prop :=
  (∃ now userId clientId, tokenEffect pkgs e = .redeemed hash now userId clientId) ∨
    tokenEffect pkgs e = .revoked hash ∧ ∃ t, Issued pkgs db₀ l t ∧ t.refreshTokenHash = hash

/-- The token of a hash was redeemed or revoked. -/
def Retired (pkgs : Packages) (db₀ : Db) (l : List Done) (hash : List UInt8) : Prop :=
  ∃ l₁ e l₂, l = l₁ ++ e :: l₂ ∧ Retires pkgs db₀ l₁ e hash

/-- A token was issued to a user and a client, and has not expired. -/
def Valid (pkgs : Packages) (db₀ : Db) (l : List Done) (hash : List UInt8) (now : Int)
    (userId clientId : String) : Prop :=
  ∃ expiresAt, Issued pkgs db₀ l ⟨hash, userId, clientId, expiresAt, none⟩ ∧ now < expiresAt

variable {pkgs : Packages} {db₀ : Db} {l : List Done} {e : Done} {hash : List UInt8} {t : Token}

theorem issued_snoc : Issued pkgs db₀ (l ++ [e]) t ↔
    Issued pkgs db₀ l t ∨ tokenEffect pkgs e = .created t := by
  simp only [Issued, List.mem_append, List.mem_singleton]
  constructor
  · rintro (h | ⟨e', he' | rfl, h⟩)
    · exact .inl (.inl h)
    · exact .inl (.inr ⟨e', he', h⟩)
    · exact .inr h
  · rintro ((h | ⟨e', he', h⟩) | h)
    · exact .inl h
    · exact .inr ⟨e', .inl he', h⟩
    · exact .inr ⟨e, .inr rfl, h⟩

theorem Retired.of_snoc (h : Retired pkgs db₀ (l ++ [e]) hash) :
    Retired pkgs db₀ l hash ∨ Retires pkgs db₀ l e hash := by
  obtain ⟨l₁, e', l₂, heq, h⟩ := h
  rcases List.eq_nil_or_concat l₂ with rfl | ⟨l₂, e'', rfl⟩
  · obtain ⟨rfl, he⟩ := List.append_inj' heq rfl
    cases he
    exact .inr h
  · rw [List.concat_eq_append, ← List.cons_append, ← List.append_assoc] at heq
    exact .inl ⟨l₁, e', l₂, (List.append_inj' heq rfl).1, h⟩

theorem Retired.of_mem {now : Int} {userId clientId : String} (he : e ∈ l)
    (h : tokenEffect pkgs e = .redeemed hash now userId clientId) : Retired pkgs db₀ l hash := by
  obtain ⟨l₁, l₂, rfl⟩ := List.append_of_mem he
  exact ⟨l₁, e, l₂, rfl, .inl ⟨now, userId, clientId, h⟩⟩

/-! ## The table agrees with the trace -/

/-- The table of tokens, before and after an event. -/
inductive TokensStep (pkgs : Packages) (s s' : AsState) (e : Done) : Prop
  | quiet (heff : tokenEffect pkgs e = .none) (hdb : s'.db.tokens = s.db.tokens)
  | create (t : Token) (heff : tokenEffect pkgs e = .created t) (ht : t.revokedAt = none)
      (hnew : ∀ t' ∈ s.db.tokens, t'.refreshTokenHash ≠ t.refreshTokenHash)
      (hdb : s'.db.tokens = s.db.tokens ++ [t])
  | redeem (t : Token) (now : Int) (ht : t ∈ s.db.tokens) (hr : t.revokedAt = none)
      (he : now < t.expiresAt)
      (heff : tokenEffect pkgs e = .redeemed t.refreshTokenHash now t.userId t.clientId)
      (hdb : s'.db = s.db.revoke t.refreshTokenHash now)
  | revoke (hash : List UInt8) (now : Int) (heff : tokenEffect pkgs e = .revoked hash)
      (hdb : s'.db = s.db.revoke hash now)

/-- A row after a revocation. -/
def Token.revokeAt (hash : List UInt8) (now : Int) (t : Token) : Token :=
  if t.refreshTokenHash = hash then { t with revokedAt := some now } else t

theorem Db.revoke_tokens {db : Db} {now : Int} :
    (db.revoke hash now).tokens = db.tokens.map (Token.revokeAt hash now) := rfl

/-- The row is otherwise as it was. -/
@[simp] theorem Token.revokeAt_asIssued {now : Int} :
    (t.revokeAt hash now).asIssued = t.asIssued := by
  rw [revokeAt]
  split <;> rfl

@[simp] theorem Token.revokeAt_hash {now : Int} :
    (t.revokeAt hash now).refreshTokenHash = t.refreshTokenHash := by
  rw [revokeAt]
  split <;> rfl

theorem Token.revokeAt_revoked {now : Int} (h : t.revokedAt ≠ none) :
    (t.revokeAt hash now).revokedAt ≠ none := by
  rw [revokeAt]
  split
  · exact Option.some_ne_none _
  · exact h

/-- The table holds the tokens issued, with distinct hashes, and those retired
    are revoked in it. -/
structure TokensInv (pkgs : Packages) (db₀ : Db) (c : Conf) : Prop where
  keyed : c.state.db.TokensKeyed
  issued : ∀ t, Issued pkgs db₀ c.trace t ↔ ∃ t' ∈ c.state.db.tokens, t'.asIssued = t
  retired : ∀ hash, Retired pkgs db₀ c.trace hash →
    ∃ t ∈ c.state.db.tokens, t.refreshTokenHash = hash ∧ t.revokedAt ≠ none

namespace TokensInv

variable {c : Conf} {s : AsState}

/-- A revocation in the table, as the event retires the token. -/
theorem revoked {now : Int} (h : TokensInv pkgs db₀ c)
    (hcreates : ∀ t, tokenEffect pkgs e ≠ .created t)
    (hretires : ∀ hash', Retires pkgs db₀ c.trace e hash' →
      hash' = hash ∧ ∃ t ∈ c.state.db.tokens, t.refreshTokenHash = hash)
    (hdb : s.db = c.state.db.revoke hash now) : TokensInv pkgs db₀ (c.next s e) where
  keyed := by
    have hkeys : (s.db.tokens.map (·.refreshTokenHash)) =
        c.state.db.tokens.map (·.refreshTokenHash) := by
      simp [hdb, Db.revoke_tokens, Function.comp_def]
    exact (congrArg List.Nodup hkeys).mpr h.keyed
  issued t := by
    rw [Conf.next_trace, issued_snoc, h.issued, Conf.next_state, hdb, Db.revoke_tokens]
    simp only [List.mem_map, exists_exists_and_eq_and, Token.revokeAt_asIssued, hcreates t, or_false]
  retired hash' hr := by
    simp only [Conf.next_state, hdb, Db.revoke_tokens, List.mem_map, exists_exists_and_eq_and,
      Token.revokeAt_hash]
    rcases hr.of_snoc with hr | hr
    · obtain ⟨t, ht, hk, hrev⟩ := h.retired hash' hr
      exact ⟨t, ht, hk, Token.revokeAt_revoked hrev⟩
    · obtain ⟨rfl, t, ht, hk⟩ := hretires hash' hr
      refine ⟨t, ht, hk, ?_⟩
      rw [Token.revokeAt, if_pos hk]
      exact Option.some_ne_none _

/-- An event that retires no token, on which the table may gain a row. -/
theorem retired_mono (h : TokensInv pkgs db₀ c) (hsub : c.state.db.tokens ⊆ s.db.tokens)
    (hno : ∀ hash, ¬Retires pkgs db₀ c.trace e hash) (hash : List UInt8)
    (hr : Retired pkgs db₀ (c.next s e).trace hash) :
    ∃ t ∈ (c.next s e).state.db.tokens, t.refreshTokenHash = hash ∧ t.revokedAt ≠ none := by
  obtain ⟨t, ht, hk⟩ := h.retired hash (hr.of_snoc.resolve_right (hno hash))
  exact ⟨t, hsub ht, hk⟩

/-- The table goes on agreeing with the trace. -/
theorem step (h : TokensInv pkgs db₀ c) (hs : TokensStep pkgs c.state s e) :
    TokensInv pkgs db₀ (c.next s e) := by
  cases hs with
  | quiet heff hdb =>
    refine ⟨?_, fun t => ?_, h.retired_mono (fun t ht => hdb ▸ ht) fun hash => ?_⟩
    · rw [Db.TokensKeyed, Conf.next_state, hdb]
      exact h.keyed
    · rw [Conf.next_trace, issued_snoc, h.issued, Conf.next_state, hdb, heff]
      simp
    · rintro (⟨_, _, _, hr⟩ | ⟨hr, _⟩) <;> (rw [heff] at hr; cases hr)
  -- a fresh token, of a hash that no row has
  | create t heff ht hnew hdb =>
    refine ⟨?_, fun t' => ?_, h.retired_mono (fun t ht => hdb ▸ List.mem_append_left _ ht)
      fun hash => ?_⟩
    · rw [Db.TokensKeyed, Conf.next_state, hdb, List.map_append]
      exact List.nodup_append.2 ⟨h.keyed, List.nodup_singleton _, fun a ha b hb => by
        obtain ⟨t', ht', rfl⟩ := List.mem_map.1 ha
        rw [List.mem_singleton.1 hb]
        exact hnew t' ht'⟩
    · have hself : t.asIssued = t := by rw [Token.asIssued, ← ht]
      rw [Conf.next_trace, issued_snoc, h.issued, Conf.next_state, hdb, heff]
      simp only [List.mem_append, List.mem_singleton, or_and_right, exists_or, exists_eq_left, hself,
        TokenEffect.created.injEq]
    · rintro (⟨_, _, _, hr⟩ | ⟨hr, _⟩) <;> (rw [heff] at hr; cases hr)
  | redeem t now ht hr he heff hdb =>
    -- no token is added, and the one of this hash is retired from now on
    refine h.revoked (fun t' => by rw [heff]; exact nofun) (fun hash' => ?_) hdb
    rintro (⟨_, _, _, hr⟩ | ⟨hr, _⟩)
    · rw [heff] at hr
      cases hr
      exact ⟨rfl, t, ht, rfl⟩
    · rw [heff] at hr
      cases hr
  | revoke hash now heff hdb =>
    refine h.revoked (fun t' => by rw [heff]; exact nofun) (fun hash' => ?_) hdb
    rintro (⟨_, _, _, hr⟩ | ⟨hr, t, ht, hk⟩)
    · rw [heff] at hr
      cases hr
    · rw [heff] at hr
      cases hr
      obtain ⟨t', ht', rfl⟩ := (h.issued t).1 ht
      exact ⟨rfl, t', ht', hk⟩

/-- A token that is redeemed is valid, and was not retired. -/
theorem redeemed (h : TokensInv pkgs db₀ c) (hs : TokensStep pkgs c.state s e) {now : Int}
    {userId clientId : String} (he : tokenEffect pkgs e = .redeemed hash now userId clientId) :
    Valid pkgs db₀ c.trace hash now userId clientId ∧ ¬Retired pkgs db₀ c.trace hash := by
  cases hs with
  | quiet heff hdb => rw [heff] at he; cases he
  | create t heff ht hnew hdb => rw [heff] at he; cases he
  | revoke hash now heff hdb => rw [heff] at he; cases he
  | redeem t now ht hr hexp heff hdb =>
    rw [heff] at he
    cases he
    refine ⟨⟨t.expiresAt, (h.issued _).2 ⟨t, ht, ?_⟩, hexp⟩, fun hret => ?_⟩
    · rw [Token.asIssued]
    · obtain ⟨t', ht', hk, hrev⟩ := h.retired _ hret
      exact hrev (h.keyed.unique ht' ht hk ▸ hr)

end TokensInv

/-! ## Operations -/

/-- A token is inserted under a new hash. -/
theorem Db.insertToken_eq_some {db db' : Db} (h : db.insertToken t = some db') :
    (∀ t' ∈ db.tokens, t'.refreshTokenHash ≠ t.refreshTokenHash) ∧
      db' = { db with tokens := db.tokens ++ [t] } := by
  rw [insertToken] at h
  split at h
  · cases h
  · rename_i hno
    cases h
    exact ⟨fun t' ht' hk => hno (.inl ⟨t', ht', hk⟩), rfl⟩

theorem Db.insertClient_tokens {db db' : Db} {c : OAuthClient} (h : db.insertClient c = some db') :
    db'.tokens = db.tokens := by
  rw [insertClient] at h
  split at h <;> cases h
  rfl

theorem Db.insertUser_tokens {db db' : Db} {u : User} {row : Option User}
    (h : db.insertUser u = some (row, db')) : db'.tokens = db.tokens := by
  rw [insertUser] at h
  split at h
  · cases h; rfl
  · split at h <;> cases h
    rfl

/-- An operation that does not write has no effect on tokens. -/
theorem tokenEffect_of_not_wrote {n : ℕ} {req : Request} {o : Op} {r : o.Ans}
    (h : wrote o r = false) : tokenEffect pkgs (.did n req o r) = .none := by
  cases o with
  | createRefresh tok userId clientId expiresAt => cases r with
    | ok _ => cases h
    | error _ => rfl
  | validateAndRevoke tok now => cases r with
    | ok x => cases x with
      | some _ => cases h
      | none => rfl
    | error _ => rfl
  | revoke tok now => cases r with
    | ok _ => cases h
    | error _ => rfl
  | _ => rfl

/-- What an operation does to the table of tokens. -/
theorem tokenStep_perform {n : ℕ} {req : Request} {input : Input} {s s' : AsState} {o : Op}
    {r : o.Ans} (h : perform pkgs n req input o s = some (r, s')) :
    TokensStep pkgs s s' (.did n req o r) := by
  have hdb := dbStep_perform h
  generalize hdb' : s'.db = db' at hdb
  cases hdb with
  | same hw => exact .quiet (tokenEffect_of_not_wrote hw) (by rw [hdb'])
  | registerClient hc hins => exact .quiet rfl (by rw [hdb', Db.insertClient_tokens hins])
  | touchLastSeen => exact .quiet rfl (by rw [hdb']; rfl)
  | insertUser hins => exact .quiet rfl (by rw [hdb', Db.insertUser_tokens hins])
  | createRefresh hins =>
    obtain ⟨hnew, rfl⟩ := Db.insertToken_eq_some hins
    exact .create _ rfl rfl hnew (by rw [hdb'])
  | validateAndRevoke hx =>
    obtain ⟨⟨t, ht, hk, hr, he, rfl⟩, hrev⟩ := Db.validateAndRevoke_some hx
    exact .redeem t _ ht hr he (by rw [hk]; rfl) (by rw [hdb', hrev, hk])
  | revoke => exact .revoke _ _ rfl hdb'

/-! ## The handlers -/

/-- What the tokens of an answer to the token request `body`, the `id`-th one,
    stand on: the refresh token was created for their user and client, which are
    those of the code taken, or of the refresh token redeemed. -/
structure Answers (l : List Done) (id : ℕ) (body : TokenForm) (t : TokenResponse) : Prop where
  refresh : ∀ r, t.refreshToken = some r → ∃ expiresAt, .did id (.token body)
    (.createRefresh r t.accessToken.sub t.accessToken.clientId expiresAt) (.ok ()) ∈ l
  code : body.grantType = "authorization_code" → ∃ code c, body.code = some code ∧
    .did id (.token body) (.takeCode code) (some c) ∈ l ∧
    t.accessToken.sub = c.userId ∧ t.accessToken.clientId = c.clientId
  rotated : body.grantType = "refresh_token" → ∃ tok now, body.refreshToken = some tok ∧
    .did id (.token body) (.validateAndRevoke tok now)
      (.ok (some (t.accessToken.sub, t.accessToken.clientId))) ∈ l

theorem Answers.mono {l' : List Done} {id : ℕ} {body : TokenForm} {r : TokenResponse}
    (h : Answers l id body r) (hl : l <+: l') : Answers l' id body r where
  refresh x hx := (h.refresh x hx).imp fun _ h => hl.subset h
  code hg := let ⟨code, c, hb, hc, ht⟩ := h.code hg; ⟨code, c, hb, hl.subset hc, ht⟩
  rotated hg := let ⟨tok, now, hb, ht⟩ := h.rotated hg; ⟨tok, now, hb, hl.subset ht⟩

/-- What an event stands on, given the events before it. -/
structure RotationGrounds (pkgs : Packages) (db₀ : Db) (l : List Done) (e : Done) : Prop where
  redeemed : ∀ hash now userId clientId, tokenEffect pkgs e = .redeemed hash now userId clientId →
    Valid pkgs db₀ l hash now userId clientId ∧ ¬Retired pkgs db₀ l hash
  answered : ∀ id body t, e = .answered id (.token body) (.ok (.tokens t)) → Answers l id body t

/-- The events are grounded, and the table agrees with them. -/
structure RotationInv (pkgs : Packages) (db₀ : Db) (c : Conf) : Prop where
  grounded : Logs.Grounded (RotationGrounds pkgs db₀) c.trace
  tokens : TokensInv pkgs db₀ c

/-- The rows of tokens stay, but for their revocation, which stays. -/
def KeepsTokens (s s' : AsState) : Prop :=
  ∀ t ∈ s.db.tokens, ∃ t' ∈ s'.db.tokens, t'.asIssued = t.asIssued ∧
    (t.revokedAt ≠ none → t'.revokedAt ≠ none)

theorem KeepsTokens.refl (s : AsState) : KeepsTokens s s := fun t ht => ⟨t, ht, rfl, id⟩

theorem KeepsTokens.trans {s s' s'' : AsState} (h : KeepsTokens s s') (h' : KeepsTokens s' s'') :
    KeepsTokens s s'' := fun t ht => by
  obtain ⟨t', ht', he, hr⟩ := h t ht
  obtain ⟨t'', ht'', he', hr'⟩ := h' t' ht'
  exact ⟨t'', ht'', he'.trans he, fun hrev => hr' (hr hrev)⟩

theorem TokensStep.keeps {s s' : AsState} (h : TokensStep pkgs s s' e) : KeepsTokens s s' := by
  have hrevoke : ∀ (hash : List UInt8) (now : Int), s'.db = s.db.revoke hash now →
      KeepsTokens s s' := fun hash now hdb t ht => by
    refine ⟨t.revokeAt hash now, ?_, Token.revokeAt_asIssued, Token.revokeAt_revoked⟩
    rw [hdb, Db.revoke_tokens]
    exact List.mem_map_of_mem ht
  cases h with
  | quiet heff hdb => exact fun t ht => ⟨t, hdb ▸ ht, rfl, id⟩
  | create t heff ht hnew hdb => exact fun t ht => ⟨t, hdb ▸ List.mem_append_left _ ht, rfl, id⟩
  | redeem t now ht hr he heff hdb => exact hrevoke _ _ hdb
  | revoke hash now heff hdb => exact hrevoke _ _ hdb

/-- The server keeps the table of tokens in agreement with its trace. -/
def rotation (cfg : Config) (db₀ : Db) :
    Protocol AuthSig Request (Except Rejection Response) Input World AsState where
  server := server cfg
  inv := RotationInv cfg.pkgs db₀
  keeps := KeepsTokens

section Handlers

variable {cfg : Config} {n : ℕ} {req : Request} {P : Lasting (rotation cfg db₀)}

/-- An event on its grounds keeps the protocol. -/
theorem rotation_evolves {c : Conf} {s : AsState} (hstep : TokensStep cfg.pkgs c.state s e)
    (hans : RotationInv cfg.pkgs db₀ c → ∀ id body t,
      e = .answered id (.token body) (.ok (.tokens t)) → Answers c.trace id body t) :
    (rotation cfg db₀).Evolves c (c.next s e) where
  trace := ⟨[e], rfl⟩
  keeps := hstep.keeps
  inv h := ⟨h.grounded.snoc ⟨fun _ _ _ _ he => h.tokens.redeemed hstep he, hans h⟩,
    h.tokens.step hstep⟩

theorem rotation_free (o : Op) : (rotation cfg db₀).Free o :=
  fun _ _ _ _ _ _ _ _ hp => rotation_evolves (tokenStep_perform hp) fun _ _ _ _ he => by cases he

/-- The tokens given are for the user and the client asked for, and so is the
    refresh token, which was stored. -/
theorem issueTokens_rotation {userId clientId : String} {refresh : Bool} :
    Obeys (rotation cfg db₀) n req P (issueTokens userId clientId refresh) fun x =>
      ⟨fun c => P.holds c ∧ ∀ t, x = .tokens t →
        (t.accessToken.sub = userId ∧ t.accessToken.clientId = clientId) ∧
        ∀ r, t.refreshToken = some r → ∃ expiresAt,
          .did n req (.createRefresh r userId clientId expiresAt) (.ok ()) ∈ c.trace,
      fun ht hk h => ⟨P.lasts ht hk h.1, fun t hx => ⟨(h.2 t hx).1, fun r hr =>
        let ⟨x, he⟩ := (h.2 t hx).2 r hr
        ⟨x, ht.subset he⟩⟩⟩⟩ := by
  have hjwt : Obeys (rotation cfg db₀) n req P
      (attempt (.issueJwt userId clientId ACCESS_TOKEN_TTL_SECS) id serverError) fun access =>
        P.and (.const (access.sub = userId ∧ access.clientId = clientId)) :=
    Obeys.call fun c r s input hc hok hp => by
      have hev := rotation_free _ n req input c r s hc.1 hok hp
      refine ⟨hev, fun access ha => ⟨P.lasts hev.trace hev.keeps hc.2, ?_⟩⟩
      -- the claims of the token name the user and the client
      rcases (answer_state hp).2 with rfl | rfl
      · cases ha; exact ⟨rfl, rfl⟩
      · cases ha
  refine Obeys.bind hjwt fun access => ?_
  cases refresh with
  | false =>
    refine Obeys.pure fun c h => ⟨h.1, fun t ht => ?_⟩
    cases ht
    exact ⟨h.2, nofun⟩
  | true =>
    refine Obeys.bind (Obeys.free (.call (rotation_free .newUlid))) fun r => ?_
    refine Obeys.bind (Obeys.free (.call (rotation_free .nowMs))) fun now => ?_
    refine Obeys.bind (Obeys.keep (rotation_free _)) fun _ => ?_
    refine Obeys.pure fun c h => ⟨h.1.1, fun t ht => ?_⟩
    obtain ⟨ans, hans, hmem⟩ := h.2
    cases ht
    refine ⟨h.1.2, fun r' hr' => ?_⟩
    cases hr'
    cases ans with
    | ok _ => exact ⟨_, hmem⟩
    | error _ => cases hans

/-- The tokens of an answer stand on what the request did. -/
def answersLasting (cfg : Config) (db₀ : Db) (n : ℕ) (req : Request) (x : Response) :
    Serving.Lasting (rotation cfg db₀) :=
  ⟨fun c => ∀ body t, req = .token body → x = .tokens t → Answers c.trace n body t,
    fun ht _ h body t hb hx => (h body t hb hx).mono ht⟩

/-- A code is taken, and that is recorded. -/
theorem takeCode_rotation {code : String} :
    Obeys (rotation cfg db₀) n req P (perf (.takeCode code)) fun x =>
      .found (fun c => .happened (.did n req (.takeCode code) (some c))) x := by
  refine Obeys.call fun c r s input hc hok hp => ?_
  refine ⟨rotation_free _ n req input c r s hc.1 hok hp, ?_⟩
  rintro x hx entry rfl
  cases hx
  exact Conf.mem_next.2 (.inr rfl)

/-- The code grant answers for the code it took. -/
theorem grantAuthCode_rotation {body : TokenForm} (hgrant : body.grantType = "authorization_code") :
    Obeys (rotation cfg db₀) n (.token body) .none (grantAuthCode cfg.pkgs body)
      (answersLasting cfg db₀ n (.token body)) := by
  have hne : body.grantType ≠ "refresh_token" := by rw [hgrant]; decide
  refine required_obeys fun code hcode => ?_
  refine required_obeys fun verifier _ => ?_
  refine Obeys.bind takeCode_rotation fun x => ?_
  cases x with
  | none => exact Obeys.fail
  | some entry =>
    refine Obeys.ret_bind fun _ _ => ?_
    refine Obeys.pre (P := Lasting.happened (.did n (.token body) (.takeCode code)
      (some entry) : Done)) ?_ fun c h => h entry rfl
    refine Obeys.bind (Obeys.free (clientGrantTypes_only fun o _ => rotation_free o)) fun grants => ?_
    cases grants with
    | none => exact Obeys.fail
    | some grants =>
      refine Obeys.post issueTokens_rotation fun x c h body' t hb hx => ?_
      cases hb
      obtain ⟨⟨hsub, hclient⟩, hrefresh⟩ := h.2 t hx
      exact ⟨fun r hr => by rw [hsub, hclient]; exact hrefresh r hr,
        fun _ => ⟨code, entry, hcode, h.1, hsub, hclient⟩, fun hg => absurd hg hne⟩

/-- The refresh grant answers for the token it redeemed. -/
theorem grantRefresh_rotation {body : TokenForm} (hgrant : body.grantType = "refresh_token") :
    Obeys (rotation cfg db₀) n (.token body) .none (grantRefresh body)
      (answersLasting cfg db₀ n (.token body)) := by
  have hne : body.grantType ≠ "authorization_code" := by rw [hgrant]; decide
  refine required_obeys fun tok htok => ?_
  refine Obeys.bind (Obeys.free (.call (rotation_free .nowMs))) fun now => ?_
  refine Obeys.bind (Obeys.keep (rotation_free (.validateAndRevoke tok now))) fun x => ?_
  cases x with
  | none => exact Obeys.fail
  | some x =>
    refine Obeys.pre (P := Lasting.happened (.did n (.token body) (.validateAndRevoke tok now)
      (.ok (some x)) : Done)) ?_ fun c h => ?_
    · refine Obeys.bind (Obeys.free (clientGrantTypes_only fun o _ => rotation_free o))
        fun grants => ?_
      cases grants with
      | none => exact Obeys.fail
      | some grants =>
        dsimp only
        split
        · refine Obeys.post issueTokens_rotation fun y c h body' t hb hy => ?_
          cases hb
          obtain ⟨⟨hsub, hclient⟩, hrefresh⟩ := h.2 t hy
          refine ⟨fun r hr => by rw [hsub, hclient]; exact hrefresh r hr,
            fun hg => absurd hg hne, fun _ => ⟨tok, now, htok, ?_⟩⟩
          rw [hsub, hclient]
          exact h.1
        · exact Obeys.fail
    · obtain ⟨-, r, hr, hmem⟩ := h
      cases r with
      | ok y => cases hr; exact hmem
      | error _ => cases hr

/-- Whatever the request, tokens stand on what it did. -/
theorem handle_rotation :
    Obeys (rotation cfg db₀) n req .none (handle cfg req) (answersLasting cfg db₀ n req) := by
  have hother : (∀ body, req ≠ .token body) → FreeProgram (rotation cfg db₀) (handle cfg req) →
      Obeys (rotation cfg db₀) n req .none (handle cfg req) (answersLasting cfg db₀ n req) :=
    fun hne hfree => Obeys.post (Obeys.free hfree) fun _ _ _ body _ hb _ => absurd hb (hne body)
  cases req with
  | token body =>
    show Obeys (rotation cfg db₀) n _ _ (token cfg.pkgs body) _
    rw [token]
    split
    · rename_i hg
      exact grantAuthCode_rotation hg
    · split
      · rename_i hg
        exact grantRefresh_rotation hg
      · exact Obeys.fail
  | callbackGoogle cb => exact hother (fun _ h => by cases h) (callbackGoogle_only rotation_free)
  | _ =>
    exact hother (fun _ h => by cases h)
      (handle_only (fun o _ => rotation_free o) fun _ h => by cases h)

end Handlers

/-! ## Runs -/

section Runs

variable {cfg : Config}

/-- The server keeps the protocol. -/
theorem rotation_meets : (rotation cfg db₀).Meets fun n req =>
    OnOk (fun r => Holding (rotation cfg db₀) (answersLasting cfg db₀ n req r)) fun _ => True where
  handle n req c hc := handle_rotation c ⟨hc, trivial⟩
  finish n req a c _ hpost := by
    refine rotation_evolves (.quiet rfl rfl) fun _ id body t he => ?_
    cases he
    exact hpost.2 body t rfl rfl
  world w c s _ _ hw := by
    cases hw
    refine rotation_evolves (.quiet rfl ?_) fun _ _ _ _ he => by cases he
    cases w <;> rfl

theorem rotation_allows {ok : Sys → Serving.Move Request Input World → Prop} (s : Sys)
    (m : Serving.Move Request Input World) (_ : ok s m) : (rotation cfg db₀).Allows s m := by
  cases m with
  | handling i input => exact fun _ _ _ _ _ => trivial
  | _ => trivial

/-- Every system reached from a table keyed by its hashes is sound. -/
theorem rotation_sound {ok : Sys → Serving.Move Request Input World → Prop} {s : Sys}
    (hkey : db₀.TokensKeyed) (h : Reached cfg (· = db₀) ok s) :
    (rotation cfg db₀).Sound (fun n req => OnOk (fun r => Holding (rotation cfg db₀)
      (answersLasting cfg db₀ n req r)) fun _ => True) s := by
  refine rotation_meets.sound (K := rotation cfg db₀) (fun st hst => ?_) rotation_allows h
  obtain ⟨rfl, -, -⟩ := hst
  refine ⟨.nil, hkey, fun t => ⟨fun ht => ?_, .inl⟩, ?_⟩
  · exact ht.resolve_right fun ⟨_, he, _⟩ => absurd he List.not_mem_nil
  · rintro hash ⟨l₁, e, l₂, he, -⟩
    cases l₁ <;> cases he

/-- The event redeems the token of a hash. -/
def redeems (pkgs : Packages) (hash : List UInt8) (e : Done) : Bool :=
  match tokenEffect pkgs e with
  | .redeemed hash' _ _ _ => hash' = hash
  | _ => false

/-- An event redeems the token of a hash. -/
theorem redeems_iff : redeems pkgs hash e = true ↔
    ∃ now userId clientId, tokenEffect pkgs e = .redeemed hash now userId clientId := by
  rw [redeems]
  cases tokenEffect pkgs e <;> simp [eq_comm]

/-- A token is redeemed at most once. -/
theorem RotationInv.refresh_once {c : Conf} (h : RotationInv pkgs db₀ c) (hash : List UInt8) :
    c.trace.countP (redeems pkgs hash) ≤ 1 := by
  refine h.grounded.countP_le_one fun l e hg he e' he' => ?_
  obtain ⟨now, userId, clientId, heff⟩ := redeems_iff.1 he
  refine Bool.eq_false_iff.2 fun hred => ?_
  obtain ⟨now', userId', clientId', heff'⟩ := redeems_iff.1 hred
  exact (hg.redeemed hash now userId clientId heff).2 (.of_mem he' heff')

/-- A token that is not redeemable never is again. -/
theorem not_redeemable_lasts {s s' : AsState} (hkey : s'.db.TokensKeyed) (hk : KeepsTokens s s')
    {now now' : Int} (ht : ∃ t ∈ s.db.tokens, t.refreshTokenHash = hash) (hnow : now ≤ now')
    (h : ¬s.db.Redeemable hash now) : ¬s'.db.Redeemable hash now' := by
  intro hred
  obtain ⟨t, ht, rfl⟩ := ht
  obtain ⟨t₁, ht₁, hk₁, hr₁, he₁⟩ := Db.redeemable_iff.1 hred
  obtain ⟨t', ht', heq, hrev⟩ := hk t ht
  obtain ⟨hhash, hexp⟩ : t'.refreshTokenHash = t.refreshTokenHash ∧ t'.expiresAt = t.expiresAt :=
    ⟨(congrArg Token.refreshTokenHash heq :), (congrArg Token.expiresAt heq :)⟩
  -- it is the same row that could be redeemed later
  obtain rfl := hkey.unique ht₁ ht' (hk₁.trans hhash.symm)
  refine h (Db.redeemable_iff.2 ⟨t, ht, rfl, by_contra fun hne => hrev hne hr₁, ?_⟩)
  rw [← hexp]
  exact Int.lt_of_le_of_lt hnow he₁

/-- The tokens `t'` are the answer to the redemption of the refresh token of `t`. -/
def Rotates (l : List Done) (t t' : TokenResponse) : Prop :=
  ∃ id body r, .answered id (.token body) (.ok (.tokens t')) ∈ l ∧
    body.grantType = "refresh_token" ∧ body.refreshToken = some r ∧ t.refreshToken = some r

/-- The tokens `t` are for this user and this client, and so is their refresh
    token. -/
structure IsFor (pkgs : Packages) (db : Db) (t : TokenResponse) (userId clientId : String) :
    Prop where
  sub : t.accessToken.sub = userId
  client : t.accessToken.clientId = clientId
  refresh : ∀ r, t.refreshToken = some r → ∃ row ∈ db.tokens,
    row.refreshTokenHash = pkgs.sha256 r ∧ row.userId = userId ∧ row.clientId = clientId

/-- The refresh token of an answer is in the table, for the same user and client. -/
theorem RotationInv.isFor {c : Conf} (h : RotationInv pkgs db₀ c) {id : ℕ} {body : TokenForm}
    {t : TokenResponse} (he : .answered id (.token body) (.ok (.tokens t)) ∈ c.trace) :
    IsFor pkgs c.state.db t t.accessToken.sub t.accessToken.clientId := by
  refine ⟨rfl, rfl, fun r hr => ?_⟩
  obtain ⟨l, hl, hg⟩ := h.grounded.mem he
  obtain ⟨expiresAt, hmem⟩ := (hg.answered id body t rfl).refresh r hr
  obtain ⟨row, hrow, heq⟩ := (h.tokens.issued _).1 (.inr ⟨_, hl hmem, rfl⟩)
  exact ⟨row, hrow, congrArg Token.refreshTokenHash heq, congrArg Token.userId heq,
    congrArg Token.clientId heq⟩

/-- One rotation keeps the user and the client. -/
theorem RotationInv.rotates {c : Conf} (h : RotationInv pkgs db₀ c) {t t' : TokenResponse}
    {userId clientId : String} (ht : IsFor pkgs c.state.db t userId clientId)
    (hr : Rotates c.trace t t') : IsFor pkgs c.state.db t' userId clientId := by
  obtain ⟨id, body, r, he, hgrant, hbody, hrefresh⟩ := hr
  obtain ⟨row, hrow, hhash, huser, hclient⟩ := ht.refresh r hrefresh
  -- the row that the grant redeemed
  obtain ⟨l, hl, hg⟩ := h.grounded.mem he
  obtain ⟨tok, now, htok, hmem⟩ := (hg.answered id body t' rfl).rotated hgrant
  obtain rfl : tok = r := Option.some.inj (htok.symm.trans hbody)
  obtain ⟨l', hl', hg'⟩ := h.grounded.mem (hl hmem)
  obtain ⟨⟨expiresAt, hissued, -⟩, -⟩ := hg'.redeemed _ _ _ _ rfl
  obtain ⟨row', hrow', heq⟩ := (h.tokens.issued _).1
    (hissued.imp_right fun ⟨e, he, heff⟩ => ⟨e, hl' he, heff⟩)
  obtain rfl := h.tokens.keyed.unique hrow hrow'
    (hhash.trans (congrArg Token.refreshTokenHash heq).symm)
  obtain ⟨hsub, hcl⟩ : userId = t'.accessToken.sub ∧ clientId = t'.accessToken.clientId :=
    ⟨huser.symm.trans (congrArg Token.userId heq), hclient.symm.trans (congrArg Token.clientId heq)⟩
  rw [hsub, hcl]
  exact h.isFor he

/-- Along a chain of rotations, tokens keep the user and the client of the code
    taken by the request it starts from. -/
theorem RotationInv.rotation_identity {c : Conf} (h : RotationInv pkgs db₀ c) {id : ℕ}
    {body : TokenForm} {t t' : TokenResponse}
    (he : .answered id (.token body) (.ok (.tokens t)) ∈ c.trace)
    (hgrant : body.grantType = "authorization_code")
    (hchain : Relation.ReflTransGen (Rotates c.trace) t t') :
    ∃ code entry, body.code = some code ∧
      .did id (.token body) (.takeCode code) (some entry) ∈ c.trace ∧
      IsFor pkgs c.state.db t' entry.userId entry.clientId := by
  obtain ⟨l, hl, hg⟩ := h.grounded.mem he
  obtain ⟨code, entry, hcode, hmem, hsub, hclient⟩ := (hg.answered id body t rfl).code hgrant
  refine ⟨code, entry, hcode, hl hmem, ?_⟩
  rw [← hsub, ← hclient]
  induction hchain with
  | refl => exact h.isFor he
  | tail _ hr ih => exact h.rotates ih hr

/-- Refresh tokens are safe in the run that reached `s`, which goes on by steps
    that are `ok`. -/
structure SafeRotation (cfg : Config) (db₀ : Db)
    (ok : Sys → Serving.Move Request Input World → Prop) (s : Sys) : Prop where
  once : ∀ hash, s.conf.trace.countP (redeems cfg.pkgs hash) ≤ 1
  valid : ∀ l₁ e l₂ hash now userId clientId, s.conf.trace = l₁ ++ e :: l₂ →
    tokenEffect cfg.pkgs e = .redeemed hash now userId clientId →
    Valid cfg.pkgs db₀ l₁ hash now userId clientId ∧ ¬Retired cfg.pkgs db₀ l₁ hash
  final : ∀ s', Reach (· = s) (server cfg).step ok s' → ∀ hash now now', now ≤ now' →
    (∃ t ∈ s.conf.state.db.tokens, t.refreshTokenHash = hash) →
    ¬s.conf.state.db.Redeemable hash now → ¬s'.conf.state.db.Redeemable hash now'
  agree : ∀ hash now, s.conf.state.db.validateRefresh hash now =
    (s.conf.state.db.validateAndRevoke hash now).1
  identity : ∀ id body t t', .answered id (.token body) (.ok (.tokens t)) ∈ s.conf.trace →
    body.grantType = "authorization_code" → Relation.ReflTransGen (Rotates s.conf.trace) t t' →
    ∃ code entry, body.code = some code ∧
      .did id (.token body) (.takeCode code) (some entry) ∈ s.conf.trace ∧
      IsFor cfg.pkgs s.conf.state.db t' entry.userId entry.clientId

/-- In every run, a refresh token is redeemed at most once, while it is valid and
    neither revoked nor redeemed before; once it is not redeemable it never is
    again; both validations accept the same tokens; and rotations keep the user
    and the client. -/
theorem refresh_rotation {ok : Sys → Serving.Move Request Input World → Prop} {s : Sys}
    (hkey : db₀.TokensKeyed) (h : Reached cfg (· = db₀) ok s) : SafeRotation cfg db₀ ok s where
  once := (rotation_sound hkey h).inv.refresh_once
  valid l₁ e l₂ hash now userId clientId hl he :=
    ((rotation_sound hkey h).inv.grounded l₁ e l₂ hl).redeemed hash now userId clientId he
  final s' hs' hash now now' hnow ht := by
    have hsound := rotation_sound hkey h
    have hkeeps : KeepsTokens s.conf.state s'.conf.state :=
      rotation_meets.keeps (K := rotation cfg db₀) rotation_allows KeepsTokens.refl
        KeepsTokens.trans hsound hs'
    exact not_redeemable_lasts (rotation_sound hkey (h.append hs')).inv.tokens.keyed hkeeps ht hnow
  agree := validateRefresh_eq (rotation_sound hkey h).inv.tokens.keyed
  identity id body t t' := (rotation_sound hkey h).inv.rotation_identity

/-! ### A first rotation -/

/-- The SHA-256 digests of the texts `r1` and `r2`. -/
def r1Digest : List UInt8 :=
  [130, 243, 233, 198, 149, 220, 107, 141, 27, 17, 129, 141, 87, 1, 145, 158, 40, 109,
    232, 212, 127, 124, 62, 179, 16, 12, 72, 95, 121, 229, 120, 40]

/-- The digest of `r2`. -/
def r2Digest : List UInt8 :=
  [219, 119, 253, 1, 175, 149, 114, 33, 164, 152, 155, 100, 179, 119, 10, 131, 163, 197,
    96, 104, 64, 91, 159, 14, 148, 8, 254, 174, 87, 253, 23, 228]

/-- As `Config.sample`, with the digests of two refresh tokens. -/
def Config.rotating : Config :=
  { Config.sample with pkgs := { Packages.sample with sha256 := fun v =>
      if v = "v" then sampleDigest else if v = "r1" then r1Digest else if v = "r2" then r2Digest
      else [] } }

/-- The requests of a client that registers, goes through the flow once, and
    redeems its refresh token. -/
def firstRotation : List (Serving.Move Request Input World) :=
  [.request (.register ⟨["https://app.example.com/cb"], ["authorization_code", "refresh_token"],
      none, none⟩),
    .handling 0 (.text "c1"), .handling 0 .ok, .world (.tick 10),
    .request (.authorize ⟨"code", "c1", "https://app.example.com/cb", sampleChallenge, "S256",
      some "xyz"⟩),
    .handling 0 .ok, .handling 0 .ok,
    .handling 0 (.google ⟨"https://accounts.google.com/o/oauth2/v2/auth", "csrf", "secret"⟩),
    .handling 0 .ok, .handling 0 (.text ""), .handling 0 .ok, .world (.tick 10),
    .request (.callbackGoogle ⟨"google-code", "csrf"⟩),
    .handling 0 .ok, .handling 0 (.text "google-token"), .handling 0 (.info ⟨"sub", none⟩),
    .handling 0 (.text "u1"), .handling 0 .ok, .handling 0 .ok, .handling 0 .ok, .handling 0 .ok,
    .handling 0 .ok, .handling 0 .fail, .handling 0 (.text "code1"), .handling 0 .ok,
    .handling 0 (.text ""), .handling 0 .ok, .world (.tick 10),
    .request (.token firstTokenForm),
    .handling 0 .ok, .handling 0 .ok, .handling 0 .ok, .handling 0 (.text "r1"), .handling 0 .ok,
    .handling 0 .ok, .handling 0 .ok, .world (.tick 10),
    .request (.token { grantType := "refresh_token", refreshToken := some "r1" }),
    .handling 0 .ok, .handling 0 .ok, .handling 0 .ok, .handling 0 .ok, .handling 0 (.text "r2"),
    .handling 0 .ok, .handling 0 .ok, .handling 0 .ok]

/-- After a first sign-in and one rotation, the token has been redeemed once, and the next one
    is redeemable. -/
theorem refresh_rotation_first : ∃ s, Reached .rotating (· = ⟨[], [], []⟩) (fun _ _ => True) s ∧
    s.conf.trace.countP (redeems Config.rotating.pkgs r1Digest) = 1 ∧
    s.conf.state.db.Redeemable r2Digest s.conf.state.now ∧
    SafeRotation .rotating ⟨[], [], []⟩ (fun _ _ => True) s := by
  obtain ⟨s, hs, hboth⟩ : ∃ s, exec (server .rotating).step (fun _ _ => true)
      (.start { now := 1000000, db := ⟨[], [], []⟩ }) firstRotation = some s ∧
      (s.conf.trace.countP (redeems Config.rotating.pkgs r1Digest),
        (s.conf.state.db.validateAndRevoke r2Digest s.conf.state.now).1.isSome) = (1, true) :=
    Option.map_eq_some_iff.1 (by decide)
  obtain ⟨hred, hnext⟩ := Prod.mk.inj hboth
  have hr : Reached .rotating (· = ⟨[], [], []⟩) (fun _ _ => True) s :=
    .exec (fun _ _ _ => trivial) (.init ⟨_, ⟨rfl, rfl, rfl⟩, rfl⟩) hs
  exact ⟨s, hr, hred, hnext, refresh_rotation List.nodup_nil hr⟩

end Runs

end LlmMemory.Auth
