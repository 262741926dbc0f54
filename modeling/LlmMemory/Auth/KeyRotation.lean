import LlmMemory.Auth.Jwt
import LlmMemory.Lib.Runs

/-!
# The rotation of signing keys

A rotation adds the next version of the signing key to the environment,
restarts the server, waits for an hour while tokens go on being issued, deletes
the version before the previous one, and restarts the server.

Its purpose is that the version added signs (`Signing`), and that no token is
rejected before it expires (`Accepted`). As `kid`s are compared as texts, and
`"v10" < "v9"`, this holds of exactly the first eight rotations
(`rotation_safe_iff`): the ninth one adds a version that does not sign, and the
tenth one deletes the version that does (`tokens_accepted_iff`).

The proof follows the keys through the phases of a rotation (`KeysInv`, in
every run) and the versions that the unexpired tokens are signed with
(`TokensInv`, up to the tenth version).
-/

namespace LlmMemory.Auth.Jwt

open Runs

/-- The `kid` of a version of the signing key. -/
def kid (n : ℕ) : String := "v" ++ n.repr

/-- The variable that holds a version of the key. -/
def envName (n : ℕ) : String := ENV_PREFIX ++ kid n

/-- Where the rotation stands: none under way; the version is added, and the
    server not restarted yet; in the window, since the server was restarted; the
    old version is deleted, and the server not restarted yet. -/
inductive Phase
  | stable
  | added
  | window (since : Int)
  | deleted
  deriving DecidableEq, Repr

/-- A deployment: the environment, the keys the server loaded when it last
    started (or the error it failed with), the time in milliseconds, the newest
    version of the signing key, and the tokens issued so far. -/
structure Deployment (τ : Type) where
  env : List (String × String)
  keys : Except AuthError JwtKeys
  now : Int
  version : ℕ := 1
  phase : Phase := .stable
  issued : List (τ × Claims) := []

/-- What happens to a deployment: time passes, a token is issued, the operator adds or
    deletes a version, and the server is restarted. -/
inductive Move
  | tick (dt : ℕ)
  | issue (userId clientId : String) (ttlSeconds : Int)
  | add
  | delete
  | restart (vars : List (String × String))

/-- The phase after a restart: a version that was added is now loaded. -/
def Phase.restarted (now : Int) : Phase → Phase
  | .stable => .stable
  | .added => .window now
  | .window since => .window since
  | .deleted => .stable

/-- The rotations begun. -/
def Deployment.rotations {τ : Type} (s : Deployment τ) : ℕ := s.version - 1

section Model

variable {τ : Type} (libs : Libs τ) (value : ℕ → String)

/-- A step of a deployment, where `value n` is the version `n` of the signing
    key. The server may be restarted at any time, and finds the variables of the
    environment in any order. -/
def step (s : Deployment τ) : Move → Option (Deployment τ)
  | .tick dt => some { s with now := s.now + dt }
  | .issue userId clientId ttl =>
    if ttl ≤ ACCESS_TOKEN_TTL_SECS then
      match s.keys with
      | .error _ => none
      | .ok K => match issue libs K s.now userId clientId ttl with
        | .error _ => some s
        | .ok token => some { s with issued := s.issued ++
            [(token, ⟨userId, clientId, s.now / 1000, s.now / 1000 + ttl⟩)] }
    else none
  | .add =>
    if s.phase = .stable then
      some { s with
        env := s.env ++ [(envName (s.version + 1), value (s.version + 1))]
        version := s.version + 1
        phase := .added }
    else none
  | .delete => match s.phase with
    | .window since =>
      -- the tokens signed before the restart have all expired
      if since + ACCESS_TOKEN_TTL_SECS * 1000 ≤ s.now then
        some { s with
          env := s.env.filter fun var => var.1 ≠ envName (s.version - 2)
          phase := .deleted }
      else none
    | _ => none
  | .restart vars =>
    if vars.Perm s.env then
      some { s with keys := fromEnv libs vars, phase := s.phase.restarted s.now }
    else none

/-- The server was started in an environment whose only signing key is `v1`. -/
def Starts (s : Deployment τ) : Prop :=
  ∃ env now, signingVars env = [(kid 1, value 1)] ∧
    s = { env := env, keys := fromEnv libs env, now := now }

/-- The deployments reached in any order of moves. -/
def Reached (s : Deployment τ) : Prop :=
  Reach (Starts libs value) (step libs value) (fun _ _ => True) s

/-- Every token issued is accepted, with its claims, before it expires. -/
def Accepted (s : Deployment τ) : Prop :=
  ∀ x ∈ s.issued, s.now / 1000 < x.2.exp →
    (s.keys.bind fun K => verify libs K s.now x.1) = .ok x.2

/-- Once the server is restarted, the version added last signs. -/
def Signing (s : Deployment τ) : Prop :=
  s.phase ≠ .added → (s.keys.map (·.currentKid)) = .ok (kid s.version)

end Model

/-! ## The order of the versions -/

theorem kid_injective : Function.Injective kid := by
  intro m n h
  rw [kid, kid, ← String.toList_inj, String.toList_append, String.toList_append,
    Nat.toList_repr, Nat.toList_repr] at h
  have hdigits : Nat.toDigits 10 m = Nat.toDigits 10 n := List.append_cancel_left h
  rw [← Nat.ofDigitChars_ten_toDigits (n := m), hdigits, Nat.ofDigitChars_ten_toDigits]

/-- The versions from `v - k` to `v`. -/
def Recent (v k n : ℕ) : Prop := 0 < n ∧ n ≤ v ∧ v ≤ n + k

/-- The version `n`, of those in `A`, is the one that signs. -/
def Signs (A : ℕ → Prop) (n : ℕ) : Prop := A n ∧ ∀ m, A m → kid m ≤ kid n

/-- Up to `v9`, the `kid`s grow with the versions. -/
theorem kid_lt {n : ℕ} (hn : n < 9) : kid n < kid (n + 1) := by
  revert n
  decide +kernel

/-- `v10` comes before `v9` in the order of texts. -/
theorem kid_ten_lt : kid 10 < kid 9 := by decide +kernel

theorem kid_eleven_lt : kid 11 < kid 9 := by decide +kernel

/-- The version that signs, if those before are deleted in time. -/
def signer (v : ℕ) : ℕ := if v = 10 then 9 else v

/-- The version that signs is not newer than the newest one. -/
theorem signer_le {v : ℕ} : signer v ≤ v := by
  rw [signer]
  split <;> omega

theorem signer_pos {v : ℕ} (hv : 0 < v) : 0 < signer v := by
  rw [signer]
  split <;> omega

theorem le_signer {v : ℕ} : v ≤ signer v + 1 := by
  rw [signer]
  split <;> omega

/-- Up to `v9`, the newest version signs; `v9` goes on signing when `v10` is
    added. -/
theorem Signs.eq_signer {v k n : ℕ} (hv : v ≤ 10) (hk : k = 1 ∨ k = 2)
    (h : Signs (Recent v k) n) : n = signer v := by
  obtain ⟨⟨hpos, hle, hge⟩, hmax⟩ := h
  have hno : ∀ m, Recent v k m → ¬kid n < kid m := fun m hm => not_lt.2 (hmax m hm)
  rw [signer]
  split
  · -- `v9` is larger than `v8` and `v10`
    subst v
    have h9 := hno 9 ⟨by omega, by omega, by omega⟩
    rcases (show n = 8 ∨ n = 9 ∨ n = 10 by omega) with rfl | rfl | rfl
    · exact absurd (kid_lt (by omega)) h9
    · rfl
    · exact absurd kid_ten_lt h9
  · -- a version before `v` is smaller than the next one
    by_contra hne
    exact hno (n + 1) ⟨by omega, by omega, by omega⟩ (kid_lt (by omega))

/-- The tenth rotation deletes the version that signs. -/
theorem Signs.eq_nine {n : ℕ} (h : Signs (Recent 11 2) n) : n = 9 := by
  obtain ⟨⟨hpos, hle, hge⟩, hmax⟩ := h
  have h9 := hmax 9 ⟨by omega, by omega, by omega⟩
  rcases (show n = 9 ∨ n = 10 ∨ n = 11 by omega) with rfl | rfl | rfl
  · rfl
  · exact absurd h9 (not_le.2 kid_ten_lt)
  · exact absurd h9 (not_le.2 kid_eleven_lt)

theorem kid_ne_empty {n : ℕ} : kid n ≠ "" := by
  intro h
  have hlist := congrArg String.toList h
  simp [kid] at hlist

/-! ## The keys in a rotation -/

section Keys

variable {τ : Type} {libs : Libs τ} {value : ℕ → String} {secret : ℕ → List UInt8}
  {s s' : Deployment τ} {m : Move}

/-- The `kid`s and values of the versions in `A`. -/
def HoldsVersions (value : ℕ → String) (l : List (String × String)) (A : ℕ → Prop) : Prop :=
  (l.map Prod.fst).Nodup ∧ ∀ k v, (k, v) ∈ l ↔ ∃ n, A n ∧ k = kid n ∧ v = value n

/-- The versions in the environment, in a phase where the newest one is `v`. -/
def Phase.kept (v : ℕ) : Phase → ℕ → Prop
  | .stable => Recent v 1
  | .added => Recent v 2
  | .window _ => Recent v 2
  | .deleted => Recent v 1

/-- The versions loaded by the server. -/
def Phase.loaded (v : ℕ) : Phase → ℕ → Prop
  | .stable => Recent v 1
  | .added => Recent (v - 1) 1
  | .window _ => Recent v 2
  | .deleted => Recent v 2

/-- The environment and the server hold the versions that the phase says. -/
structure KeysInv (libs : Libs τ) (value : ℕ → String) (s : Deployment τ) : Prop where
  pos : 0 < s.version
  begun : s.phase ≠ .stable → 2 ≤ s.version
  env : HoldsVersions value (signingVars s.env) (s.phase.kept s.version)
  keys : ∃ K l, s.keys = .ok K ∧ Loaded libs K l ∧
    HoldsVersions value l (s.phase.loaded s.version)

theorem signingVars_append {env : List (String × String)} {n : ℕ} {v : String} :
    signingVars (env ++ [(envName n, v)]) = signingVars env ++ [(kid n, v)] := by
  simp [signingVars, envName, stripPrefix_append]

theorem signingVars_filter {env : List (String × String)} {n : ℕ} :
    signingVars (env.filter fun var => var.1 ≠ envName n) =
      (signingVars env).filter fun var => var.1 ≠ kid n := by
  rw [signingVars, signingVars, List.filterMap_filter, List.filter_filterMap]
  congr 1
  funext var
  obtain ⟨name, v⟩ := var
  cases hk : stripPrefix ENV_PREFIX name with
  | none => simp
  | some k =>
    have hname : name = envName n ↔ k = kid n := by
      rw [stripPrefix_eq_some hk, envName, ← String.toList_inj, String.toList_append,
        String.toList_append, List.append_cancel_left_eq, String.toList_inj]
    by_cases hkn : k = kid n <;> simp [Option.filter, hname, hkn]

variable {A B : ℕ → Prop} {l l' : List (String × String)}

theorem HoldsVersions.congr (h : HoldsVersions value l A) (hAB : ∀ n, A n ↔ B n) :
    HoldsVersions value l B :=
  ⟨h.1, fun k v => (h.2 k v).trans (exists_congr fun n => and_congr_left' (hAB n))⟩

/-- The order of the variables does not matter. -/
theorem HoldsVersions.perm (h : HoldsVersions value l A) (hp : l'.Perm l) :
    HoldsVersions value l' A :=
  ⟨(hp.map _).nodup_iff.2 h.1, fun k v => hp.mem_iff.trans (h.2 k v)⟩

theorem HoldsVersions.append {n : ℕ} (h : HoldsVersions value l A) (hn : ¬A n) :
    HoldsVersions value (l ++ [(kid n, value n)]) fun m => A m ∨ m = n := by
  refine ⟨?_, fun k v => ?_⟩
  · rw [List.map_append, List.nodup_append]
    refine ⟨h.1, List.nodup_singleton _, fun k hk k' hk' hkk => ?_⟩
    obtain ⟨⟨k₁, v⟩, hmem, rfl⟩ := List.mem_map.1 hk
    obtain ⟨m, hm, hkm, -⟩ := (h.2 _ _).1 hmem
    have hkn : kid m = kid n := hkm.symm.trans (hkk.trans (List.mem_singleton.1 hk'))
    exact hn (kid_injective hkn ▸ hm)
  · rw [List.mem_append, h.2, List.mem_singleton, Prod.mk.injEq]
    constructor
    · rintro (⟨m, hm, hk, hv⟩ | ⟨hk, hv⟩)
      · exact ⟨m, .inl hm, hk, hv⟩
      · exact ⟨n, .inr rfl, hk, hv⟩
    · rintro ⟨m, hm | rfl, hk, hv⟩
      · exact .inl ⟨m, hm, hk, hv⟩
      · exact .inr ⟨hk, hv⟩

/-- A deleted version is no longer held. -/
theorem HoldsVersions.filter {n : ℕ} (h : HoldsVersions value l A) :
    HoldsVersions value (l.filter fun var => var.1 ≠ kid n) fun m => A m ∧ m ≠ n := by
  refine ⟨h.1.sublist (List.filter_sublist.map _), fun k v => ?_⟩
  rw [List.mem_filter, h.2, decide_eq_true_eq]
  constructor
  · rintro ⟨⟨m, hm, rfl, rfl⟩, hne⟩
    exact ⟨m, ⟨hm, fun hmn => hne (congrArg kid hmn)⟩, rfl, rfl⟩
  · rintro ⟨m, ⟨hm, hne⟩, rfl, rfl⟩
    exact ⟨⟨m, hm, rfl, rfl⟩, fun hk => hne (kid_injective hk)⟩

/-- The server loads what the environment holds. -/
theorem HoldsVersions.fromEnv {vars : List (String × String)}
    (hvalue : ∀ n, ValidVar libs (kid n, value n) (secret n))
    (h : HoldsVersions value (signingVars vars) A) {n : ℕ} (hn : A n) :
    ∃ K l, Jwt.fromEnv libs vars = .ok K ∧ Loaded libs K l ∧ HoldsVersions value l A := by
  have hne : signingVars vars ≠ [] :=
    List.ne_nil_of_mem ((h.2 (kid n) (value n)).2 ⟨n, hn, rfl, rfl⟩)
  obtain ⟨K, hK, hload⟩ := fromEnv_loaded hne (fun var hvar => by
    obtain ⟨m, -, hk, hv⟩ := (h.2 var.1 var.2).1 hvar
    have hvar : var = (kid m, value m) := Prod.ext hk hv
    exact ⟨secret m, hvar ▸ hvalue m⟩) h.1
  exact ⟨K, _, hK, hload, h⟩

/-- The signing variables of a permuted environment are permuted. -/
theorem signingVars_perm {vars env : List (String × String)} (h : vars.Perm env) :
    (signingVars vars).Perm (signingVars env) :=
  h.filterMap _

/-- A deployment starts with the key `v1` loaded. -/
theorem KeysInv.start (hvalue : ∀ n, ValidVar libs (kid n, value n) (secret n))
    (h : Starts libs value s) : KeysInv libs value s := by
  obtain ⟨env, now, henv, rfl⟩ := h
  have hrecent : ∀ n, Recent 1 1 n ↔ n = 1 := by
    intro n
    rw [Recent]
    omega
  have hholds : HoldsVersions value (signingVars env) (Recent 1 1) := by
    rw [henv]
    refine ⟨List.nodup_singleton _, fun k v => ?_⟩
    simp [hrecent]
  exact ⟨Nat.one_pos, fun h => absurd rfl h, hholds, hholds.fromEnv hvalue ((hrecent 1).2 rfl)⟩

/-- In every phase, every step keeps the keys in accord with the phase. -/
theorem KeysInv.step (hvalue : ∀ n, ValidVar libs (kid n, value n) (secret n))
    (h : KeysInv libs value s) (hst : step libs value s m = some s') : KeysInv libs value s' := by
  cases m with
  | tick dt =>
    cases hst
    exact ⟨h.pos, h.begun, h.env, h.keys⟩
  | issue userId clientId ttl =>
    simp only [Jwt.step] at hst
    split at hst
    · split at hst
      · cases hst
      · split at hst <;> cases hst <;> exact ⟨h.pos, h.begun, h.env, h.keys⟩
    · cases hst
  | add =>
    simp only [Jwt.step] at hst
    split at hst
    · rename_i hphase
      cases hst
      have henv := h.env
      have hkeys := h.keys
      rw [hphase] at henv hkeys
      -- the new version is in the environment, but the server has not loaded it yet
      refine ⟨Nat.succ_pos _, fun _ => Nat.succ_le_succ h.pos, ?_, hkeys⟩
      rw [signingVars_append]
      refine (henv.append ?_).congr fun n => ?_
      · exact fun hn => Nat.not_succ_le_self _ hn.2.1
      · have := h.pos
        simp only [Phase.kept, Recent]
        omega
    · cases hst
  | delete =>
    simp only [Jwt.step] at hst
    split at hst
    · rename_i since hphase
      split at hst
      · cases hst
        have henv := h.env
        have hkeys := h.keys
        have htwo := h.begun (by rw [hphase]; exact Phase.noConfusion)
        rw [hphase] at henv hkeys
        -- the oldest version is gone from the environment, but the server still has it
        refine ⟨h.pos, fun _ => htwo, ?_, hkeys⟩
        rw [signingVars_filter]
        refine henv.filter.congr fun n => ?_
        simp only [Phase.kept, Recent]
        omega
      · cases hst
    · cases hst
  | restart vars =>
    simp only [Jwt.step] at hst
    split at hst
    · rename_i hperm
      cases hst
      -- a restart keeps the environment, and loads all of it
      have hkept : ∀ n, (s.phase.restarted s.now).kept s.version n ↔ s.phase.kept s.version n := by
        intro n
        cases s.phase <;> rfl
      have hloaded : ∀ n, s.phase.kept s.version n ↔
          (s.phase.restarted s.now).loaded s.version n := by
        intro n
        cases s.phase <;> rfl
      have hnewest : s.phase.kept s.version s.version := by
        have := h.pos
        cases s.phase <;> simp only [Phase.kept, Recent] <;> omega
      refine ⟨h.pos, fun hne => h.begun fun hstable => hne ?_, h.env.congr fun n => (hkept n).symm,
        ?_⟩
      · dsimp only
        rw [hstable]
        rfl
      · obtain ⟨K, l, hK, hload, hl⟩ :=
          (h.env.perm (signingVars_perm hperm)).fromEnv hvalue hnewest
        exact ⟨K, l, hK, hload, hl.congr hloaded⟩
    · cases hst

/-- The server signs with a version it loaded that is the largest of them. -/
theorem KeysInv.signs (h : KeysInv libs value s) : ∃ K n, s.keys = .ok K ∧ K.currentKid = kid n ∧
    Signs (s.phase.loaded s.version) n := by
  obtain ⟨K, l, hK, hload, -, hl⟩ := h.keys
  have hmem : K.currentKid ∈ l.map Prod.fst := by
    refine hload.current.resolve_left ?_
    rintro ⟨-, rfl⟩
    -- the server has loaded some version
    have hsome : ∃ n, s.phase.loaded s.version n := by
      have hpos := h.pos
      cases hp : s.phase with
      | added =>
        have htwo := h.begun (by rw [hp]; exact Phase.noConfusion)
        refine ⟨s.version - 1, ?_⟩
        simp only [Phase.loaded, Recent]
        omega
      | _ =>
        refine ⟨s.version, ?_⟩
        simp only [Phase.loaded, Recent]
        omega
    obtain ⟨n, hn⟩ := hsome
    exact absurd ((hl _ _).2 ⟨n, hn, rfl, rfl⟩) List.not_mem_nil
  obtain ⟨⟨k, v⟩, hkv, hk⟩ := List.mem_map.1 hmem
  obtain ⟨n, hn, hkn, -⟩ := (hl k v).1 hkv
  have hcur : K.currentKid = kid n := hk.symm.trans hkn
  refine ⟨K, n, hK, hcur, hn, fun m hm => ?_⟩
  rw [← hcur]
  exact hload.le_current _ (List.mem_map_of_mem ((hl _ _).2 ⟨m, hm, rfl, rfl⟩))

/-- The server has the key of exactly the versions it loaded. -/
theorem KeysInv.lookup (hvalue : ∀ n, ValidVar libs (kid n, value n) (secret n))
    (h : KeysInv libs value s) : ∃ K, s.keys = .ok K ∧
      (∀ n, s.phase.loaded s.version n → K.keys.lookup (kid n) = some (secret n)) ∧
      ∀ n, ¬s.phase.loaded s.version n → K.keys.lookup (kid n) = none := by
  obtain ⟨K, l, hK, hload, -, hl⟩ := h.keys
  refine ⟨K, hK, fun n hn => ?_, fun n hn => ?_⟩
  · exact (hload.lookup _ _).2 ⟨value n, (hl _ _).2 ⟨n, hn, rfl, rfl⟩, (hvalue n).2.1⟩
  · rw [Option.eq_none_iff_forall_ne_some]
    intro key hkey
    obtain ⟨v, hv, -⟩ := (hload.lookup _ _).1 hkey
    obtain ⟨m, hm, hk, -⟩ := (hl _ _).1 hv
    exact hn (kid_injective hk ▸ hm)

end Keys

/-! ## The unexpired tokens in a rotation -/

section Tokens

variable {τ : Type} {libs : Libs τ} {value : ℕ → String} {secret : ℕ → List UInt8}
  {s s' : Deployment τ} {m : Move}

/-- The versions that an unexpired token, of the claims `c`, may be signed with. -/
def Phase.active (v : ℕ) (c : Claims) : Phase → ℕ → Prop
  | .stable, n => n = signer v
  | .added, n => n = signer (v - 1)
  | .window since, n => n = signer v ∨
      n = signer (v - 1) ∧ c.exp ≤ since / 1000 + ACCESS_TOKEN_TTL_SECS
  | .deleted, n => n = signer v

/-- The tokens issued expire within the hour, and an unexpired one is signed with a version
    that is active in the phase. -/
structure TokensInv (libs : Libs τ) (secret : ℕ → List UInt8) (s : Deployment τ) : Prop where
  exp : ∀ x ∈ s.issued, x.2.exp ≤ s.now / 1000 + ACCESS_TOKEN_TTL_SECS
  signed : ∀ x ∈ s.issued, s.now / 1000 < x.2.exp → ∃ n, s.phase.active s.version x.2 n ∧
    Signed libs x.1 x.2 (kid n) (secret n)

/-- The version that signs in a phase. -/
def Phase.signs (v : ℕ) : Phase → ℕ
  | .added => signer (v - 1)
  | _ => signer v

/-- Up to the ninth rotation, the version that signs is known. -/
theorem Signs.eq_signs {p : Phase} {v n : ℕ} (hv : v ≤ 10) (h : Signs (p.loaded v) n) :
    n = p.signs v := by
  cases p with
  | added => exact Signs.eq_signer (by omega) (.inl rfl) h
  | stable => exact Signs.eq_signer hv (.inl rfl) h
  | window since => exact Signs.eq_signer hv (.inr rfl) h
  | deleted => exact Signs.eq_signer hv (.inr rfl) h

theorem TokensInv.start (h : Starts libs value s) : TokensInv libs secret s := by
  obtain ⟨env, now, -, rfl⟩ := h
  exact ⟨fun _ hx => absurd hx List.not_mem_nil, fun _ hx => absurd hx List.not_mem_nil⟩

theorem step_version (hst : step libs value s m = some s') : s.version ≤ s'.version := by
  cases m with
  | tick dt => cases hst; exact le_rfl
  | issue userId clientId ttl =>
    simp only [step] at hst
    split at hst
    · split at hst
      · cases hst
      · split at hst <;> cases hst <;> exact le_rfl
    · cases hst
  | add =>
    simp only [step] at hst
    split at hst <;> cases hst
    exact Nat.le_succ _
  | delete =>
    simp only [step] at hst
    split at hst
    · split at hst <;> cases hst
      exact le_rfl
    · cases hst
  | restart vars =>
    simp only [step] at hst
    split at hst <;> cases hst
    exact le_rfl

/-- Up to the tenth version, every step keeps the unexpired tokens signed with
    the versions that the phase says. -/
theorem TokensInv.step (hvalue : ∀ n, ValidVar libs (kid n, value n) (secret n))
    (hkeys : KeysInv libs value s) (hv : s.version ≤ 10) (h : TokensInv libs secret s)
    (hst : step libs value s m = some s') : TokensInv libs secret s' := by
  cases m with
  | tick dt =>
    cases hst
    refine ⟨fun x hx => ?_, fun x hx hexp => h.signed x hx ?_⟩
    · have := h.exp x hx
      dsimp only
      omega
    · dsimp only at hexp
      omega
  | issue userId clientId ttl =>
    simp only [Jwt.step] at hst
    split at hst
    · rename_i httl
      split at hst
      · cases hst
      · rename_i K hK
        split at hst
        · cases hst
          exact h
        · rename_i token htoken
          cases hst
          refine ⟨fun x hx => ?_, fun x hx hexp => ?_⟩
          · rcases List.mem_append.1 hx with hx | hx
            · exact h.exp x hx
            · rw [List.mem_singleton.1 hx]
              exact Int.add_le_add_left httl _
          · rcases List.mem_append.1 hx with hx | hx
            · exact h.signed x hx hexp
            · -- the new token is signed with the version that signs in this phase
              obtain rfl := List.mem_singleton.1 hx
              obtain ⟨K', n, hK', hcur, hsigns⟩ := hkeys.signs
              obtain rfl : K = K' := Except.ok.inj (hK.symm.trans hK')
              obtain ⟨K', hK', hlookup, -⟩ := hkeys.lookup hvalue
              obtain rfl : K = K' := Except.ok.inj (hK.symm.trans hK')
              obtain ⟨key, hkey, hsigned⟩ := issue_signed htoken
              rw [hcur] at hkey hsigned
              obtain rfl : secret n = key :=
                Option.some.inj ((hlookup n hsigns.1).symm.trans hkey)
              have hn := hsigns.eq_signs hv
              refine ⟨n, ?_, hsigned⟩
              dsimp only
              cases hp : s.phase with
              | window since =>
                rw [hp] at hn
                exact .inl hn
              | _ =>
                rw [hp] at hn
                exact hn
    · cases hst
  | add =>
    simp only [Jwt.step] at hst
    split at hst
    · rename_i hphase
      cases hst
      refine ⟨h.exp, fun x hx hexp => ?_⟩
      obtain ⟨n, hn, hsigned⟩ := h.signed x hx hexp
      rw [hphase] at hn
      exact ⟨n, hn, hsigned⟩
    · cases hst
  | delete =>
    simp only [Jwt.step] at hst
    split at hst
    · rename_i since hphase
      split at hst
      · rename_i hwait
        cases hst
        refine ⟨h.exp, fun x hx hexp => ?_⟩
        obtain ⟨n, hn, hsigned⟩ := h.signed x hx hexp
        rw [hphase] at hn
        refine ⟨n, hn.resolve_right ?_, hsigned⟩
        -- a token of the previous version has expired during the window
        rintro ⟨-, hold⟩
        dsimp only at hexp
        simp only [ACCESS_TOKEN_TTL_SECS] at hold hwait
        omega
      · cases hst
    · cases hst
  | restart vars =>
    simp only [Jwt.step] at hst
    split at hst
    · cases hst
      refine ⟨h.exp, fun x hx hexp => ?_⟩
      obtain ⟨n, hn, hsigned⟩ := h.signed x hx hexp
      refine ⟨n, ?_, hsigned⟩
      dsimp only
      cases hp : s.phase with
      | added =>
        rw [hp] at hn
        exact .inr ⟨hn, h.exp x hx⟩
      | _ =>
        rw [hp] at hn
        exact hn
    · cases hst

/-- The versions that unexpired tokens are signed with are loaded. -/
theorem Phase.active.loaded {p : Phase} {v n : ℕ} {c : Claims} (hv : 0 < v)
    (hbegun : p ≠ .stable → 2 ≤ v) (h : p.active v c n) : p.loaded v n := by
  have hle := signer_le (v := v)
  have hge := le_signer (v := v)
  have hle' := signer_le (v := v - 1)
  have hge' := le_signer (v := v - 1)
  have hpos := signer_pos hv
  cases p with
  | stable =>
    cases h
    exact ⟨hpos, hle, hge⟩
  | added =>
    have htwo := hbegun Phase.noConfusion
    cases h
    exact ⟨signer_pos (by omega), hle', hge'⟩
  | window since =>
    have htwo := hbegun Phase.noConfusion
    rcases h with rfl | ⟨rfl, -⟩
    · exact ⟨hpos, hle, by omega⟩
    · exact ⟨signer_pos (by omega), by omega, by omega⟩
  | deleted =>
    cases h
    exact ⟨hpos, hle, by omega⟩

end Tokens

/-! ## Runs -/

section Runs

variable {τ : Type} {libs : Libs τ} {value : ℕ → String} {secret : ℕ → List UInt8}
  {s : Deployment τ}

/-- The keys of every deployment reached. -/
theorem keysInv (hvalue : ∀ n, ValidVar libs (kid n, value n) (secret n))
    (h : Reached libs value s) : KeysInv libs value s :=
  h.invariant (fun _ => .start hvalue) fun _ _ _ _ hs _ => hs.step hvalue

/-- The tokens of every deployment reached within nine rotations. -/
theorem tokensInv (hvalue : ∀ n, ValidVar libs (kid n, value n) (secret n))
    (h : Reached libs value s) : s.version ≤ 10 → TokensInv libs secret s := by
  refine h.invariant (P := fun s => s.version ≤ 10 → TokensInv libs secret s)
    (fun _ hs _ => .start hs) fun s m s' hr hs _ hst hv => ?_
  have hv : s.version ≤ 10 := (step_version hst).trans hv
  exact (hs hv).step hvalue (keysInv hvalue hr) hv hst

/-- An unexpired token is accepted, as its key is loaded. -/
theorem TokensInv.accepted (hlibs : libs.Correct)
    (hvalue : ∀ n, ValidVar libs (kid n, value n) (secret n)) (hkeys : KeysInv libs value s)
    (h : TokensInv libs secret s) : Accepted libs s := by
  intro x hx hexp
  obtain ⟨n, hn, hsigned⟩ := h.signed x hx hexp
  obtain ⟨K, hK, hlookup, -⟩ := hkeys.lookup hvalue
  rw [hK]
  exact verify_signed hlibs hsigned (hlookup n (hn.loaded hkeys.pos hkeys.begun)) hexp

/-- Within nine rotations, the newest version signs but for `v10`. -/
theorem KeysInv.signing_iff (h : KeysInv libs value s) (hv : s.version ≤ 10)
    (hp : s.phase ≠ .added) : Signing s ↔ s.version ≠ 10 := by
  obtain ⟨K, n, hK, hcur, hsigns⟩ := h.signs
  have hn : n = signer s.version := by
    rw [hsigns.eq_signs hv]
    cases hs : s.phase <;> first | rfl | exact absurd hs hp
  have hmap : s.keys.map (·.currentKid) = .ok (kid n) := by rw [hK, ← hcur]; rfl
  rw [Signing, hmap, hn, signer]
  split
  · rename_i h10
    simp [hp, h10, kid_injective.eq_iff]
  · rename_i h10
    simp [h10]

/-- A deployment that starts with `v1`. -/
theorem exists_start : Reached libs value
    { env := [(envName 1, value 1)], keys := fromEnv libs [(envName 1, value 1)], now := 0 } :=
  .init ⟨_, _, @signingVars_append [] _ _, rfl⟩

theorem step_restart {vars : List (String × String)} (h : vars.Perm s.env) :
    step libs value s (.restart vars) =
      some { s with keys := fromEnv libs vars, phase := s.phase.restarted s.now } :=
  if_pos h

/-- The old version can be deleted once its tokens have expired. -/
theorem step_delete {since : Int} (hp : s.phase = .window since)
    (hwait : since + ACCESS_TOKEN_TTL_SECS * 1000 ≤ s.now) :
    step libs value s .delete = some { s with
      env := s.env.filter fun var => var.1 ≠ envName (s.version - 2)
      phase := .deleted } := by
  simp only [step, hp]
  exact if_pos hwait

/-- A rotation can begin. -/
theorem Reached.add (h : Reached libs value s) (hp : s.phase = .stable) :
    ∃ s', Reached libs value s' ∧ s'.version = s.version + 1 ∧ s'.phase = .window s'.now := by
  have hadd : step libs value s .add = some _ := if_pos hp
  have hrestart := Reach.step (h.step trivial hadd) trivial (step_restart (.refl _))
  exact ⟨_, hrestart, rfl, rfl⟩

/-- The operator can wait. -/
theorem Reached.wait {since : Int} (h : Reached libs value s) (hp : s.phase = .window since) :
    ∃ s', Reached libs value s' ∧ s'.version = s.version ∧ s'.phase = .window since ∧
      since + ACCESS_TOKEN_TTL_SECS * 1000 ≤ s'.now := by
  refine ⟨_, h.step (l := .tick (since + ACCESS_TOKEN_TTL_SECS * 1000 - s.now).toNat) trivial rfl,
    rfl, hp, ?_⟩
  dsimp only
  omega

/-- The old version can be deleted at the end of the window, and the rotation
    ends. -/
theorem Reached.delete {since : Int} (h : Reached libs value s) (hp : s.phase = .window since)
    (hwait : since + ACCESS_TOKEN_TTL_SECS * 1000 ≤ s.now) : ∃ s', Reached libs value s' ∧
      s'.version = s.version ∧ s'.phase = .stable ∧ s'.now = s.now ∧ s'.issued = s.issued := by
  have hdel : step libs value s .delete = _ := step_delete hp hwait
  have hrestart := Reach.step (h.step trivial hdel) trivial (step_restart (.refl _))
  exact ⟨_, hrestart, rfl, rfl, rfl, rfl⟩

theorem exists_stable (n : ℕ) :
    ∃ s, Reached libs value s ∧ s.version = n + 1 ∧ s.phase = .stable := by
  induction n with
  | zero => exact ⟨_, exists_start, rfl, rfl⟩
  | succ n ih =>
    obtain ⟨s, hs, hv, hp⟩ := ih
    obtain ⟨s₁, hs₁, hv₁, hp₁⟩ := hs.add hp
    obtain ⟨s₂, hs₂, hv₂, hp₂, hwait⟩ := hs₁.wait hp₁
    obtain ⟨s₃, hs₃, hv₃, hp₃, -, -⟩ := hs₂.delete hp₂ hwait
    exact ⟨s₃, hs₃, by rw [hv₃, hv₂, hv₁, hv], hp₃⟩

/-- In the tenth rotation, an unexpired token is rejected. -/
theorem exists_rejected (hlibs : libs.Correct)
    (hvalue : ∀ n, ValidVar libs (kid n, value n) (secret n)) :
    ∃ s, Reached libs value s ∧ s.version = 11 ∧ ¬Accepted libs s := by
  obtain ⟨s, hs, hv, hp⟩ := @exists_stable _ libs value 9
  obtain ⟨s₁, hs₁, hv₁, hp₁⟩ := hs.add hp
  obtain ⟨s₂, hs₂, hv₂, hp₂, hwait⟩ := hs₁.wait hp₁
  have hkeys := keysInv hvalue hs₂
  obtain ⟨K, n, hK, hcur, hsigns⟩ := hkeys.signs
  obtain ⟨K', hK', hlookup, -⟩ := hkeys.lookup hvalue
  obtain rfl : K = K' := Except.ok.inj (hK.symm.trans hK')
  have hloaded : s₂.phase.loaded s₂.version = Recent 11 2 := by rw [hp₂, hv₂, hv₁, hv]; rfl
  rw [hloaded] at hsigns hlookup
  obtain rfl := hsigns.eq_nine
  -- a token issued at the end of the window is signed with `v9`
  let claims : Claims := ⟨"u", "c", s₂.now / 1000, s₂.now / 1000 + ACCESS_TOKEN_TTL_SECS⟩
  obtain ⟨token, htoken⟩ := hlibs.encodes ⟨some (kid 9)⟩ claims (secret 9)
  have hkey : K.keys.lookup K.currentKid = some (secret 9) := hcur ▸ hlookup 9 hsigns.1
  have hissue : issue libs K s₂.now "u" "c" ACCESS_TOKEN_TTL_SECS = .ok token := by
    simp only [issue, hkey]
    rw [hcur]
    exact congrArg (Except.mapError _) htoken
  have hstep : step libs value s₂ (.issue "u" "c" ACCESS_TOKEN_TTL_SECS) =
      some { s₂ with issued := s₂.issued ++ [(token, claims)] } := by
    simp only [step, hK, hissue]
    exact if_pos le_rfl
  have hissued : Reached libs value _ := hs₂.step trivial hstep
  obtain ⟨s₃, hs₃, hv₃, hp₃, hnow, hissued⟩ := hissued.delete hp₂ hwait
  have hv₃ : s₃.version = 11 := by rw [hv₃]; show s₂.version = 11; rw [hv₂, hv₁, hv]
  refine ⟨s₃, hs₃, hv₃, fun hacc => ?_⟩
  obtain ⟨K', hK', -, hnone⟩ := (keysInv hvalue hs₃).lookup hvalue
  have hdeleted : K'.keys.lookup (kid 9) = none := hnone 9 fun hl => by
    rw [hp₃, hv₃] at hl
    exact absurd hl.2.2 (by omega)
  have hlive : s₃.now / 1000 < claims.exp := by
    rw [hnow]
    exact Int.lt_add_of_pos_right _ (by decide)
  have haccepted := hacc (token, claims) (by rw [hissued]; simp) hlive
  rw [hK'] at haccepted
  exact absurd (haccepted.symm.trans (verify_unknownKid hlibs htoken hdeleted)) (by simp)

/-- Every token is accepted before it expires in exactly the first nine
    rotations. -/
theorem tokens_accepted_iff (hlibs : libs.Correct)
    (hvalue : ∀ n, ValidVar libs (kid n, value n) (secret n)) (N : ℕ) :
    (∀ s, Reached libs value s → s.rotations ≤ N → Accepted libs s) ↔ N ≤ 9 := by
  constructor
  · intro h
    by_contra hN
    obtain ⟨s, hs, hv, hrejected⟩ := exists_rejected hlibs hvalue
    refine hrejected (h s hs ?_)
    rw [Deployment.rotations, hv]
    omega
  · intro hN s hs hrot
    have hv : s.version ≤ 10 := by
      rw [Deployment.rotations] at hrot
      omega
    exact (tokensInv hvalue hs hv).accepted hlibs hvalue (keysInv hvalue hs)

/-- Every token is accepted before it expires, and every version added signs
    once the server is restarted, in exactly the first eight rotations. -/
theorem rotation_safe_iff (hlibs : libs.Correct)
    (hvalue : ∀ n, ValidVar libs (kid n, value n) (secret n)) (N : ℕ) :
    (∀ s, Reached libs value s → s.rotations ≤ N → Accepted libs s ∧ Signing s) ↔ N ≤ 8 := by
  constructor
  · intro h
    by_contra hN
    -- the ninth rotation adds `v10`, and `v9` goes on signing
    obtain ⟨s, hs, hv, hp⟩ := @exists_stable _ libs value 9
    have hsigning := (h s hs (by rw [Deployment.rotations, hv]; omega)).2
    exact ((keysInv hvalue hs).signing_iff hv.le (by rw [hp]; exact Phase.noConfusion)).1
      hsigning hv
  · intro hN s hs hrot
    have hv : s.version ≤ 9 := by
      rw [Deployment.rotations] at hrot
      omega
    refine ⟨(tokensInv hvalue hs (by omega)).accepted hlibs hvalue (keysInv hvalue hs), ?_⟩
    intro hp
    exact ((keysInv hvalue hs).signing_iff (by omega) hp).2 (by omega) hp

/-! ### Ten rotations -/

/-- A key of 32 bytes. -/
def sampleKey : List UInt8 := (List.range 32).map fun i => .ofNat (48 + i % 10)
/-- The key in base64. -/
def sampleKeyBase64 : String := "MDEyMzQ1Njc4OTAxMjM0NTY3ODkwMTIzNDU2Nzg5MDE="

/-- A token library whose tokens are the header and the claims sealed with the
    key, and a decoder that knows one text. -/
def sampleLibs : Libs (Header × Claims × List UInt8) where
  base64Decode s := if s = sampleKeyBase64 then .ok sampleKey else .error "Invalid byte"
  encode h claims key := .ok (h, claims, key)
  decodeHeader t := .ok t.1
  decode now t key :=
    if t.2.2 ≠ key then .error "InvalidSignature"
    else if t.2.1.exp < now - 60 then .error "ExpiredSignature"
    else .ok t.2.1

/-- The library decodes what it encodes. -/
theorem sampleLibs_correct : sampleLibs.Correct where
  encodes h claims key := ⟨_, rfl⟩
  header := by
    rintro h claims key t ht
    cases ht
    rfl
  claims := by
    rintro h claims key t now ht hexp
    cases ht
    have hlive : ¬claims.exp < now - 60 := by omega
    simp [sampleLibs, hlive]

/-- Every version has a valid value. -/
theorem sampleKey_valid (n : ℕ) : ValidVar sampleLibs (kid n, sampleKeyBase64) sampleKey :=
  ⟨kid_ne_empty, by simp [sampleLibs], by decide⟩

/-- Eight rotations are safe. -/
theorem rotation_safe_eight : 8 ≤ 8 ∧ ∀ s,
    Reached sampleLibs (fun _ => sampleKeyBase64) s → s.rotations ≤ 8 →
      Accepted sampleLibs s ∧ Signing s :=
  ⟨le_rfl, (rotation_safe_iff sampleLibs_correct sampleKey_valid 8).2 le_rfl⟩

/-- The environment with the given versions. -/
def sampleEnv (versions : List ℕ) : List (String × String) :=
  versions.map fun n => (envName n, sampleKeyBase64)

/-- A deployment that starts with `v1`. -/
def sampleStart : Deployment (Header × Claims × List UInt8) :=
  { env := sampleEnv [1], keys := fromEnv sampleLibs (sampleEnv [1]), now := 0 }

/-- The rotation that adds the version `n + 2`, up to the end of its window. -/
def window (n : ℕ) : List Move :=
  [.add, .restart (sampleEnv ((List.range' n 3).filter (0 < ·))), .tick 3600000]

/-- The `n + 1` first rotations but for the end of the last one. -/
def windows : ℕ → List Move
  | 0 => window 0
  | n + 1 => windows n ++ [.delete, .restart (sampleEnv [n + 1, n + 2])] ++ window (n + 1)

/-- Claims that expire at the end of the hour. -/
def sampleClaims : Claims := ⟨"u", "c", 36000, 39600⟩

/-- A token issued at the end of the tenth window. -/
def lastToken : List Move :=
  [.issue "u" "c" 3600, .delete, .restart (sampleEnv [10, 11])]

/-- In the ninth rotation, `v10` is added and `v9` signs; in the tenth one, a
    token signed with `v9` is rejected before it expires. -/
theorem rotation_unsafe : ∃ s s' token,
    Reached sampleLibs (fun _ => sampleKeyBase64) s ∧
    (s.rotations = 9 ∧ s.version = 10 ∧ s.phase ≠ .added ∧
      s.keys.map (·.currentKid) = .ok "v9") ∧
    Reached sampleLibs (fun _ => sampleKeyBase64) s' ∧
    (s'.rotations = 10 ∧ (token, sampleClaims) ∈ s'.issued ∧ s'.now / 1000 < sampleClaims.exp ∧
      s'.keys.bind (fun K => verify sampleLibs K s'.now token) = .error (.unknownKid "v9")) := by
  have hstart : Reached sampleLibs (fun _ => sampleKeyBase64) sampleStart :=
    .init ⟨_, _, by decide +kernel, rfl⟩
  let token : Header × Claims × List UInt8 := ⟨⟨some "v9"⟩, sampleClaims, sampleKey⟩
  obtain ⟨s, hs, hninth⟩ : ∃ s, exec (step sampleLibs fun _ => sampleKeyBase64)
      (fun _ _ => true) sampleStart (windows 8) = some s ∧ decide (s.rotations = 9 ∧
        s.version = 10 ∧ s.phase ≠ .added ∧ s.keys.map (·.currentKid) = .ok "v9") = true :=
    Option.map_eq_some_iff.1 (by decide +kernel)
  obtain ⟨s', hs', htenth⟩ : ∃ s', exec (step sampleLibs fun _ => sampleKeyBase64)
      (fun _ _ => true) sampleStart (windows 9 ++ lastToken) = some s' ∧
        decide (s'.rotations = 10 ∧ (token, sampleClaims) ∈ s'.issued ∧
          s'.now / 1000 < sampleClaims.exp ∧
          s'.keys.bind (fun K => verify sampleLibs K s'.now token) = .error (.unknownKid "v9")) =
        true :=
    Option.map_eq_some_iff.1 (by decide +kernel)
  exact ⟨s, s', token, .exec (fun _ _ _ => trivial) hstart hs, of_decide_eq_true hninth,
    .exec (fun _ _ _ => trivial) hstart hs', of_decide_eq_true htenth⟩

end Runs

end LlmMemory.Auth.Jwt
