import LlmMemory.Auth.Operations
import Mathlib.Data.List.AList
import Mathlib.Data.List.Induction
import Mathlib.Data.String.Basic

/-!
# Signing keys and access tokens

The keys that sign access tokens are loaded at startup from the environment
variables `JWT_SIGNING_KEY_<kid>` (`fromEnv`): the lexicographically largest
`kid` signs (`issue`), every key loaded verifies (`verify`).

* `fromEnv_loaded`: if the keys in the environment are valid, they are all
  loaded, and the current one is the largest;
* `verify_issued`: a token verifies wherever the key that signed it is loaded.
-/

namespace LlmMemory.Auth.Jwt

/-- What goes wrong with a key or a token. -/
inductive AuthError
  | missingKid
  | unknownKid (kid : String)
  | jwt (e : String)
  | oauth (message : String)
  deriving DecidableEq, Repr

/-- The header of a token: the key that signed it. -/
structure Header where
  kid : Option String
  deriving DecidableEq, Repr

/-- The base64 decoder and the token library, of tokens `τ`: signed with HS256,
    and decoded at a time, in seconds, with `validate_exp`. -/
structure Libs (τ : Type) where
  base64Decode : String → Except String (List UInt8)
  encode : Header → Claims → List UInt8 → Except String τ
  decodeHeader : τ → Except String Header
  decode : Int → τ → List UInt8 → Except String Claims

/-- The signing keys by `kid`, and the one that signs. -/
structure JwtKeys where
  currentKid : String
  keys : AList fun _ : String => List UInt8

/-- The least length of an HS256 key. -/
def MIN_HS256_KEY_BYTES : ℕ := 32

/-- The text after the prefix `p` of `s`. -/
def stripPrefix (p s : String) : Option String :=
  if p.toList.isPrefixOf s.toList then some (.ofList (s.toList.drop p.toList.length)) else none

/-- A variable of the environment with this prefix holds a key. -/
def ENV_PREFIX : String := "JWT_SIGNING_KEY_"

section Model

variable {τ : Type} (libs : Libs τ)

/-- Load the key `kid` from the value of its variable. -/
def addKey (K : JwtKeys) (kid value : String) : Except AuthError JwtKeys :=
  if kid = "" then
    .error (.oauth
      "JWT_SIGNING_KEY_ requires a non-empty kid suffix (e.g. JWT_SIGNING_KEY_v1=...)")
  else match libs.base64Decode value with
    | .error e => .error (.oauth s!"JWT_SIGNING_KEY_{kid}: invalid base64 ({e})")
    | .ok bytes =>
      let len := bytes.length
      if len < MIN_HS256_KEY_BYTES then
        .error (.oauth (s!"JWT_SIGNING_KEY_{kid}: decoded key is {len} bytes; "
          ++ s!"HS256 requires >= {MIN_HS256_KEY_BYTES}"))
      else .ok ⟨if K.currentKid < kid then kid else K.currentKid, K.keys.insert kid bytes⟩

/-- Load a variable, if it holds a key. -/
def loadVar (K : JwtKeys) (var : String × String) : Except AuthError JwtKeys :=
  match stripPrefix ENV_PREFIX var.1 with
  | some kid => addKey libs K kid var.2
  | none => .ok K

/-- The keys in the environment `vars`, whose variables come in any order. -/
def fromEnv (vars : List (String × String)) : Except AuthError JwtKeys := do
  let K ← vars.foldlM (loadVar libs) ⟨"", ∅⟩
  if K.keys.keys.isEmpty then
    .error (.oauth ("no JWT_SIGNING_KEY_<kid> environment variable configured; "
      ++ "refusing to start without a signing key"))
  else pure K

/-- A token for the user, at the time `now` in milliseconds. -/
def issue (K : JwtKeys) (now : Int) (userId clientId : String) (ttlSeconds : Int) :
    Except AuthError τ :=
  let now := now / 1000
  let claims : Claims := ⟨userId, clientId, now, now + ttlSeconds⟩
  match K.keys.lookup K.currentKid with
  | none => .error .missingKid
  | some secret => (libs.encode ⟨some K.currentKid⟩ claims secret).mapError .jwt

/-- The claims of a token, signed with a loaded key and unexpired at the time `now`. -/
def verify (K : JwtKeys) (now : Int) (token : τ) : Except AuthError Claims := do
  let header ← (libs.decodeHeader token).mapError .jwt
  match header.kid with
  | none => .error .missingKid
  | some kid =>
    match K.keys.lookup kid with
    | none => .error (.unknownKid kid)
    | some secret => (libs.decode (now / 1000) token secret).mapError .jwt

/-- The token library is correct: what it encodes, it decodes with the same key
    up to the expiry. -/
structure Libs.Correct : Prop where
  encodes : ∀ h claims key, ∃ t, libs.encode h claims key = .ok t
  header : ∀ {h claims key t}, libs.encode h claims key = .ok t → libs.decodeHeader t = .ok h
  claims : ∀ {h claims key t now}, libs.encode h claims key = .ok t → now < claims.exp →
    libs.decode now t key = .ok claims

end Model

/-! ## Loading keys -/

/-- The `kid`s and values of the variables that hold signing keys. -/
def signingVars (vars : List (String × String)) : List (String × String) :=
  vars.filterMap fun var => (stripPrefix ENV_PREFIX var.1).map (·, var.2)

theorem stripPrefix_append {p s : String} : stripPrefix p (p ++ s) = some s := by
  simp [stripPrefix]

/-- A prefix that is stripped was there. -/
theorem stripPrefix_eq_some {p s t : String} (h : stripPrefix p s = some t) : s = p ++ t := by
  rw [stripPrefix] at h
  split at h
  · rename_i hp
    obtain ⟨l, hl⟩ := List.isPrefixOf_iff_prefix.1 hp
    cases h
    rw [← String.toList_inj]
    simp [← hl]
  · cases h

section Loading

variable {τ : Type} {libs : Libs τ} {K : JwtKeys} {l : List (String × String)}

/-- The variable holds a key that can be loaded. -/
def ValidVar (libs : Libs τ) (var : String × String) (secret : List UInt8) : Prop :=
  var.1 ≠ "" ∧ libs.base64Decode var.2 = .ok secret ∧ MIN_HS256_KEY_BYTES ≤ secret.length

/-- The keys `K` are those of `l`, of which the largest is the current one. -/
structure Loaded (libs : Libs τ) (K : JwtKeys) (l : List (String × String)) : Prop where
  current : K.currentKid = "" ∧ l = [] ∨ K.currentKid ∈ l.map Prod.fst
  le_current : ∀ kid ∈ l.map Prod.fst, kid ≤ K.currentKid
  lookup : ∀ kid secret, K.keys.lookup kid = some secret ↔
    ∃ value, (kid, value) ∈ l ∧ libs.base64Decode value = .ok secret

theorem Loaded.nil : Loaded libs ⟨"", ∅⟩ [] where
  current := .inl ⟨rfl, rfl⟩
  le_current _ h := absurd h List.not_mem_nil
  lookup _ _ := by simp

/-- A valid variable loads its key, which signs if its `kid` is the largest. -/
theorem addKey_valid {kid value : String} {secret : List UInt8}
    (h : ValidVar libs (kid, value) secret) : addKey libs K kid value =
      .ok ⟨if K.currentKid < kid then kid else K.currentKid, K.keys.insert kid secret⟩ := by
  obtain ⟨hkid, hdecode, hlen⟩ := h
  simp only [addKey, if_neg hkid, hdecode, if_neg (Nat.not_lt.2 hlen)]

/-- The empty text comes before any other. -/
theorem empty_lt {s : String} (h : s ≠ "") : "" < s := by
  rw [String.lt_iff_toList_lt]
  cases hs : s.toList with
  | nil => exact absurd (String.toList_eq_nil_iff.1 hs) h
  | cons c cs => exact List.nil_lt_cons c cs

/-- The keys loaded so far, and one more. -/
theorem Loaded.addKey {kid value : String} {secret : List UInt8} (h : Loaded libs K l)
    (hvar : ValidVar libs (kid, value) secret) (hnew : kid ∉ l.map Prod.fst) :
    Loaded libs ⟨if K.currentKid < kid then kid else K.currentKid, K.keys.insert kid secret⟩
      (l ++ [(kid, value)]) where
  current := by
    right
    dsimp only
    split
    · simp
    · rename_i hlt
      -- no key is before the empty name, so a first key always becomes the current one
      rcases h.current with ⟨hempty, -⟩ | hmem
      · exact absurd (hempty ▸ empty_lt hvar.1) hlt
      · simp [hmem]
  le_current := by
    intro k hk
    rw [List.map_append, List.mem_append] at hk
    dsimp only
    split
    · rename_i hlt
      rcases hk with hk | hk
      · exact (h.le_current k hk).trans hlt.le
      · exact (List.mem_singleton.1 hk).le
    · rename_i hlt
      rcases hk with hk | hk
      · exact h.le_current k hk
      · exact (List.mem_singleton.1 hk).le.trans (not_lt.1 hlt)
  lookup := by
    intro k s
    by_cases hk : k = kid
    · subst hk
      rw [AList.lookup_insert]
      have hno : ∀ v, (k, v) ∉ l := fun v hv => hnew (List.mem_map_of_mem hv)
      simp [hno, hvar.2.1]
    · rw [AList.lookup_insert_ne hk, h.lookup]
      simp [hk]

/-- Only the signing variables are loaded. -/
theorem foldlM_loadVar {vars : List (String × String)} : vars.foldlM (loadVar libs) K =
    (signingVars vars).foldlM (fun K var => addKey libs K var.1 var.2) K := by
  induction vars generalizing K with
  | nil => rfl
  | cons var vars ih =>
    rw [List.foldlM_cons, loadVar, signingVars, List.filterMap_cons]
    cases stripPrefix ENV_PREFIX var.1 with
    | none => exact ih
    | some kid =>
      rw [Option.map_some, List.foldlM_cons]
      exact bind_congr fun K' => ih

/-- Valid keys, of different `kid`s, are all loaded. -/
theorem foldlM_addKey (hvalid : ∀ var ∈ l, ∃ secret, ValidVar libs var secret)
    (hnodup : (l.map Prod.fst).Nodup) :
    ∃ K, l.foldlM (fun K var => addKey libs K var.1 var.2) ⟨"", ∅⟩ = .ok K ∧ Loaded libs K l := by
  induction l using List.reverseRecOn with
  | nil => exact ⟨_, rfl, .nil⟩
  | append_singleton l var ih =>
    rw [List.map_append, List.nodup_append] at hnodup
    obtain ⟨K, hK, hload⟩ := ih (fun v hv => hvalid v (List.mem_append_left _ hv)) hnodup.1
    obtain ⟨secret, hvar⟩ := hvalid var (List.mem_append_right _ (List.mem_singleton_self var))
    refine ⟨_, ?_, hload.addKey hvar fun hmem => ?_⟩
    · rw [List.foldlM_append, hK]
      exact (bind_pure _).trans (addKey_valid hvar)
    · exact hnodup.2.2 _ hmem var.1 (List.mem_singleton_self _) rfl

/-- The keys of an environment that holds valid ones, at least one, are all
    loaded. -/
theorem fromEnv_loaded {vars : List (String × String)} (hne : signingVars vars ≠ [])
    (hvalid : ∀ var ∈ signingVars vars, ∃ secret, ValidVar libs var secret)
    (hnodup : ((signingVars vars).map Prod.fst).Nodup) :
    ∃ K, fromEnv libs vars = .ok K ∧ Loaded libs K (signingVars vars) := by
  obtain ⟨K, hK, hload⟩ := foldlM_addKey hvalid hnodup
  refine ⟨K, ?_, hload⟩
  have hkeys : ¬K.keys.keys.isEmpty := by
    obtain ⟨var, hvar⟩ := List.exists_mem_of_ne_nil _ hne
    obtain ⟨secret, hsecret⟩ := hvalid var hvar
    have hl := (hload.lookup var.1 secret).2 ⟨var.2, hvar, hsecret.2.1⟩
    have hmem : var.1 ∈ K.keys := AList.lookup_isSome.1 (by rw [hl]; rfl)
    rw [List.isEmpty_iff]
    exact List.ne_nil_of_mem hmem
  rw [fromEnv, foldlM_loadVar, hK]
  exact if_neg hkeys

end Loading

/-! ## Issuing and verifying -/

section Tokens

variable {τ : Type} {libs : Libs τ} {K : JwtKeys} {now : Int} {token : τ}

/-- The token says `claims`, signed with the key `kid` of the secret. -/
def Signed (libs : Libs τ) (token : τ) (claims : Claims) (kid : String) (secret : List UInt8) :
    Prop :=
  libs.encode ⟨some kid⟩ claims secret = .ok token

/-- An issued token is signed with the current key. -/
theorem issue_signed {userId clientId : String} {ttl : Int}
    (h : issue libs K now userId clientId ttl = .ok token) : ∃ secret,
      K.keys.lookup K.currentKid = some secret ∧
      Signed libs token ⟨userId, clientId, now / 1000, now / 1000 + ttl⟩ K.currentKid secret := by
  simp only [issue] at h
  split at h
  · cases h
  · rename_i secret hl
    refine ⟨secret, hl, ?_⟩
    rw [Signed]
    cases he : libs.encode ⟨some K.currentKid⟩ ⟨userId, clientId, now / 1000, now / 1000 + ttl⟩
        secret with
    | error e => rw [he] at h; cases h
    | ok t => rw [he] at h; cases h; rfl

/-- A signed token verifies where its key is loaded. -/
theorem verify_signed (hlibs : libs.Correct) {claims : Claims} {kid : String}
    {secret : List UInt8} (h : Signed libs token claims kid secret)
    (hkey : K.keys.lookup kid = some secret) (hexp : now / 1000 < claims.exp) :
    verify libs K now token = .ok claims := by
  rw [verify, hlibs.header h]
  simp only [Except.mapError, bind, Except.bind, hkey, hlibs.claims h hexp]

/-- A token that is signed does not verify where its key is not loaded. -/
theorem verify_unknownKid (hlibs : libs.Correct) {claims : Claims} {kid : String}
    {secret : List UInt8} (h : Signed libs token claims kid secret)
    (hkey : K.keys.lookup kid = none) : verify libs K now token = .error (.unknownKid kid) := by
  rw [verify, hlibs.header h]
  simp only [Except.mapError, bind, Except.bind, hkey]

end Tokens

end LlmMemory.Auth.Jwt
