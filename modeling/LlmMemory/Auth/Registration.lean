import Mathlib.Data.List.Basic
import Mathlib.Data.Nat.Notation

/-!
# Client registration

The check of the metadata of a client that registers itself (`Dcr.validate`),
and what it accepts (`Dcr.validate_ok`).

What the authorization server uses from other packages is given by
`Packages`: the parser of URLs, and the two halves of the S256 challenge.
-/

namespace LlmMemory.Auth

/-- What is read off a parsed URL. -/
structure Url where
  scheme : String
  fragment : Option String
  deriving DecidableEq, Repr

/-- The packages: the URL parser, the hash and the encoder. -/
structure Packages where
  parseUrl : String → Option Url
  sha256 : String → List UInt8
  base64Url : List UInt8 → String

/-- The S256 challenge of a verifier. -/
def Packages.challenge (pkgs : Packages) (verifier : String) : String :=
  pkgs.base64Url (pkgs.sha256 verifier)

namespace Dcr

/-- A request to register a client. -/
structure DcrRequest where
  redirectUris : List String
  grantTypes : List String := ["authorization_code", "refresh_token"]
  tokenEndpointAuthMethod : Option String := none
  clientName : Option String := none
  deriving DecidableEq, Repr

/-- The answer to a registration: the client as it is registered. -/
structure DcrResponse where
  clientId : String
  redirectUris : List String
  grantTypes : List String
  tokenEndpointAuthMethod : String
  clientName : Option String
  deriving DecidableEq, Repr

/-- A client has at most five redirect URIs. -/
def MAX_REDIRECT_URIS : ℕ := 5
/-- The grants a client may ask for. -/
def ALLOWED_GRANT_TYPES : List String := ["authorization_code", "refresh_token"]
/-- Public clients only: they authenticate with nothing. -/
def ALLOWED_AUTH_METHODS : List String := ["none"]

/-- The text of an `AuthError::OAuth`. -/
def oauthError (msg : String) : String := "oauth error: " ++ msg

/-- A redirect URI must be an `https` URL without a fragment. -/
def checkRedirectUri (pkgs : Packages) (u : String) : Except String Unit :=
  match pkgs.parseUrl u with
  | none => .error (oauthError ("invalid redirect_uri: " ++ u))
  | some parsed =>
    if parsed.scheme ≠ "https" then .error (oauthError ("redirect_uri must be https: " ++ u))
    else if parsed.fragment.isSome then
      .error (oauthError ("redirect_uri must not contain a fragment: " ++ u))
    else .ok ()

/-- A grant must be one that may be asked for. -/
def checkGrantType (g : String) : Except String Unit :=
  if g ∈ ALLOWED_GRANT_TYPES then .ok () else .error (oauthError ("grant_type not allowed: " ++ g))

/-- Check a list, up to its first error. -/
def checkAll {α : Type} (check : α → Except String Unit) : List α → Except String Unit
  | [] => .ok ()
  | x :: xs => match check x with
    | .ok () => checkAll check xs
    | .error e => .error e

/-- The check of a request, and the response to it, its `clientId` to be filled
    in. -/
def validate (pkgs : Packages) (req : DcrRequest) : Except String DcrResponse := do
  if req.redirectUris.isEmpty then throw (oauthError "redirect_uris required")
  if MAX_REDIRECT_URIS < req.redirectUris.length then
    throw (oauthError ("redirect_uris exceeds max " ++ toString MAX_REDIRECT_URIS))
  checkAll (checkRedirectUri pkgs) req.redirectUris
  checkAll checkGrantType req.grantTypes
  let method := req.tokenEndpointAuthMethod.getD "none"
  if method ∉ ALLOWED_AUTH_METHODS then throw (oauthError ("auth method not allowed: " ++ method))
  pure ⟨"", req.redirectUris, req.grantTypes, method, req.clientName⟩

/-! ## What is accepted -/

/-- Well-formed metadata of a client. -/
structure WellFormed (pkgs : Packages) (r : DcrResponse) : Prop where
  some_uri : r.redirectUris ≠ []
  few_uris : r.redirectUris.length ≤ MAX_REDIRECT_URIS
  uris : ∀ u ∈ r.redirectUris, pkgs.parseUrl u = some ⟨"https", none⟩
  grants : ∀ g ∈ r.grantTypes, g ∈ ALLOWED_GRANT_TYPES
  method : r.tokenEndpointAuthMethod ∈ ALLOWED_AUTH_METHODS

/-- Where a list passes, each of its elements does. -/
theorem checkAll_ok {α : Type} {check : α → Except String Unit} {l : List α}
    (h : checkAll check l = .ok ()) : ∀ x ∈ l, check x = .ok () := by
  induction l with
  | nil => exact fun _ hx => absurd hx List.not_mem_nil
  | cons y l ih =>
    rw [checkAll] at h
    split at h
    · rename_i hy
      intro x hx
      rcases List.mem_cons.1 hx with rfl | hx
      · exact hy
      · exact ih h x hx
    · cases h

/-- A redirect URI that passes has the scheme https, and no fragment. -/
theorem checkRedirectUri_ok {pkgs : Packages} {u : String}
    (h : checkRedirectUri pkgs u = .ok ()) : pkgs.parseUrl u = some ⟨"https", none⟩ := by
  rw [checkRedirectUri] at h
  split at h
  · cases h
  · rename_i parsed hp
    split at h
    · cases h
    · rename_i hs
      split at h
      · cases h
      · rename_i hf
        obtain ⟨scheme, fragment⟩ := parsed
        obtain rfl : scheme = "https" := not_not.1 hs
        obtain rfl : fragment = none := by simpa using hf
        exact hp

/-- A grant that passes is allowed. -/
theorem checkGrantType_ok {g : String} (h : checkGrantType g = .ok ()) :
    g ∈ ALLOWED_GRANT_TYPES := by
  rw [checkGrantType] at h
  split at h
  · assumption
  · cases h

/-- What is accepted is well-formed, and registered as requested. -/
theorem validate_ok {pkgs : Packages} {req : DcrRequest} {r : DcrResponse}
    (h : validate pkgs req = .ok r) :
    WellFormed pkgs r ∧ r.redirectUris = req.redirectUris ∧ r.grantTypes = req.grantTypes := by
  rw [validate] at h
  split at h
  · cases h
  rename_i hne
  split at h
  · cases h
  rename_i hlen
  cases hu : checkAll (checkRedirectUri pkgs) req.redirectUris with
  | error e => rw [hu] at h; cases h
  | ok =>
    cases hg : checkAll checkGrantType req.grantTypes with
    | error e => rw [hu, hg] at h; cases h
    | ok =>
      rw [hu, hg] at h
      simp only [bind, Except.bind] at h
      split at h
      · cases h
      rename_i hm
      cases h
      exact ⟨⟨fun h => hne (List.isEmpty_iff.2 h), Nat.not_lt.1 hlen,
        fun u hx => checkRedirectUri_ok (checkAll_ok hu u hx),
        fun g hx => checkGrantType_ok (checkAll_ok hg g hx), not_not.1 hm⟩, rfl, rfl⟩

end Dcr

end LlmMemory.Auth
