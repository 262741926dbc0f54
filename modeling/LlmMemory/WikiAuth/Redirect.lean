import LlmMemory.Lib.QueryStrings
import LlmMemory.WikiAuth.Server

/-!
# The redirection to the client

Both authorization servers redirect the client to a URL that carries its code
and its state (`Carries`), as parameters after those of its redirect URI. One
encodes the state byte by byte (`Auth.urlencoding`), the other character by
character (`WikiAuth.urlencoding`), which is not UTF-8 beyond ASCII.

* `carries_iff_ascii`: the state survives the redirection by the one server, and
  that by the other if and only if it is in ASCII.
-/

namespace LlmMemory

open QueryStrings

/-- The bytes of a text, in UTF-8. -/
def utf8 (s : String) : List UInt8 := s.toUTF8.data.toList

/-- The bytes of the characters, one after the other. -/
theorem utf8_eq (s : String) : utf8 s = s.toList.flatMap String.utf8EncodeChar := by
  rw [utf8, String.toUTF8, ← String.utf8Encode_toList, List.utf8Encode]
  simp

/-- A character in ASCII is one byte. -/
theorem utf8EncodeChar_ascii : ∀ n < 128, String.utf8EncodeChar (Char.ofNat n) = [.ofNat n] := by
  decide

namespace Auth

/-- A digit is read as it is written. -/
theorem hexValue_hexDigit : ∀ n < 16, hexValue (hexDigit n) = some n := by decide

/-- Neither an unreserved character nor a hexadecimal digit has a meaning in a
    URL. -/
theorem unreserved_ne {c d : Char} (hc : unreserved c = true) (hd : unreserved d = false) :
    c ≠ d := by
  rintro rfl
  rw [hc] at hd
  cases hd

theorem unreserved_hexDigit : ∀ n < 16, unreserved (hexDigit n) = true := by decide

/-- Percent decoding undoes percent encoding. -/
theorem percentDecode_urlencoding (s : String) :
    percentDecode (urlencoding s).toList = utf8 s := by
  rw [urlencoding, String.toList_ofList, utf8]
  generalize s.toUTF8.data.toList = bs
  induction bs with
  | nil => rfl
  | cons b bs ih =>
    have hb : b.toNat < 256 := b.toNat_lt
    rw [List.flatMap_cons]
    split
    · rename_i hplain
      rw [Bool.and_eq_true, decide_eq_true_iff] at hplain
      rw [List.singleton_append, percentDecode_cons (unreserved_ne hplain.2 rfl), ih,
        utf8EncodeChar_ascii _ hplain.1, UInt8.ofNat_toNat]
      rfl
    · rw [List.cons_append, List.cons_append, List.singleton_append,
        percentDecode_byte (hexValue_hexDigit _ (by omega)) (hexValue_hexDigit _ (by omega)), ih,
        Nat.div_add_mod, UInt8.ofNat_toNat]

/-- No character of a text that is encoded has a meaning in a URL. -/
theorem urlencoding_safe {s : String} {c : Char} (hc : c ∈ (urlencoding s).toList) :
    unreserved c = true ∨ c = '%' := by
  rw [urlencoding, String.toList_ofList, List.mem_flatMap] at hc
  obtain ⟨b, -, hc⟩ := hc
  have hb : b.toNat < 256 := b.toNat_lt
  split at hc
  · rename_i hplain
    rw [Bool.and_eq_true] at hplain
    rw [List.mem_singleton.1 hc]
    exact .inl hplain.2
  · rcases List.mem_cons.1 hc with rfl | hc
    · exact .inr rfl
    rcases List.mem_cons.1 hc with rfl | hc
    · exact .inl (unreserved_hexDigit _ (by omega))
    · rw [List.mem_singleton.1 hc]
      exact .inl (unreserved_hexDigit _ (by omega))

end Auth

/-! ## What a URL carries -/

open Auth

/-- The URL carries the code and the state of a session to the client, as the
    parameters that come after those of its redirect URI, and changes nothing
    else of it. -/
structure Carries (pending : PendingAuth) (code url : String) : Prop where
  unfragmented : '#' ∉ url.toList
  base : base url.toList = base pending.redirectUri.toList
  params : ∃ state, params url.toList =
      params pending.redirectUri.toList ++ ("code".toList, code.toList) :: state ∧
    match pending.clientState with
    | none => state = []
    | some clientState => ∃ v, state = [("state".toList, v)] ∧ percentDecode v = utf8 clientState

/-- The redirect URI with the code, and the state as it is encoded. -/
def withState (pending : PendingAuth) (code : String) (encode : String → String) : List Char :=
  let url := addParam pending.redirectUri.toList "code".toList code.toList
  match pending.clientState with
  | some clientState => addParam url "state".toList (encode clientState).toList
  | none => url

section Carries

variable {pending : PendingAuth} {code url : String} {encode : String → String}

/-- A parameter comes after a question mark. -/
theorem mem_addParam {url name value : List Char} : '?' ∈ addParam url name value := by
  by_cases hq : '?' ∈ url
  · exact List.mem_append_left _ hq
  · exact List.mem_append_right _ (by simp [hq])

/-- What is encoded separates nothing. -/
theorem safe_ne {c : Char} (h : unreserved c = true ∨ c = '%') : c ≠ '&' ∧ c ≠ '#' := by
  rcases h with h | rfl
  · exact ⟨unreserved_ne h rfl, unreserved_ne h rfl⟩
  · decide

theorem unreserved_code {c : Char} (h : c.isAlphanum = true) : unreserved c = true := by
  rw [unreserved, h]
  rfl

/-- A name of letters separates nothing. -/
theorem name_ne {name : String} (h : name.toList.all Char.isAlpha = true) {c : Char}
    (hc : c ∈ name.toList) : c ≠ '&' ∧ c ≠ '#' := by
  have halpha := List.all_eq_true.1 h c hc
  constructor
  · rintro rfl
    exact absurd halpha (by decide)
  · rintro rfl
    exact absurd halpha (by decide)

/-- A URL built so carries the code, and the state if decoding it gives it back. -/
theorem carries_iff (hurl : url.toList = withState pending code encode)
    (hu : '#' ∉ pending.redirectUri.toList) (hcode : ∀ c ∈ code.toList, c.isAlphanum = true)
    (hencode : ∀ s, ∀ c ∈ (encode s).toList, unreserved c = true ∨ c = '%') :
    Carries pending code url ↔ ∀ clientState, pending.clientState = some clientState →
      percentDecode (encode clientState).toList = utf8 clientState := by
  have hseg : ∀ c ∈ "code".toList ++ code.toList, c ≠ '&' ∧ c ≠ '#' := by
    intro c hc
    rcases List.mem_append.1 hc with hc | hc
    · exact name_ne (by decide) hc
    · exact safe_ne (.inl (unreserved_code (hcode c hc)))
  have hfrag := addParam_unfragmented hu hseg
  have hbase := base_addParam hu hseg
  have hparams := params_addParam hu (by decide) hseg
  cases hst : pending.clientState with
  | none =>
    rw [withState, hst] at hurl
    refine iff_of_true ⟨hurl ▸ hfrag, hurl ▸ hbase, [], hurl ▸ hparams, ?_⟩
      fun _ h => by cases h
    rw [hst]
  | some st =>
    rw [withState, hst] at hurl
    have hseg' : ∀ c ∈ "state".toList ++ (encode st).toList, c ≠ '&' ∧ c ≠ '#' := by
      intro c hc
      rcases List.mem_append.1 hc with hc | hc
      · exact name_ne (by decide) hc
      · exact safe_ne (hencode st c hc)
    have hall : params url.toList = params pending.redirectUri.toList ++
        ("code".toList, code.toList) :: [("state".toList, (encode st).toList)] := by
      rw [hurl, params_addParam hfrag (by decide) hseg', hparams, List.append_assoc]
      rfl
    constructor
    -- what follows the code among the parameters is the state alone
    · rintro ⟨-, -, state, hp, hstate⟩ _ ⟨⟩
      rw [hst] at hstate
      obtain ⟨v, rfl, hv⟩ := hstate
      have hval := List.append_cancel_left (hall.symm.trans hp)
      simp only [List.cons.injEq, Prod.mk.injEq, true_and, and_true] at hval
      rw [hval, hv]
    · intro h
      refine ⟨hurl ▸ addParam_unfragmented hfrag hseg', ?_, _, hall, ?_⟩
      · rw [hurl, base_addParam hfrag hseg', hbase]
      · rw [hst]
        exact ⟨_, rfl, h st rfl⟩

/-- What both servers append to the redirect URI. -/
theorem appended_toList :
    (let sep := if '?' ∈ pending.redirectUri.toList then "&" else "?"
      let url := pending.redirectUri ++ sep ++ "code=" ++ code
      match pending.clientState with
      | some clientState => url ++ "&state=" ++ encode clientState
      | none => url).toList = withState pending code encode := by
  have hsep : (if '?' ∈ pending.redirectUri.toList then "&" else "?").toList =
      [if '?' ∈ pending.redirectUri.toList then '&' else '?'] := by
    split <;> rfl
  have hcode : "code=".toList = "code".toList ++ ['='] := rfl
  have hstate : "&state=".toList = '&' :: "state".toList ++ ['='] := rfl
  rw [withState]
  cases pending.clientState with
  | none => simp [addParam, hsep, hcode]
  | some st =>
    dsimp only
    -- the second parameter comes after a question mark in any case
    rw [addParam, if_pos mem_addParam]
    simp [addParam, hsep, hcode, hstate]

end Carries

namespace WikiAuth

/-! ## Encoding by characters -/

/-- A digit in base 16 is read as it is written. -/
theorem hexValue_digitChar : ∀ n < 16, hexValue n.digitChar.toUpper = some n := by decide

theorem hexValue_of_mem_toDigits {n : ℕ} :
    ∀ c ∈ (Nat.toDigits 16 n).map Char.toUpper, ∃ v, hexValue c = some v := by
  induction n using Nat.strongRecOn with
  | ind n ih =>
    intro c hc
    rw [Nat.toDigits_eq_if (by decide)] at hc
    split at hc
    · rename_i hlt
      rw [List.map_singleton, List.mem_singleton] at hc
      exact ⟨n, hc ▸ hexValue_digitChar n hlt⟩
    · rename_i hge
      rw [List.map_append, List.mem_append, List.map_singleton, List.mem_singleton] at hc
      rcases hc with hc | hc
      · exact ih (n / 16) (by omega) c hc
      · exact ⟨n % 16, hc ▸ hexValue_digitChar _ (Nat.mod_lt _ (by decide))⟩

/-- The digits are hexadecimal ones. -/
theorem hexValue_of_mem_hex {n : ℕ} {c : Char} (hc : c ∈ hex n) : ∃ v, hexValue c = some v := by
  rw [hex] at hc
  split at hc
  · rcases List.mem_cons.1 hc with rfl | hc
    · exact ⟨0, rfl⟩
    · exact hexValue_of_mem_toDigits c hc
  · exact hexValue_of_mem_toDigits c hc

/-- There are two of them, and maybe more. -/
theorem hex_eq (n : ℕ) : ∃ a b ds, hex n = a :: b :: ds := by
  have hlen : 2 ≤ (hex n).length := by
    have hne : ((Nat.toDigits 16 n).map Char.toUpper).length ≠ 0 := by
      simp [Nat.toDigits_ne_nil]
    rw [hex]
    split
    · rw [List.length_cons]
      omega
    · omega
  match hex n, hlen with
  | a :: b :: ds, _ => exact ⟨a, b, ds, rfl⟩

/-- A digit is in ASCII, and not escaped. -/
theorem hexValue_ascii {c : Char} {v : ℕ} (h : hexValue c = some v) :
    c.toNat < 128 ∧ unreserved c = true := by
  have hall : ∀ n < 128, (hexValue (Char.ofNat n)).isSome = true →
      unreserved (Char.ofNat n) = true := by decide
  have hlt : c.toNat < 128 := by
    by_contra hge
    rw [hexValue, if_neg (by omega), if_neg (by omega), if_neg (by omega)] at h
    cases h
  have hc := hall c.toNat hlt
  rw [Char.ofNat_toNat] at hc
  exact ⟨hlt, hc (by rw [h]; rfl)⟩

/-- What is not escaped is in ASCII. -/
theorem unreserved_ascii {c : Char} (h : unreserved c = true) : c.toNat < 128 := by
  simp only [unreserved, Bool.or_eq_true, beq_iff_eq] at h
  rcases h with (((h | rfl) | rfl) | rfl) | rfl
  · unfold Char.isAlphanum Char.isAlpha Char.isUpper Char.isLower Char.isDigit at h
    simp only [Bool.or_eq_true, Bool.and_eq_true, decide_eq_true_eq, ge_iff_le,
      UInt32.le_iff_toNat_le] at h
    simp at h
    omega
  all_goals decide

/-- What is encoded is safe in a URL. -/
theorem urlencoding_safe {s : String} {c : Char} (hc : c ∈ (urlencoding s).toList) :
    unreserved c = true ∨ c = '%' := by
  rw [urlencoding, String.toList_ofList, List.mem_flatMap] at hc
  obtain ⟨d, -, hc⟩ := hc
  split at hc
  · rename_i hplain
    rw [List.mem_singleton.1 hc]
    exact .inl hplain
  · rcases List.mem_cons.1 hc with rfl | hc
    · exact .inr rfl
    · obtain ⟨v, hv⟩ := hexValue_of_mem_hex hc
      exact .inl (hexValue_ascii hv).2

/-- A character as it is encoded. -/
def unit (c : Char) : List Char := if unreserved c then [c] else '%' :: hex c.toNat

/-- The number of bytes that are not in ASCII. -/
def beyondAscii (bs : List UInt8) : ℕ := bs.countP fun b => 128 ≤ b.toNat

theorem beyondAscii_append (bs bs' : List UInt8) :
    beyondAscii (bs ++ bs') = beyondAscii bs + beyondAscii bs' :=
  List.countP_append

/-- Characters in ASCII are decoded as they are encoded. -/
theorem percentDecode_unit {c : Char} (hc : c.toNat < 128) (cs : List Char) :
    percentDecode (unit c ++ cs) = String.utf8EncodeChar c ++ percentDecode cs := by
  rw [unit]
  split
  · rename_i hplain
    rw [List.singleton_append, percentDecode_cons (unreserved_ne hplain rfl)]
  · have hhex : ∀ n < 128, hex n = [hexDigit (n / 16), hexDigit (n % 16)] := by decide
    have hbyte := utf8EncodeChar_ascii c.toNat hc
    rw [Char.ofNat_toNat] at hbyte
    rw [hhex c.toNat hc, hbyte, List.cons_append, List.cons_append, List.cons_append,
      percentDecode_byte (hexValue_hexDigit _ (by omega)) (hexValue_hexDigit _ (by omega)),
      Nat.div_add_mod]
    rfl

/-- A character in ASCII has no byte beyond it. -/
theorem beyondAscii_char {c : Char} (hc : c.toNat < 128) :
    beyondAscii (String.utf8EncodeChar c) = 0 := by
  have hbyte := utf8EncodeChar_ascii c.toNat hc
  rw [Char.ofNat_toNat] at hbyte
  rw [hbyte, beyondAscii, List.countP_singleton, if_neg]
  rw [UInt8.toNat_ofNat', decide_eq_true_iff]
  omega

theorem two_le_of_cons {b b' : UInt8} {bs : List UInt8} (h : 128 ≤ b.toNat)
    (h' : 128 ≤ b'.toNat) : 2 ≤ beyondAscii (b :: b' :: bs) := by
  rw [beyondAscii, List.countP_cons, List.countP_cons, if_pos (by simpa), if_pos (by simpa)]
  omega

/-- In UTF-8, a character beyond ASCII has at least two bytes that are. -/
theorem two_le_beyondAscii {c : Char} (hc : 128 ≤ c.toNat) :
    2 ≤ beyondAscii (String.utf8EncodeChar c) := by
  have hbyte : ∀ m k, 128 ≤ k → m + k < 256 → 128 ≤ (UInt8.ofNat (m + k)).toNat := by
    intro m k hk hlt
    rw [UInt8.toNat_ofNat']
    omega
  have hv : ¬ c.val.toNat ≤ 0x7f := Nat.not_le.2 hc
  rw [String.utf8EncodeChar, if_neg hv]
  split
  · exact two_le_of_cons (hbyte _ _ (by decide) (by omega)) (hbyte _ _ (by decide) (by omega))
  · split
    · exact two_le_of_cons (hbyte _ _ (by decide) (by omega)) (hbyte _ _ (by decide) (by omega))
    · exact two_le_of_cons (hbyte _ _ (by decide) (by omega)) (hbyte _ _ (by decide) (by omega))

/-- As it is encoded here, it comes to one such byte at most. -/
theorem beyondAscii_unit {c : Char} (hc : 128 ≤ c.toNat) (cs : List Char) :
    beyondAscii (percentDecode (unit c ++ cs)) ≤ 1 + beyondAscii (percentDecode cs) := by
  have hplain : ¬ unreserved c = true := fun h => by
    have := unreserved_ascii h
    omega
  obtain ⟨a, b, ds, hhex⟩ := hex_eq c.toNat
  have hdigit : ∀ d ∈ a :: b :: ds, ∃ v, hexValue d = some v :=
    fun d hd => hexValue_of_mem_hex (hhex ▸ hd)
  obtain ⟨x, hx⟩ := hdigit a (by simp)
  obtain ⟨y, hy⟩ := hdigit b (by simp)
  have hds : '%' ∉ ds := fun hmem => by
    obtain ⟨v, hv⟩ := hdigit '%' (by simp [hmem])
    cases hv
  have hzero : beyondAscii (ds.flatMap String.utf8EncodeChar) = 0 := by
    rw [beyondAscii, List.countP_eq_zero]
    intro u hu
    obtain ⟨d, hd, hu⟩ := List.mem_flatMap.1 hu
    obtain ⟨v, hv⟩ := hdigit d (by simp [hd])
    exact List.countP_eq_zero.1 (beyondAscii_char (hexValue_ascii hv).1) u hu
  rw [unit, if_neg hplain, hhex, List.cons_append, List.cons_append, List.cons_append,
    percentDecode_byte hx hy, percentDecode_append hds, beyondAscii, List.countP_cons]
  have happ := beyondAscii_append (ds.flatMap String.utf8EncodeChar) (percentDecode cs)
  rw [hzero, beyondAscii, Nat.zero_add] at happ
  rw [happ]
  split <;> omega

/-- Percent decoding undoes the encoding of a text in ASCII, and of no other. -/
theorem percentDecode_urlencoding_iff (s : String) :
    percentDecode (urlencoding s).toList = utf8 s ↔ ∀ c ∈ s.toList, c.toNat < 128 := by
  rw [urlencoding, String.toList_ofList, utf8_eq]
  change percentDecode (s.toList.flatMap unit) = _ ↔ _
  generalize s.toList = cs
  constructor
  · -- of every character beyond ASCII, a byte beyond it is missing
    have hle : beyondAscii (percentDecode (cs.flatMap unit)) +
        cs.countP (fun c => 128 ≤ c.toNat) ≤ beyondAscii (cs.flatMap String.utf8EncodeChar) := by
      induction cs with
      | nil => exact le_rfl
      | cons c cs ih =>
        rw [List.flatMap_cons, List.flatMap_cons, beyondAscii_append, List.countP_cons]
        by_cases hc : c.toNat < 128
        · rw [percentDecode_unit hc, beyondAscii_append, beyondAscii_char hc, if_neg (by simpa)]
          omega
        · have h₁ := beyondAscii_unit (Nat.le_of_not_lt hc) (cs.flatMap unit)
          have h₂ := two_le_beyondAscii (Nat.le_of_not_lt hc)
          rw [if_pos (by simpa using hc)]
          omega
    intro heq c hc
    rw [heq] at hle
    have hzero : cs.countP (fun c => decide (128 ≤ c.toNat)) = 0 := by omega
    simpa using List.countP_eq_zero.1 hzero c hc
  · intro hall
    induction cs with
    | nil => rfl
    | cons c cs ih =>
      rw [List.forall_mem_cons] at hall
      rw [List.flatMap_cons, List.flatMap_cons, percentDecode_unit hall.1, ih hall.2]

end WikiAuth

/-- The state survives the redirection by the one server. It survives that by
    the other if and only if it is in ASCII, if there is one. The code is a ulid,
    which is alphanumeric. -/
theorem carries_iff_ascii (pending : PendingAuth) (code : String)
    (hu : '#' ∉ pending.redirectUri.toList) (hcode : ∀ c ∈ code.toList, c.isAlphanum = true) :
    Carries pending code (Auth.redirectUrl pending code) ∧
      (Carries pending code (WikiAuth.redirectUrl pending code) ↔
        ∀ clientState, pending.clientState = some clientState →
          ∀ c ∈ clientState.toList, c.toNat < 128) := by
  have hbytes : (Auth.redirectUrl pending code).toList =
      withState pending code Auth.urlencoding := appended_toList
  have hchars : (WikiAuth.redirectUrl pending code).toList =
      withState pending code WikiAuth.urlencoding := appended_toList
  constructor
  · exact (carries_iff hbytes hu hcode fun s c hc => Auth.urlencoding_safe hc).2
      fun st _ => Auth.percentDecode_urlencoding st
  · rw [carries_iff hchars hu hcode fun s c hc => WikiAuth.urlencoding_safe hc]
    exact forall₂_congr fun st _ => WikiAuth.percentDecode_urlencoding_iff st

/-- A session with a state. -/
def sessionWith (clientState : String) : PendingAuth :=
  ⟨"c1", "https://app.example.com/cb?a=1", some clientState, sampleChallenge, "S256", "csrf",
    "secret", 5⟩

/-- The state `x&y` is carried. -/
theorem carries_iff_ascii_xyz :
    Carries (sessionWith "x&y") "01J" (WikiAuth.redirectUrl (sessionWith "x&y") "01J") :=
  have hcode : "01J".toList.all Char.isAlphanum = true := by decide
  have hstate : "x&y".toList.all (fun c => c.toNat < 128) = true := by decide
  (carries_iff_ascii (sessionWith "x&y") "01J" (by decide) (List.all_eq_true.1 hcode)).2.2
    fun st hst c hc => by
      cases hst
      simpa using List.all_eq_true.1 hstate c hc

/-- A state beyond ASCII is lost. -/
theorem state_lost :
    ¬Carries (sessionWith "é") "01J" (WikiAuth.redirectUrl (sessionWith "é") "01J") := by
  rintro ⟨-, -, state, hp, hstate⟩
  obtain ⟨v, rfl, hv⟩ := hstate
  have hval : v = "%E9".toList := by
    have hall : params (WikiAuth.redirectUrl (sessionWith "é") "01J").toList =
        [("a".toList, "1".toList), ("code".toList, "01J".toList), ("state".toList, "%E9".toList)] := by
      decide
    have hown : params (sessionWith "é").redirectUri.toList = [("a".toList, "1".toList)] := by
      decide
    rw [hall, hown] at hp
    simpa using hp.symm
  rw [hval] at hv
  exact absurd hv (by decide)

end LlmMemory
