import Mathlib.Data.List.TakeWhile
import Mathlib.Data.Nat.Notation

/-!
# Query strings

The query of a URL, as a list of parameters (`params`), to which one is added by
appending text (`addParam`); and percent decoding, of a text to bytes
(`percentDecode`).

* `params_addParam`: a parameter that is added comes after the others, which
  stay as they are, provided that it does not contain `&` or `#`;
* `percentDecode_append`: what percent signs do not extend over is decoded part
  by part.
-/

namespace QueryStrings

/-! ## Parameters -/

/-- A URL up to its fragment. -/
def unfragmented (url : List Char) : List Char := url.takeWhile (· ≠ '#')

/-- The part of a URL before the query. -/
def base (url : List Char) : List Char := (unfragmented url).takeWhile (· ≠ '?')

/-- The query of a URL. -/
def query (url : List Char) : List Char := ((unfragmented url).dropWhile (· ≠ '?')).drop 1

/-- A parameter: its name, and its value. -/
def param (segment : List Char) : List Char × List Char :=
  (segment.takeWhile (· ≠ '='), (segment.dropWhile (· ≠ '=')).drop 1)

/-- The parts of a query between ampersands, except empty ones. -/
def segments (query : List Char) : List (List Char) := (query.splitOn '&').filter (· ≠ [])

/-- The parameters of a URL. -/
def params (url : List Char) : List (List Char × List Char) := (segments (query url)).map param

/-- The URL with one more parameter. -/
def addParam (url name value : List Char) : List Char :=
  url ++ (if '?' ∈ url then '&' else '?') :: (name ++ '=' :: value)

variable {url name value a b : List Char}

theorem takeWhile_ne_append {sep : Char} (h : sep ∉ a) :
    (a ++ sep :: b).takeWhile (· ≠ sep) = a ∧ (a ++ sep :: b).dropWhile (· ≠ sep) = sep :: b := by
  have ha : ∀ c ∈ a, decide (c ≠ sep) = true := fun c hc => by
    simpa using fun he : c = sep => h (he ▸ hc)
  rw [List.takeWhile_append_of_pos ha, List.dropWhile_append_of_pos ha]
  simp

/-- A text without a separator is not split. -/
theorem takeWhile_ne_self {sep : Char} (h : sep ∉ a) : a.takeWhile (· ≠ sep) = a :=
  List.takeWhile_eq_self_iff.2 fun c hc => by
    simpa using fun he : c = sep => h (he ▸ hc)

theorem segments_append : segments (a ++ '&' :: b) = segments a ++ segments b := by
  rw [segments, List.splitOn, List.splitOnP_append_cons _ _ (by simp), List.filter_append]
  rfl

/-- A text without a separator is one segment. -/
theorem segments_of_not_mem (h : '&' ∉ a) (hne : a ≠ []) : segments a = [a] := by
  have ha : ∀ c ∈ a, (c == '&') = false := fun c hc => by
    simpa using fun he : c = '&' => h (he ▸ hc)
  rw [segments, List.splitOn, List.splitOnP_eq_singleton ha]
  simp [hne]

/-- The name of a parameter ends at the first sign of equality. -/
theorem param_eq (h : '=' ∉ name) : param (name ++ '=' :: value) = (name, value) := by
  rw [param, (takeWhile_ne_append h).1, (takeWhile_ne_append h).2]
  rfl

section AddParam

variable (hurl : '#' ∉ url) (hname : '=' ∉ name) (hseg : ∀ c ∈ name ++ value, c ≠ '&' ∧ c ≠ '#')
include hurl hseg

/-- A URL with one more parameter has no fragment. -/
theorem addParam_unfragmented : '#' ∉ addParam url name value := by
  intro hmem
  rw [addParam, List.mem_append, List.mem_cons, List.mem_append, List.mem_cons] at hmem
  rcases hmem with h | h | h | h | h
  · exact hurl h
  · split at h <;> cases h
  · exact (hseg '#' (List.mem_append_left _ h)).2 rfl
  · cases h
  · exact (hseg '#' (List.mem_append_right _ h)).2 rfl

/-- A parameter leaves the rest of the URL. -/
theorem base_addParam : base (addParam url name value) = base url := by
  rw [base, base, unfragmented, takeWhile_ne_self (addParam_unfragmented hurl hseg), unfragmented,
    takeWhile_ne_self hurl, addParam]
  by_cases hq : '?' ∈ url
  · obtain ⟨p, q, hpq, hp⟩ := List.eq_append_cons_of_mem hq
    rw [hpq, List.append_assoc, List.cons_append, (takeWhile_ne_append hp).1,
      (takeWhile_ne_append hp).1]
  · rw [if_neg hq, (takeWhile_ne_append hq).1, takeWhile_ne_self hq]

include hname

/-- A parameter that is added comes after the others. -/
theorem params_addParam : params (addParam url name value) = params url ++ [(name, value)] := by
  have hamp : '&' ∉ name ++ '=' :: value := by
    intro hmem
    rw [List.mem_append, List.mem_cons] at hmem
    rcases hmem with h | h | h
    · exact (hseg '&' (List.mem_append_left _ h)).1 rfl
    · cases h
    · exact (hseg '&' (List.mem_append_right _ h)).1 rfl
  have hlast : (segments (name ++ '=' :: value)).map param = [(name, value)] := by
    rw [segments_of_not_mem hamp (by simp), List.map_singleton, param_eq hname]
  rw [params, params, query, query, unfragmented,
    takeWhile_ne_self (addParam_unfragmented hurl hseg), unfragmented, takeWhile_ne_self hurl,
    addParam]
  by_cases hq : '?' ∈ url
  · obtain ⟨p, q, rfl, hp⟩ := List.eq_append_cons_of_mem hq
    rw [if_pos hq, List.append_assoc, List.cons_append, (takeWhile_ne_append hp).2,
      (takeWhile_ne_append hp).2, List.drop_one, List.tail_cons, List.drop_one, List.tail_cons,
      segments_append, List.map_append, hlast]
  · have hnil : url.dropWhile (· ≠ '?') = [] :=
      List.dropWhile_eq_nil_iff.2 fun c hc => by
        simpa using fun he : c = '?' => hq (he ▸ hc)
    rw [if_neg hq, (takeWhile_ne_append hq).2, List.drop_one, List.tail_cons, hlast, hnil]
    rfl

end AddParam

/-! ## Percent decoding -/

/-- The value of a hexadecimal digit. -/
def hexValue (c : Char) : Option ℕ :=
  let n := c.toNat
  if 48 ≤ n ∧ n ≤ 57 then some (n - 48)
  else if 65 ≤ n ∧ n ≤ 70 then some (n - 55)
  else if 97 ≤ n ∧ n ≤ 102 then some (n - 87)
  else none

/-- The bytes of a text, in UTF-8, a percent sign and two hexadecimal digits
    being one byte. -/
def percentDecode : List Char → List UInt8
  | [] => []
  | '%' :: a :: b :: cs =>
    match hexValue a, hexValue b with
    | some x, some y => .ofNat (16 * x + y) :: percentDecode cs
    | _, _ => String.utf8EncodeChar '%' ++ percentDecode (a :: b :: cs)
  | c :: cs => String.utf8EncodeChar c ++ percentDecode cs

/-- A byte that is encoded is decoded. -/
theorem percentDecode_byte {x y : ℕ} {cs : List Char} {c d : Char} (hc : hexValue c = some x)
    (hd : hexValue d = some y) :
    percentDecode ('%' :: c :: d :: cs) = .ofNat (16 * x + y) :: percentDecode cs := by
  rw [percentDecode, hc, hd]

theorem percentDecode_cons {c : Char} {cs : List Char} (h : c ≠ '%') :
    percentDecode (c :: cs) = String.utf8EncodeChar c ++ percentDecode cs := by
  rw [percentDecode]
  rintro _ _ _ rfl
  exact absurd rfl h

/-- A text without percent signs stands for its own bytes. -/
theorem percentDecode_append (h : '%' ∉ a) :
    percentDecode (a ++ b) = a.flatMap String.utf8EncodeChar ++ percentDecode b := by
  induction a with
  | nil => rfl
  | cons c a ih =>
    rw [List.mem_cons, not_or] at h
    rw [List.cons_append, percentDecode_cons (Ne.symm h.1), ih h.2, List.flatMap_cons,
      List.append_assoc]

end QueryStrings
