import LlmMemory.Lib.Offsets
import LlmMemory.Lib.Spans
import LlmMemory.Storage

/-!
# The catalogue scan

The text of a message is scanned for the names of the entities of a catalogue,
those of the shared schema and those of the user's own (`scanTextWithCatalogue`).
The offsets of the occurrences are found in the lowercase form of the text, and
used in the text itself: so texts are scanned only if the two have the same
sizes, character by character (`isLowercaseByteAligned`).

Strings are lists of characters, with offsets in bytes. A function that slices a
string gives `none` where the offset is not at a character boundary; and so does
a loop that does not end within its fuel, which is more than the bytes of the
string. Proved here, about every text and every catalogue:

* `lowercase_congruent`: the lowercase form of an aligned text has its sizes;
* `contains_iff`: a search says whether there is an occurrence between word
  boundaries;
* `lazy_replacer`: a replacement replaces the spans at all the matches, if any of
  them differs from the name;
* `scan_safe`: a scan ends, and slices only at character boundaries.
-/

namespace LlmMemory.Vegapunk

/-- The tables of Unicode: the lowercase mapping of a character, of one to three
    characters, and its properties; and which characters are escaped in the debug
    format of a string, besides quotes, backslashes and the usual controls. -/
structure Unicode where
  toLowercase : Char → List Char
  isAlphanumeric : Char → Bool
  isCased : Char → Bool
  isCaseIgnorable : Char → Bool
  escapedInDebug : Char → Bool
  toLowercase_ne_nil : ∀ c, toLowercase c ≠ []

/-- The tables, on ASCII. -/
def Unicode.ascii : Unicode where
  toLowercase c := [c.toLower]
  isAlphanumeric := Char.isAlphanum
  isCased := Char.isAlpha
  isCaseIgnorable c := c = '\'' || c = '.' || c = ':' || c = '^' || c = '`'
  escapedInDebug c := c.toNat < 0x20 || c.toNat = 0x7F
  toLowercase_ne_nil _ := List.cons_ne_nil _ _

/-! ## Strings -/

/-- The bytes of a string. -/
abbrev len (cs : List Char) : ℕ := Offsets.length Char.utf8Size cs

/-- `str::trim_start`: white space at the start is dropped. -/
def trimStart (cs : List Char) : List Char := cs.dropWhile Search.isWhiteSpace

/-- `str::trim`: white space at both ends is dropped. -/
def trim (cs : List Char) : List Char := (trimStart (trimStart cs).reverse).reverse

section Lowercase

variable (U : Unicode)

/-- The first character that is not case-ignorable is cased, if there is one. A capital
    sigma is final if this holds of what precedes it, in reverse, and does not hold of what
    follows. -/
def caseIgnorableThenCased (cs : List Char) : Bool :=
  match cs.dropWhile U.isCaseIgnorable with
  | [] => false
  | c :: _ => U.isCased c

/-- The lowercase form of a capital sigma, given what precedes it, in reverse, and
    what follows it: it is another one at the end of a word. -/
def mapUppercaseSigma (before after : List Char) : Char :=
  if caseIgnorableThenCased U before && !caseIgnorableThenCased U after then 'ς' else 'σ'

/-- `before` is what precedes, in reverse. -/
def lowercaseAfter (before : List Char) : List Char → List Char
  | [] => []
  | c :: cs => (if c = 'Σ' then [mapUppercaseSigma U before cs] else U.toLowercase c) ++
      lowercaseAfter (c :: before) cs

/-- The lowercase form of a string. -/
def toLowercase (text : List Char) : List Char := lowercaseAfter U [] text

/-- The key of a name, by which entities are compared: trimmed, and in lowercase. -/
def normalizeEntityKey (s : String) : String := String.ofList (toLowercase U (trim s.toList))

/-- Every character has one lowercase character, of the same bytes. -/
def isLowercaseByteAligned (text : List Char) : Bool :=
  text.all fun c => match U.toLowercase c with
    | [lc] => lc.utf8Size == c.utf8Size
    | _ => false

/-- A character of a word, next to which there is no boundary. -/
def isWordChar (c : Char) : Bool := U.isAlphanumeric c || c == '_'

end Lowercase

/-! ## Entities -/

/-- A named entity of a catalogue, with the schema that it is in and the key of its name. -/
structure EntityRef where
  name : String
  nodeType : String
  schema : String
  normalizedKey : String
  deriving DecidableEq, Repr

/-- The entity of a name, with its key. -/
def EntityRef.new (U : Unicode) (name nodeType schema : String) : EntityRef :=
  ⟨name, nodeType, schema, normalizeEntityKey U name⟩

/-- The named entities that are there before an ingestion: those of the shared schema, and
    those of the user. -/
structure DedupCatalogue where
  shared : List EntityRef := []
  personal : List EntityRef := []

/-- What the scan of a text decides: it names a shared entity, and is refused; it names
    entities of the user, and is handed on with their names put in; or it is handed on as it
    is. -/
inductive IngestPreCheck
  | blockedByShared (hit : EntityRef)
  | rewritten (newText : String) (rewrites : List EntityRef)
  | proceed
  deriving DecidableEq, Repr

/-! ## Searching -/

section Scan

variable (U : Unicode)

/-- There is no character of a word: there is none at all, or it is another one. -/
def noWordChar : Option Char → Bool
  | none => true
  | some c => !isWordChar U c

/-- There is no word character next to the offset, before it. -/
def beforeOk (text : List Char) (abs : ℕ) : Option Bool :=
  (Offsets.take Char.utf8Size text abs).map fun l => noWordChar U l.getLast?

/-- What is at the byte `stop` is no character of a word; `none` if `stop` is no boundary of
    a character. -/
def afterOk (text : List Char) (stop : ℕ) : Option Bool :=
  (Offsets.drop Char.utf8Size text stop).map fun r => noWordChar U r.head?

/-- The offset after the character at `abs`. -/
def nextOffset (text : List Char) (abs : ℕ) : Option ℕ :=
  (Offsets.drop Char.utf8Size text abs).map fun r => abs + match r.head? with
    | none => 1
    | some c => c.utf8Size

/-- The loop of the search, from the offset `start`. -/
def containsFrom (textLc needle : List Char) : ℕ → ℕ → Option Bool
  | 0, _ => none
  | fuel + 1, start => do
    match Offsets.find Char.utf8Size needle (← Offsets.drop Char.utf8Size textLc start) with
    | none => some false
    | some rel =>
      let abs := start + rel
      let before ← beforeOk U textLc abs
      let after ← afterOk U textLc (abs + len needle)
      if before && after then some true
      else containsFrom textLc needle fuel (← nextOffset textLc abs)

/-- The needle occurs in the lowercase text between boundaries of words; `none` if a slice
    of the search is off a boundary of a character. -/
def wordBoundaryContainsInLowercased (textLc needle : List Char) : Option Bool :=
  if needle = [] then some false else containsFrom U textLc needle (len textLc + 1) 0

/-- The loop of the replacement: `out` is what was built of the result, if
    anything, of the text up to `cursor`. -/
def replaceFrom (text textLc needle canonical : List Char) :
    ℕ → Option (List Char) → ℕ → ℕ → Option (Option (List Char) × ℕ)
  | 0, _, _, _ => none
  | fuel + 1, out, cursor, searchFrom => do
    match Offsets.find Char.utf8Size needle (← Offsets.drop Char.utf8Size textLc searchFrom) with
    | none => some (out, cursor)
    | some rel =>
      let abs := searchFrom + rel
      let stop := abs + len needle
      let before ← beforeOk U textLc abs
      let after ← afterOk U textLc stop
      if before && after then do
        let span ← Offsets.slice Char.utf8Size text abs stop
        if span ≠ canonical then do
          let copied ← Offsets.slice Char.utf8Size text cursor abs
          replaceFrom text textLc needle canonical fuel
            (some (out.getD [] ++ copied ++ canonical)) stop stop
        else match out with
          | some buf => do
            let copied ← Offsets.slice Char.utf8Size text cursor stop
            replaceFrom text textLc needle canonical fuel (some (buf ++ copied)) stop stop
          -- nothing is copied until the first span that differs from the name
          | none => replaceFrom text textLc needle canonical fuel none cursor stop
      else replaceFrom text textLc needle canonical fuel out cursor (← nextOffset textLc abs)

/-- The text with every occurrence of `needle` replaced by `canonical`, if that
    changes it. -/
def replaceWordCaseInsensitiveWithLc (text textLc needle canonical : List Char) :
    Option (Option (List Char)) :=
  if needle = [] then some none
  else do
    match ← replaceFrom U text textLc needle canonical (len textLc + 1) none 0 0 with
    | (some buf, cursor) => do
      let rest ← Offsets.drop Char.utf8Size text cursor
      some (some (buf ++ rest))
    | (none, _) => some none

/-! ## The scan -/

/-- The first entity that occurs in the text, given its lowercase form. -/
def scanShared (textLc : List Char) : List EntityRef → Option (Option EntityRef)
  | [] => some none
  | ent :: ents => do
    if ← wordBoundaryContainsInLowercased U textLc ent.normalizedKey.toList then some (some ent)
    else scanShared textLc ents

/-- The state of the loop over the entities of the user's schema. -/
structure PersonalScan where
  newText : Option (List Char) := none
  newTextLc : List Char
  rewrites : List EntityRef := []

/-- The text as rewritten so far. -/
def PersonalScan.current (st : PersonalScan) (text : List Char) : List Char := st.newText.getD text

/-- The scan of an entity, and whether the loop goes on. -/
def scanEntity (text : List Char) (st : PersonalScan) (ent : EntityRef) :
    Option (PersonalScan × Bool) := do
  match ← replaceWordCaseInsensitiveWithLc U (st.current text) st.newTextLc
      ent.normalizedKey.toList ent.name.toList with
  | none => some (st, true)
  | some updated =>
    let st := { st with newText := some updated, rewrites := st.rewrites ++ [ent] }
    if isLowercaseByteAligned U updated then
      some ({ st with newTextLc := toLowercase U updated }, true)
    else some (st, false)

/-- The loop over the entities of the user, until one of them leaves the text off its
    lowercase form. -/
def scanPersonal (text : List Char) : List EntityRef → PersonalScan → Option PersonalScan
  | [], st => some st
  | ent :: ents, st => do
    match ← scanEntity U text st ent with
    | (st, true) => scanPersonal text ents st
    | (st, false) => some st

/-- Scan a text: the entities of the shared schema first, of which one that occurs is enough
    to refuse it, and then those of the user, by whose names the text is rewritten. A text
    whose bytes are not those of its lowercase form is not scanned. -/
def scanTextWithCatalogue (catalogue : DedupCatalogue) (text : String) : Option IngestPreCheck :=
  if !isLowercaseByteAligned U text.toList then some .proceed
  else do
    let textLc := toLowercase U text.toList
    match ← scanShared U textLc catalogue.shared with
    | some hit => some (.blockedByShared hit)
    | none => do
      let st ← scanPersonal U text.toList catalogue.personal { newTextLc := textLc }
      match st.newText with
      | some newText =>
        if st.rewrites ≠ [] then some (.rewritten (String.ofList newText) st.rewrites)
        else some .proceed
      | none => some .proceed

/-- The entities that the loop scans, each with the state in which it does. -/
def personalVisits (text : List Char) : List EntityRef → PersonalScan → List (EntityRef × PersonalScan)
  | [], _ => []
  | ent :: ents, st => (ent, st) :: match scanEntity U text st ent with
    | some (st, true) => personalVisits text ents st
    | _ => []

end Scan

/-! ## Alignment -/

section Aligned

variable {U : Unicode} {text : List Char}

/-- Both forms of a lowercase sigma have the size of the capital one. -/
theorem mapUppercaseSigma_size {before after : List Char} :
    (mapUppercaseSigma U before after).utf8Size = 'Σ'.utf8Size := by
  rw [mapUppercaseSigma]
  split <;> rfl

theorem aligned_cons {c : Char} :
    isLowercaseByteAligned U (c :: text) = true ↔
      (∃ lc, U.toLowercase c = [lc] ∧ lc.utf8Size = c.utf8Size) ∧
        isLowercaseByteAligned U text = true := by
  rw [isLowercaseByteAligned, List.all_cons, Bool.and_eq_true]
  refine and_congr_left fun _ => ?_
  match U.toLowercase c with
  | [] => simp
  | [lc] => simp
  | _ :: _ :: _ => simp

/-- The lowercase of an aligned text has its boundaries at the same bytes. -/
theorem lowercaseAfter_congruent {before : List Char} (h : isLowercaseByteAligned U text = true) :
    Offsets.Congruent Char.utf8Size (lowercaseAfter U before text) text := by
  induction text generalizing before with
  | nil => rfl
  | cons c text ih =>
    obtain ⟨⟨lc, hlc, hsize⟩, htext⟩ := aligned_cons.1 h
    rw [Offsets.Congruent, lowercaseAfter, List.map_append, List.map_cons, ih htext]
    -- the rule of the final sigma picks another character, of the same bytes
    split
    · rename_i hc
      simp [mapUppercaseSigma_size, hc]
    · simp [hlc, hsize]

/-- The lowercase form of an aligned text has its sizes, character by character. -/
theorem lowercase_congruent (h : isLowercaseByteAligned U text = true) :
    Offsets.Congruent Char.utf8Size (toLowercase U text) text :=
  lowercaseAfter_congruent h

end Aligned

/-! ## Occurrences -/

section Occurrences

variable {U : Unicode} {textLc needle : List Char}

/-- There is no word character next to what is between the two strings. -/
def wordBounded (U : Unicode) (l r : List Char) : Bool :=
  noWordChar U l.getLast? && noWordChar U r.head?

/-- `needle` occurs in the string, between word boundaries. -/
def OccursInWords (U : Unicode) (textLc needle : List Char) : Prop :=
  ∃ l r, textLc = l ++ needle ++ r ∧ wordBounded U l r = true

/-- An occurrence between boundaries of words is one at a position that the spans know. -/
theorem occursInWords_iff : OccursInWords U textLc needle ↔
    ∃ i, Spans.OccursAt (wordBounded U) needle textLc i := by
  constructor
  · rintro ⟨l, r, htext, hb⟩
    exact ⟨l.length, Spans.occursAt_iff.2 ⟨l, r, htext, rfl, hb⟩⟩
  · rintro ⟨i, h⟩
    obtain ⟨l, r, htext, -, hb⟩ := Spans.occursAt_iff.1 h
    exact ⟨l, r, htext, hb⟩

/-- Before a boundary of a character, it is the last character before it that matters. -/
theorem beforeOk_take (i : ℕ) :
    beforeOk U textLc (len (textLc.take i)) = some (noWordChar U (textLc.take i).getLast?) := by
  rw [beforeOk, Offsets.take_length_take Char.utf8Size_pos]
  rfl

/-- After one, it is the first character after it. -/
theorem afterOk_take (i : ℕ) :
    afterOk U textLc (len (textLc.take i)) = some (noWordChar U (textLc.drop i).head?) := by
  rw [afterOk, Offsets.drop_length_take Char.utf8Size_pos]
  rfl

/-- The next boundary of a character is that of the next character. -/
theorem nextOffset_take {i : ℕ} (hi : i < textLc.length) :
    nextOffset textLc (len (textLc.take i)) = some (len (textLc.take (i + 1))) := by
  have hlen : len (textLc.take i ++ [textLc[i]]) = len (textLc.take i) + textLc[i].utf8Size :=
    Offsets.length_append
  rw [nextOffset, Offsets.drop_length_take Char.utf8Size_pos, Option.map_some,
    List.drop_eq_getElem_cons hi, ← List.take_concat_get' textLc i hi, hlen]
  rfl

/-- A text has no more characters than bytes. -/
theorem length_le_len (cs : List Char) : cs.length ≤ len cs := by
  induction cs with
  | nil => exact le_rfl
  | cons c cs ih =>
    have hpos := c.utf8Size_pos
    have hlen : len (c :: cs) = c.utf8Size + len cs := Offsets.length_cons
    rw [List.length_cons]
    omega

/-- The matches from the position `s` on. -/
abbrev wordMatches (U : Unicode) (needle textLc : List Char) (s : ℕ) : List ℕ :=
  Spans.matchesFrom (wordBounded U) needle textLc s

/-- A candidate, the first one from the position `s` on, at the position `j`: it is a
    match, or the search goes on after its first character. -/
structure Candidate (U : Unicode) (textLc needle : List Char) (s rel j : ℕ) : Prop where
  start : s ≤ j
  stop : j + needle.length ≤ textLc.length
  offset : len (textLc.take s) + rel = len (textLc.take j)
  offset_stop : len (textLc.take j) + len needle = len (textLc.take (j + needle.length))
  match_next : wordBounded U (textLc.take j) (textLc.drop (j + needle.length)) = true →
    wordMatches U needle textLc s = j :: wordMatches U needle textLc (j + needle.length)
  match_skip : wordBounded U (textLc.take j) (textLc.drop (j + needle.length)) ≠ true →
    wordMatches U needle textLc s = wordMatches U needle textLc (j + 1)

/-- What the search finds from a position on is the first candidate. -/
theorem find_candidate (hn : needle ≠ []) {s rel : ℕ} (hs : s ≤ textLc.length)
    (h : Offsets.find Char.utf8Size needle (textLc.drop s) = some rel) :
    ∃ j, Candidate U textLc needle s rel j := by
  obtain ⟨i, hi, hrel, hprefix, hfirst⟩ := Offsets.find_some h
  rw [List.length_drop] at hi
  rw [List.drop_drop] at hprefix
  have hspan : Spans.span needle.length textLc (s + i) = needle :=
    (List.prefix_iff_eq_take.1 hprefix).symm
  have hfirst' : ∀ k, Spans.OccursAt (wordBounded U) needle textLc k → s ≤ k → s + i ≤ k := by
    intro k hk hsk
    refine Nat.le_of_not_lt fun hlt => hfirst (k - s) (by omega) ?_
    rw [List.drop_drop, Nat.add_sub_cancel' hsk]
    exact List.prefix_iff_eq_take.2 hk.2.1.symm
  have hstop := hprefix.length_le
  rw [List.length_drop] at hstop
  refine ⟨s + i, by omega, by omega, ?_, ?_, fun hb => ?_, fun hb => ?_⟩
  · rw [← hrel, List.take_add]
    exact Offsets.length_append.symm
  · conv_rhs => rw [Spans.take_add_span, hspan]
    exact Offsets.length_append.symm
  · exact Spans.matchesFrom_cons hn ⟨by omega, hspan, hb⟩ (by omega) hfirst'
  · refine Spans.matchesFrom_skip (by omega) fun k hk hsk => ?_
    refine Nat.lt_of_le_of_ne (hfirst' k hk hsk) fun hik => hb ?_
    rw [hik]
    exact hk.2.2

/-- Where the needle is not found, nothing is matched. -/
theorem find_nothing {s : ℕ} (h : Offsets.find Char.utf8Size needle (textLc.drop s) = none) :
    wordMatches U needle textLc s = [] := by
  refine Spans.matchesFrom_nil fun i hi hsi => Offsets.find_none h (i - s) ?_
  rw [List.drop_drop, Nat.add_sub_cancel' hsi]
  exact List.prefix_iff_eq_take.2 hi.2.1.symm

/-- The search from a position says whether there is a match. -/
theorem containsFrom_eq (hn : needle ≠ []) {fuel s : ℕ} (hs : s ≤ textLc.length)
    (hfuel : textLc.length - s < fuel) :
    containsFrom U textLc needle fuel (len (textLc.take s)) =
      some (decide (wordMatches U needle textLc s ≠ [])) := by
  induction fuel generalizing s with
  | zero => exact absurd hfuel (Nat.not_lt_zero _)
  | succ fuel ih =>
    have hpos := List.length_pos_iff.2 hn
    rw [containsFrom, Offsets.drop_length_take Char.utf8Size_pos]
    cases hfind : Offsets.find Char.utf8Size needle (textLc.drop s) with
    | none => simp [hfind, find_nothing hfind]
    | some rel =>
      obtain ⟨j, hj⟩ : ∃ j, Candidate U textLc needle s rel j := find_candidate hn hs hfind
      have hstart := hj.start
      have hstop := hj.stop
      simp only [Option.bind_eq_bind, Option.bind_some, hfind, hj.offset, hj.offset_stop,
        beforeOk_take, afterOk_take]
      by_cases hb : (noWordChar U (textLc.take j).getLast? &&
          noWordChar U (textLc.drop (j + needle.length)).head?) = true
      · rw [if_pos hb, hj.match_next hb]
        simp
      · rw [if_neg hb, hj.match_skip hb, nextOffset_take (by omega), Option.bind_some]
        exact ih (by omega) (by omega)

/-- The search says whether there is a match. -/
theorem contains_eq (textLc needle : List Char) :
    wordBoundaryContainsInLowercased U textLc needle =
      some (decide (needle ≠ [] ∧ wordMatches U needle textLc 0 ≠ [])) := by
  rw [wordBoundaryContainsInLowercased]
  by_cases hn : needle = []
  · simp [hn]
  · have hfuel := length_le_len textLc
    have hres := containsFrom_eq (U := U) hn (Nat.zero_le textLc.length)
      (show textLc.length - 0 < len textLc + 1 by omega)
    rw [if_neg hn]
    simpa [hn] using hres

/-- The search ends, and says whether there is an occurrence. -/
theorem contains_iff (textLc needle : List Char) :
    ∃ b, wordBoundaryContainsInLowercased U textLc needle = some b ∧
      (b = true ↔ needle ≠ [] ∧ OccursInWords U textLc needle) := by
  refine ⟨_, contains_eq textLc needle, ?_⟩
  rw [decide_eq_true_iff, Spans.matches_ne_nil_iff, occursInWords_iff]

end Occurrences

/-! ## Replacement -/

section Replacement

variable {U : Unicode} {text textLc needle canonical : List Char}

variable (canonical) in
/-- The loop copies the text with the spans at the matches replaced, from the first
    one on that differs from the name. -/
theorem replaceFrom_eq (h : Offsets.Congruent Char.utf8Size textLc text) (hn : needle ≠ [])
    {fuel k s : ℕ} (out : Option (List Char)) (hk : k ≤ s) (hs : s ≤ textLc.length)
    (hfuel : textLc.length - s < fuel) :
    ∃ out' k', replaceFrom U text textLc needle canonical fuel out (len (textLc.take k))
        (len (textLc.take s)) = some (out', len (textLc.take k')) ∧
      (out' = none ↔ out = none ∧ ∀ i ∈ wordMatches U needle textLc s,
        Spans.span needle.length text i = canonical) ∧
      out'.getD [] ++ text.drop k' = out.getD [] ++
        Spans.splice needle.length (fun _ => canonical) text k (wordMatches U needle textLc s) := by
  induction fuel generalizing k s out with
  | zero => exact absurd hfuel (Nat.not_lt_zero _)
  | succ fuel ih =>
    have hpos := List.length_pos_iff.2 hn
    have hlength : textLc.length = text.length := by
      simpa using congrArg List.length h
    have hslice : ∀ {i j : ℕ}, i ≤ j → Offsets.slice Char.utf8Size text (len (textLc.take i))
        (len (textLc.take j)) = some ((text.take j).drop i) := by
      intro i j hij
      rw [len, len, h.length_take, h.length_take, Offsets.slice_length_take Char.utf8Size_pos hij]
    rw [replaceFrom, Offsets.drop_length_take Char.utf8Size_pos]
    cases hfind : Offsets.find Char.utf8Size needle (textLc.drop s) with
    | none => exact ⟨out, k, by simp [hfind], by simp [find_nothing hfind, Spans.splice]⟩
    | some rel =>
      obtain ⟨j, hj⟩ : ∃ j, Candidate U textLc needle s rel j := find_candidate hn hs hfind
      have hstart := hj.start
      have hstop := hj.stop
      have hspan : (text.take (j + needle.length)).drop j = Spans.span needle.length text j := by
        rw [Spans.span, List.drop_take, Nat.add_sub_cancel_left]
      simp only [Option.bind_eq_bind, Option.bind_some, hfind, hj.offset, hj.offset_stop,
        beforeOk_take, afterOk_take]
      by_cases hb : (noWordChar U (textLc.take j).getLast? &&
          noWordChar U (textLc.drop (j + needle.length)).head?) = true
      · rw [if_pos hb, hj.match_next hb, hslice (Nat.le_add_right _ _), Option.bind_some, hspan]
        by_cases hsame : Spans.span needle.length text j = canonical
        · rw [if_neg (not_not.2 hsame)]
          cases out with
          | none =>
            -- the span is copied later, with what is before it
            obtain ⟨out', k', hres, hnone, heq⟩ := ih (k := k) (s := j + needle.length)
              none (by omega) hstop (by omega)
            refine ⟨out', k', hres, by simp [hnone, hsame], ?_⟩
            rw [heq, Spans.splice_same (by omega) (by omega) hsame]
            exact hlength ▸ Spans.matches_spaced
          | some buf =>
            obtain ⟨out', k', hres, hnone, heq⟩ := ih (k := j + needle.length)
              (s := j + needle.length) (some (buf ++ (text.take (j + needle.length)).drop k))
              le_rfl hstop (by omega)
            refine ⟨out', k', ?_, by simpa using hnone, ?_⟩
            · simpa [hslice (show k ≤ j + needle.length by omega)] using hres
            · rw [heq, Spans.splice, ← hsame,
                Spans.copied_span (show k ≤ j by omega) (by omega), hsame]
              simp
        · obtain ⟨out', k', hres, hnone, heq⟩ := ih (k := j + needle.length)
            (s := j + needle.length) (some (out.getD [] ++ (text.take j).drop k ++ canonical))
            le_rfl hstop (by omega)
          refine ⟨out', k', ?_, by simp [hnone, hsame], ?_⟩
          · rw [if_pos hsame, hslice (show k ≤ j by omega), Option.bind_some, hres]
          · rw [heq, Spans.splice]
            simp
      · rw [if_neg hb, hj.match_skip hb, nextOffset_take (by omega), Option.bind_some]
        exact ih out (by omega) (by omega) (by omega)

/-- The replacement is the text with the spans at all the matches replaced, if one of
    them differs from the name. -/
theorem replace_eq (h : Offsets.Congruent Char.utf8Size textLc text) :
    replaceWordCaseInsensitiveWithLc U text textLc needle canonical =
      some (if needle = [] ∨ ∀ i ∈ wordMatches U needle textLc 0,
          Spans.span needle.length text i = canonical then none
        else some (Spans.splice needle.length (fun _ => canonical) text 0
          (wordMatches U needle textLc 0))) := by
  rw [replaceWordCaseInsensitiveWithLc]
  by_cases hn : needle = []
  · rw [if_pos hn, if_pos (.inl hn)]
  · have hfuel := length_le_len textLc
    obtain ⟨out, k, hres, hnone, heq⟩ := replaceFrom_eq (U := U) canonical h hn
      none (le_refl 0) (Nat.zero_le textLc.length)
      (show textLc.length - 0 < len textLc + 1 by omega)
    have hrest : Offsets.drop Char.utf8Size text (len (textLc.take k)) = some (text.drop k) := by
      rw [len, h.length_take, Offsets.drop_length_take Char.utf8Size_pos]
    rw [if_neg hn]
    simp only [List.take_zero, len, Offsets.length_nil] at hres hrest
    rw [Option.bind_eq_bind, hres, Option.bind_some]
    cases out with
    | none => rw [if_pos (.inr (hnone.1 rfl).2)]
    | some buf =>
      have hdiffers : ¬(needle = [] ∨ ∀ i ∈ wordMatches U needle textLc 0,
          Spans.span needle.length text i = canonical) := by
        rintro (hnil | hall)
        · exact hn hnil
        · cases hnone.2 ⟨rfl, hall⟩
      rw [if_neg hdiffers]
      simpa [hrest] using heq

/-- The lazy replacer does what a plain one does: it replaces the spans at all the
    matches, if the word is not empty and one of them differs from the name. -/
structure LazyReplacer (U : Unicode) (text needle canonical : List Char) : Prop where
  unchanged : needle = [] ∨ (∀ i ∈ wordMatches U needle (toLowercase U text) 0,
      Spans.span needle.length text i = canonical) →
    replaceWordCaseInsensitiveWithLc U text (toLowercase U text) needle canonical = some none
  replaced : ¬(needle = [] ∨ ∀ i ∈ wordMatches U needle (toLowercase U text) 0,
      Spans.span needle.length text i = canonical) →
    replaceWordCaseInsensitiveWithLc U text (toLowercase U text) needle canonical =
      some (some (Spans.splice needle.length (fun _ => canonical) text 0
        (wordMatches U needle (toLowercase U text) 0)))
  contains : wordBoundaryContainsInLowercased U (toLowercase U text) needle =
    some (decide (needle ≠ [] ∧ wordMatches U needle (toLowercase U text) 0 ≠ []))
  occurs : wordMatches U needle (toLowercase U text) 0 ≠ [] ↔
    ∃ i, Spans.OccursAt (wordBounded U) needle (toLowercase U text) i

/-- The lazy replacer does what a plain one does. -/
theorem lazy_replacer (U : Unicode) (text needle canonical : List Char)
    (h : isLowercaseByteAligned U text = true) : LazyReplacer U text needle canonical where
  unchanged hsame := by rw [replace_eq (lowercase_congruent h), if_pos hsame]
  replaced hdiffers := by rw [replace_eq (lowercase_congruent h), if_neg hdiffers]
  contains := contains_eq _ _
  occurs := Spans.matches_ne_nil_iff

theorem lazy_replacer_twice :
    LazyReplacer .ascii "VEGA and Vega".toList "vega".toList "Vega".toList :=
  lazy_replacer _ _ _ _ (by decide)

example : replaceWordCaseInsensitiveWithLc .ascii "VEGA and Vega".toList "vega and vega".toList
    "vega".toList "Vega".toList = some (some "Vega and Vega".toList) := by decide

/-- The empty word occurs in the empty text, where it is not found. -/
theorem empty_word_not_found : ¬∀ (U : Unicode) (text needle : List Char),
    isLowercaseByteAligned U text = true →
      (wordBoundaryContainsInLowercased U (toLowercase U text) needle = some true ↔
        ∃ i, Spans.OccursAt (wordBounded U) needle (toLowercase U text) i) := by
  intro hall
  have hfound := (hall .ascii [] [] rfl).2 ⟨0, by decide⟩
  exact absurd hfound (by decide)

end Replacement

/-! ## Scans -/

section Safety

variable {U : Unicode} {text : List Char} {ents : List EntityRef} {ent : EntityRef}
  {st : PersonalScan}

/-- The loop over the shared entities ends, and stops at the first that occurs. -/
theorem scanShared_eq (textLc : List Char) (ents : List EntityRef) :
    ∃ hit, scanShared U textLc ents = some hit ∧ (hit = none →
      ∀ ent ∈ ents, ent.normalizedKey.toList ≠ [] →
        ¬OccursInWords U textLc ent.normalizedKey.toList) := by
  induction ents with
  | nil => exact ⟨none, rfl, fun _ _ h => absurd h List.not_mem_nil⟩
  | cons ent ents ih =>
    obtain ⟨b, hb, hiff⟩ := contains_iff (U := U) textLc ent.normalizedKey.toList
    obtain ⟨hit, hres, hnone⟩ := ih
    rw [scanShared, hb]
    cases b with
    | true => exact ⟨some ent, rfl, fun h => by cases h⟩
    | false =>
      refine ⟨hit, hres, fun h ent' hmem hn hocc => ?_⟩
      rcases List.mem_cons.1 hmem with rfl | hmem
      · exact absurd (hiff.2 ⟨hn, hocc⟩) Bool.false_ne_true
      · exact hnone h ent' hmem hn hocc

/-- The text as rewritten so far is aligned, and its lowercase form is at hand. -/
def PersonalScan.Aligned (U : Unicode) (text : List Char) (st : PersonalScan) : Prop :=
  isLowercaseByteAligned U (st.current text) = true ∧
    st.newTextLc = toLowercase U (st.current text)

/-- The scan of an entity, in an aligned state; it is aligned again if the loop
    goes on. -/
theorem scanEntity_eq (h : st.Aligned U text) (ent : EntityRef) :
    ∃ st' go, scanEntity U text st ent = some (st', go) ∧ (go = true → st'.Aligned U text) := by
  have hcongruent : Offsets.Congruent Char.utf8Size st.newTextLc (st.current text) :=
    h.2 ▸ lowercase_congruent h.1
  obtain ⟨updated, hres⟩ : ∃ updated, replaceWordCaseInsensitiveWithLc U (st.current text)
      st.newTextLc ent.normalizedKey.toList ent.name.toList = some updated :=
    ⟨_, replace_eq hcongruent⟩
  rw [scanEntity, hres]
  cases updated with
  | none => exact ⟨st, true, rfl, fun _ => h⟩
  | some updated =>
    by_cases haligned : isLowercaseByteAligned U updated = true
    · exact ⟨_, true, if_pos haligned, fun _ => ⟨haligned, rfl⟩⟩
    · exact ⟨_, false, if_neg haligned, fun h => by cases h⟩

/-- The loop over the entities of the user slices at boundaries only. -/
theorem scanPersonal_isSome (h : st.Aligned U text) : (scanPersonal U text ents st).isSome := by
  induction ents generalizing st with
  | nil => rfl
  | cons ent ents ih =>
    obtain ⟨st', go, hres, hgo⟩ := scanEntity_eq h ent
    rw [scanPersonal, hres]
    cases go with
    | true => exact ih (hgo rfl)
    | false => rfl

/-- Every entity is scanned in an aligned state. -/
theorem visits_aligned (h : st.Aligned U text) {st' : PersonalScan}
    (hvisit : (ent, st') ∈ personalVisits U text ents st) : st'.Aligned U text := by
  induction ents generalizing st with
  | nil => cases hvisit
  | cons ent₁ ents ih =>
    obtain ⟨st₁, go, hres, hgo⟩ := scanEntity_eq h ent₁
    rw [personalVisits, hres] at hvisit
    rcases List.mem_cons.1 hvisit with heq | hvisit
    · cases heq
      exact h
    · cases go with
      | true => exact ih (hgo rfl) hvisit
      | false => cases hvisit

/-- The loop starts with a text that is aligned with its lowercase form. -/
theorem start_aligned (h : isLowercaseByteAligned U text = true) :
    PersonalScan.Aligned U text { newTextLc := toLowercase U text } :=
  ⟨h, rfl⟩

/-- The scan of a text is safe: it ends without slicing inside a character. The
    lowercase form of an aligned text has the length and the boundaries of the
    text, and every entity of the user's schema is scanned in an aligned text, by
    its lowercase form. -/
structure SafeScan (U : Unicode) (catalogue : DedupCatalogue) (text : String) : Prop where
  ends : (scanTextWithCatalogue U catalogue text).isSome
  sameLength : isLowercaseByteAligned U text.toList = true →
    len (toLowercase U text.toList) = len text.toList
  sameBoundaries : isLowercaseByteAligned U text.toList = true → ∀ n,
    Offsets.Boundary Char.utf8Size (toLowercase U text.toList) n ↔
      Offsets.Boundary Char.utf8Size text.toList n
  visits : isLowercaseByteAligned U text.toList = true → ∀ ent st,
    (ent, st) ∈ personalVisits U text.toList catalogue.personal
      { newTextLc := toLowercase U text.toList } → st.Aligned U text.toList

/-- Whatever the text and the catalogue, the scan slices at boundaries only. -/
theorem scan_isSome (U : Unicode) (catalogue : DedupCatalogue) (text : String) :
    (scanTextWithCatalogue U catalogue text).isSome := by
  rw [scanTextWithCatalogue]
  split
  · rfl
  · rename_i haligned
    rw [Bool.not_eq_true', Bool.not_eq_false] at haligned
    obtain ⟨hit, hres, -⟩ := scanShared_eq (U := U) (toLowercase U text.toList) catalogue.shared
    cases hit with
    | some hit => simp [hres]
    | none =>
      obtain ⟨st, hst⟩ : ∃ st, scanPersonal U text.toList catalogue.personal
          { newTextLc := toLowercase U text.toList } = some st :=
        Option.isSome_iff_exists.1 (scanPersonal_isSome (start_aligned haligned))
      simp only [Option.bind_eq_bind, hres, hst, Option.bind_some]
      split
      · split <;> rfl
      · rfl

/-- The scan never slices inside a character, and always ends. -/
theorem scan_safe (U : Unicode) (catalogue : DedupCatalogue) (text : String) :
    SafeScan U catalogue text where
  ends := scan_isSome U catalogue text
  sameLength h := (lowercase_congruent h).length_eq
  sameBoundaries h _ := (lowercase_congruent h).boundary
  visits h _ _ hvisit := visits_aligned (start_aligned h) hvisit

end Safety

end LlmMemory.Vegapunk
