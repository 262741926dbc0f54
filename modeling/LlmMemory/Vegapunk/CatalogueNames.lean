import Mathlib.Data.List.DropRight
import Mathlib.Data.String.Basic
import LlmMemory.Lib.Sections
import LlmMemory.Vegapunk.Canonicalize
import LlmMemory.Vegapunk.Rewriting

/-!
# The names in a prompt

The names of the catalogue are made safe for a prompt before they are listed in
it, one a line (`sanitizeCatalogueNamesForPrompt`): whatever the names are, there
is exactly one line for each that is left (`sanitized_names`).
-/

namespace LlmMemory.Vegapunk

/-- A line break, or another control. -/
def LineLike (c : Char) : Prop := isControl c = true ∨ c.toNat = 0x2028 ∨ c.toNat = 0x2029

/-- The section of a prompt that lists the entities. -/
def entitySection (prompt : String) : Option (List Char) :=
  (Sections.after "Canonical entities:\n".toList prompt.toList).map
    (Sections.upTo "\n\nText:".toList)

variable {c : Char} {cs buf : List Char} {raw : String} {names : List String}

/-! ## Characters -/

/-- A character sanitized breaks no line. -/
theorem sanitizeChar_not_lineLike : ¬LineLike (sanitizeChar c) := by
  unfold sanitizeChar
  split
  · simp [LineLike, isControl]
  · rename_i h
    simpa [LineLike, or_assoc] using h

theorem sanitizeChar_eq (h : ¬LineLike c) : sanitizeChar c = c := by
  unfold sanitizeChar
  rw [if_neg]
  simpa [LineLike, or_assoc] using h

/-! ## Trimming -/

/-- A text is trimmed at both ends. -/
theorem trim_eq (cs : List Char) :
    trim cs = (cs.dropWhile Search.isWhiteSpace).rdropWhile Search.isWhiteSpace := rfl

theorem trim_trim (cs : List Char) : trim (trim cs) = trim cs := by
  have hstart : (trim cs).dropWhile Search.isWhiteSpace = trim cs := by
    cases htrim : trim cs with
    | nil => rfl
    | cons c ds =>
      -- it begins as the text does after its white space
      obtain ⟨r, hr⟩ := List.rdropWhile_prefix Search.isWhiteSpace
        (cs.dropWhile Search.isWhiteSpace)
      rw [← trim_eq, htrim, List.cons_append] at hr
      have hfirst := List.dropWhile_idempotent Search.isWhiteSpace cs
      rw [← hr] at hfirst
      by_cases hc : Search.isWhiteSpace c = true
      · rw [List.dropWhile_cons_of_pos hc] at hfirst
        have hle := (List.dropWhile_suffix Search.isWhiteSpace (l := ds ++ r)).length_le
        rw [hfirst, List.length_cons] at hle
        omega
      · exact List.dropWhile_cons_of_neg hc
  rw [trim_eq, hstart, trim_eq, List.rdropWhile_idempotent]

theorem mem_of_trim (h : c ∈ trim cs) : c ∈ cs := by
  obtain ⟨l, r, hsplit, -⟩ := trim_split cs
  rw [hsplit]
  exact List.mem_append_left _ (List.mem_append_right _ h)

theorem len_trim_le (cs : List Char) : len (trim cs) ≤ len cs := by
  obtain ⟨l, r, hsplit, -⟩ := trim_split cs
  have hlen := congrArg len hsplit
  simp only [len, Offsets.length_append] at hlen
  unfold len
  omega

/-! ## Truncation -/

/-- The characters are sanitized as far as they fit, and no further. -/
theorem sanitizeChars_eq (buf cs : List Char) (hbuf : len buf ≤ MAX_CATALOGUE_NAME_BYTES) : ∃ k,
    sanitizeChars buf cs = buf ++ (cs.map sanitizeChar).take k ∧
    len (buf ++ (cs.map sanitizeChar).take k) ≤ MAX_CATALOGUE_NAME_BYTES ∧
    (k < cs.length →
      MAX_CATALOGUE_NAME_BYTES < len (buf ++ (cs.map sanitizeChar).take (k + 1))) := by
  induction cs generalizing buf with
  | nil => exact ⟨0, by simp [sanitizeChars], by simpa using hbuf, by simp⟩
  | cons c cs ih =>
    rw [sanitizeChars]
    split
    · rename_i hover
      refine ⟨0, by simp, by simpa using hbuf, fun _ => ?_⟩
      simpa [len] using hover
    · rename_i hfits
      have hbuf' : len (buf ++ [sanitizeChar c]) ≤ MAX_CATALOGUE_NAME_BYTES := by
        simpa [len] using hfits
      obtain ⟨k, htake, hle, hmore⟩ := ih (buf ++ [sanitizeChar c]) hbuf'
      have hcons : ∀ n, buf ++ ((c :: cs).map sanitizeChar).take (n + 1) =
          buf ++ [sanitizeChar c] ++ (cs.map sanitizeChar).take n := by simp
      refine ⟨k + 1, by rw [htake, hcons], by rwa [hcons], fun hk => ?_⟩
      rw [hcons]
      exact hmore (Nat.lt_of_succ_lt_succ hk)

/-- A name that fits is sanitized as a whole. -/
theorem sanitizeChars_of_fits (h : len (buf ++ cs.map sanitizeChar) ≤ MAX_CATALOGUE_NAME_BYTES) :
    sanitizeChars buf cs = buf ++ cs.map sanitizeChar := by
  induction cs generalizing buf with
  | nil => simp [sanitizeChars]
  | cons c cs ih =>
    have hcons : buf ++ (c :: cs).map sanitizeChar =
        buf ++ [sanitizeChar c] ++ cs.map sanitizeChar := by simp
    rw [hcons] at h ⊢
    rw [sanitizeChars, if_neg, ih h]
    simp only [len, Offsets.length_append, Offsets.length_cons, Offsets.length_nil] at h ⊢
    omega

/-! ## Names -/

/-- The bytes of a list of characters. -/
theorem utf8ByteSize_ofList (cs : List Char) : (String.ofList cs).utf8ByteSize = len cs := by
  rw [String.utf8ByteSize_ofList]
  induction cs with
  | nil => rfl
  | cons c cs ih => rw [String.utf8Len_cons, ih, len, len, Offsets.length_cons, Nat.add_comm]

theorem utf8ByteSize_eq (s : String) : s.utf8ByteSize = len s.toList := by
  conv_lhs => rw [← @String.ofList_toList s, utf8ByteSize_ofList]

/-- A name that is sanitized is a part of the name, with spaces for what breaks lines, that
    is as long as it may be, and trimmed. -/
theorem sanitizeCatalogueName_eq (raw : String) : ∃ k,
    sanitizeCatalogueName raw = trimmed (String.ofList ((raw.toList.map sanitizeChar).take k)) ∧
    len ((raw.toList.map sanitizeChar).take k) ≤ MAX_CATALOGUE_NAME_BYTES ∧
    (k < raw.toList.length →
      MAX_CATALOGUE_NAME_BYTES < len ((raw.toList.map sanitizeChar).take (k + 1))) := by
  obtain ⟨k, htake, hle, hmore⟩ := sanitizeChars_eq [] raw.toList (by simp)
  refine ⟨k, ?_, hle, hmore⟩
  rw [sanitizeCatalogueName, htake, trimmed, String.toList_ofList, List.nil_append]

/-- A sanitized name is short enough. -/
theorem len_sanitized_le (raw : String) :
    len (sanitizeCatalogueName raw).toList ≤ MAX_CATALOGUE_NAME_BYTES := by
  obtain ⟨k, hname, hle, -⟩ := sanitizeCatalogueName_eq raw
  rw [hname, trimmed, String.toList_ofList, String.toList_ofList]
  exact (len_trim_le _).trans hle

/-- A sanitized name is on one line. -/
theorem sanitized_not_lineLike (hc : c ∈ (sanitizeCatalogueName raw).toList) : ¬LineLike c := by
  obtain ⟨k, hname, -, -⟩ := sanitizeCatalogueName_eq raw
  rw [hname, trimmed, String.toList_ofList, String.toList_ofList] at hc
  obtain ⟨d, -, rfl⟩ := List.mem_map.1 (List.mem_of_mem_take (mem_of_trim hc))
  exact sanitizeChar_not_lineLike

theorem trimmed_sanitized (raw : String) :
    trimmed (sanitizeCatalogueName raw) = sanitizeCatalogueName raw := by
  rw [sanitizeCatalogueName, trimmed, String.toList_ofList, trim_trim]

/-- A name that is sanitized is so already. -/
theorem sanitizeCatalogueName_idem (raw : String) :
    sanitizeCatalogueName (sanitizeCatalogueName raw) = sanitizeCatalogueName raw := by
  have hsame : (sanitizeCatalogueName raw).toList.map sanitizeChar =
      (sanitizeCatalogueName raw).toList := by
    rw [List.map_congr_left fun c hc => sanitizeChar_eq (sanitized_not_lineLike hc), List.map_id']
  have hfits : sanitizeChars [] (sanitizeCatalogueName raw).toList =
      (sanitizeCatalogueName raw).toList := by
    rw [sanitizeChars_of_fits, List.nil_append, hsame]
    rw [List.nil_append, hsame]
    exact len_sanitized_le raw
  conv_lhs => rw [sanitizeCatalogueName, hfits]
  exact trimmed_sanitized raw

/-! ## The section of the entities -/

/-- A character is not in a literal. -/
theorem not_mem_literal {s : String} (hs : s = String.ofList cs) (hc : c ∉ cs) :
    c ∉ s.toList := by
  rwa [hs, String.toList_ofList]

/-- The front of the prompt is the same for all names and texts. -/
theorem buildPrompt_front : ∃ front : String, 'C' ∉ front.toList ∧
    ∀ names text, buildPrompt names text = front ++ "Canonical entities:
" ++
      "
".intercalate (names.map fun n => "- " ++ n) ++ "

Text:
" ++ text ++
        "

Rewritten text:" := by
  refine ⟨_, ?_, fun _ _ => rfl⟩
  simp only [String.toList_append, List.mem_append, not_or]
  and_intros
  all_goals exact not_mem_literal rfl (by decide)

/-- The lines of the section are one for each name, if the names have no line breaks. -/
theorem entitySection_buildPrompt (text : String) (hnames : ∀ n ∈ names, '\n' ∉ n.toList) :
    entitySection (buildPrompt names text) =
      some (['\n'].intercalate (names.map fun n => ("- " ++ n).toList)) := by
  obtain ⟨front, hfront, hprompt⟩ := buildPrompt_front
  have hmarker : "Canonical entities:\n".toList = 'C' :: "anonical entities:\n".toList := rfl
  have hend : "\n\nText:".toList = '\n' :: '\n' :: "Text:".toList := rfl
  have hrest : "\n\nText:\n".toList = "\n\nText:".toList ++ ['\n'] := rfl
  have hmap : (names.map fun n => "- " ++ n).map String.toList =
      names.map fun n => ("- " ++ n).toList := List.map_map
  have hlines : ∀ l ∈ names.map (fun n => "- ".toList ++ n.toList), '\n' ∉ l ∧ l ≠ [] := by
    intro l hl
    obtain ⟨n, hn, rfl⟩ := List.mem_map.1 hl
    simp [hnames n hn]
  have hupTo := fun rest => Sections.upTo_intercalate "Text:".toList rest
    (fun l hl => (hlines l hl).1) fun l hl => (hlines l hl).2
  rw [entitySection, hprompt]
  simp only [String.toList_append, String.toList_intercalate, List.append_assoc, hmap] at hupTo ⊢
  rw [hmarker, Sections.after_of_not_mem hfront, ← hmarker,
    Sections.after_self (by rw [hmarker]; exact List.cons_ne_nil _ _), Option.map_some, hrest,
    hend, List.append_assoc, show "\n".toList = ['\n'] from rfl, hupTo]

/-- Whatever the names of the catalogue:

    * those that are left for a prompt are not empty, trimmed, have at most
      `MAX_CATALOGUE_NAME_BYTES` bytes, and no line breaks or other controls;
    * a name that is sanitized stays the same if it is again; it is a part of the
      name, from its start to between two characters, with spaces for line
      breaks and other controls, and trimmed; more of the name would not fit;
    * at most `MAX_CATALOGUE_ENTRIES` are left, in their order;
    * the section of the prompt that lists them has one line for each. -/
theorem sanitized_names (names : List String) (text : String) :
    (∀ n ∈ sanitizeCatalogueNamesForPrompt names, n ≠ "" ∧ trimmed n = n ∧
      n.utf8ByteSize ≤ MAX_CATALOGUE_NAME_BYTES ∧ n.toByteArray.IsValidUTF8 ∧
      ∀ c ∈ n.toList, ¬LineLike c) ∧
    (∀ raw, sanitizeCatalogueName (sanitizeCatalogueName raw) = sanitizeCatalogueName raw ∧
      ∃ k, sanitizeCatalogueName raw =
          trimmed (String.ofList ((raw.toList.map sanitizeChar).take k)) ∧
        (String.ofList ((raw.toList.map sanitizeChar).take k)).utf8ByteSize ≤
          MAX_CATALOGUE_NAME_BYTES ∧
        (k < raw.toList.length → MAX_CATALOGUE_NAME_BYTES <
          (String.ofList ((raw.toList.map sanitizeChar).take (k + 1))).utf8ByteSize)) ∧
    (sanitizeCatalogueNamesForPrompt names).length ≤ MAX_CATALOGUE_ENTRIES ∧
    (sanitizeCatalogueNamesForPrompt names).Sublist (names.map sanitizeCatalogueName) ∧
    (entitySection (buildPrompt (sanitizeCatalogueNamesForPrompt names) text)).map
        (Sections.lines '\n' '\r') =
      some ((sanitizeCatalogueNamesForPrompt names).map fun n => ("- " ++ n).toList) ∧
    (sanitizeCatalogueNamesForPrompt names ≠ [] →
      (entitySection (buildPrompt (sanitizeCatalogueNamesForPrompt names) text)).map
          (List.splitOn '\n') =
        some ((sanitizeCatalogueNamesForPrompt names).map fun n => ("- " ++ n).toList)) := by
  have hmem : ∀ n ∈ sanitizeCatalogueNamesForPrompt names,
      n ≠ "" ∧ ∃ raw, sanitizeCatalogueName raw = n := by
    intro n hn
    obtain ⟨hn, hne⟩ := List.mem_filter.1 (List.mem_of_mem_take hn)
    obtain ⟨raw, -, hraw⟩ := List.mem_map.1 hn
    exact ⟨by simpa using hne, raw, hraw⟩
  -- no name has a line break, so that each is one line of the section
  have hbreak : ∀ n ∈ sanitizeCatalogueNamesForPrompt names, '\n' ∉ n.toList ∧ '\r' ∉ n.toList := by
    intro n hn
    obtain ⟨-, raw, rfl⟩ := hmem n hn
    exact ⟨fun h => sanitized_not_lineLike h (.inl (by decide)),
      fun h => sanitized_not_lineLike h (.inl (by decide))⟩
  have hsection := entitySection_buildPrompt text fun n hn => (hbreak n hn).1
  refine ⟨?_, ?_, List.length_take_le _ _, ?_, ?_, ?_⟩
  · intro n hn
    obtain ⟨hne, raw, rfl⟩ := hmem n hn
    refine ⟨hne, trimmed_sanitized raw, ?_, String.isValidUTF8 _, ?_⟩
    · rw [utf8ByteSize_eq]
      exact len_sanitized_le raw
    · intro c hc
      exact sanitized_not_lineLike hc
  · intro raw
    obtain ⟨k, hname, hle, hmore⟩ := sanitizeCatalogueName_eq raw
    refine ⟨sanitizeCatalogueName_idem raw, k, hname, ?_, ?_⟩
    · rwa [utf8ByteSize_ofList]
    · rwa [utf8ByteSize_ofList]
  · exact (List.take_sublist _ _).trans List.filter_sublist
  · rw [hsection, Option.map_some, Sections.lines_intercalate]
    · intro l hl
      obtain ⟨n, hn, rfl⟩ := List.mem_map.1 hl
      simp [hbreak n hn]
    · intro l hl
      obtain ⟨n, -, rfl⟩ := List.mem_map.1 hl
      simp
  · intro hne
    rw [hsection, Option.map_some, List.splitOn_intercalate]
    · intro l hl
      obtain ⟨n, hn, rfl⟩ := List.mem_map.1 hl
      simp [hbreak n hn]
    · rwa [Ne, List.map_eq_nil_iff]

end LlmMemory.Vegapunk
