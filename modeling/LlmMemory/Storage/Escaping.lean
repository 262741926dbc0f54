import LlmMemory.Lib.Phrases
import LlmMemory.Storage

/-!
# Expressions of full-text search

A query is turned into an expression of FTS5 (`fts5Escape`), by quoting its words
(`splitWhitespace`). In the syntax of FTS5, the expression is the list of the
words as phrases, so that nothing in a query has another meaning
(`fts5Escape_read`).
-/

namespace LlmMemory.Search

open Phrases

/-- The words of a text, of which `tok` has been read, are those of the rest. -/
theorem words_splitWhitespace {tok : List Char} (htok : ∀ c ∈ tok, isWhiteSpace c = false)
    (cs : List Char) : Words isWhiteSpace (tok.reverse ++ cs) (splitWhitespace tok cs) := by
  have hnil : ∀ c ∈ ([] : List Char), isWhiteSpace c = false := by simp
  have hword : ∀ c ∈ tok.reverse, isWhiteSpace c = false :=
    fun c hc => htok c (List.mem_reverse.1 hc)
  induction cs generalizing tok with
  | nil =>
    cases tok with
    | nil => exact .nil (by simp)
    | cons t tok => exact .first (by simp) hword (by simp) (.nil (by simp))
  | cons c cs ih =>
    rw [splitWhitespace]
    cases hc : isWhiteSpace c with
    | true =>
      have hrest : Words isWhiteSpace (c :: cs) (splitWhitespace [] cs) :=
        .space hc (ih hnil (by simp))
      cases tok with
      | nil => exact hrest
      | cons t tok => exact .first (by simp) hword (by simpa using hc) hrest
    | false =>
      have htok' : ∀ d ∈ c :: tok, isWhiteSpace d = false := List.forall_mem_cons.2 ⟨hc, htok⟩
      have h := ih htok' fun c hc => htok' c (List.mem_reverse.1 hc)
      rw [List.reverse_cons, List.append_assoc] at h
      exact h

/-- White space in front of a text makes no difference. -/
theorem splitWhitespace_blank {blank : List Char} (hb : ∀ c ∈ blank, isWhiteSpace c = true)
    (cs : List Char) : splitWhitespace [] (blank ++ cs) = splitWhitespace [] cs := by
  induction blank with
  | nil => rfl
  | cons c blank ih =>
    rw [List.forall_mem_cons] at hb
    rw [List.cons_append, splitWhitespace, if_pos hb.1, ih hb.2]
    rfl

/-- A word is read up to its end. -/
theorem splitWhitespace_word {word : List Char} (hw : ∀ c ∈ word, isWhiteSpace c = false)
    (tok cs : List Char) :
    splitWhitespace tok (word ++ cs) = splitWhitespace (word.reverse ++ tok) cs := by
  induction word generalizing tok with
  | nil => rfl
  | cons c word ih =>
    rw [List.forall_mem_cons] at hw
    rw [List.cons_append, splitWhitespace, hw.1, if_neg Bool.false_ne_true, ih hw.2,
      List.reverse_cons, List.append_assoc, List.singleton_append]

/-- A text has no other words. -/
theorem splitWhitespace_eq {cs : List Char} {words : List (List Char)}
    (h : Words isWhiteSpace cs words) : splitWhitespace [] cs = words := by
  induction h with
  | @nil blank hb =>
    rw [← List.append_nil blank, splitWhitespace_blank hb]
    rfl
  | @cons blank word rest words hb hne hword hrest _ ih =>
    have hne' : word.reverse.isEmpty = false := by simpa using hne
    rw [splitWhitespace_blank hb, splitWhitespace_word hword, List.append_nil, ← ih]
    cases rest with
    | nil => rw [splitWhitespace, hne', List.reverse_reverse]; rfl
    | cons c cs =>
      have hc : isWhiteSpace c = true := hrest c rfl
      rw [splitWhitespace, if_pos hc, hne', List.reverse_reverse, splitWhitespace, if_pos hc]
      rfl

theorem quoteToken_eq : quoteToken = quoted '"' := rfl

/-- The expression is the words of the query as phrases, or one empty phrase if
    it has none, and nothing else but the spaces between them. -/
theorem fts5Escape_read (s : String) : ∃ words phrases, Words isWhiteSpace s.toList words ∧
    (∀ words', Words isWhiteSpace s.toList words' → words' = words) ∧
    phrases = (if words = [] then [[]] else words) ∧
    read '"' ' ' .start (fts5Escape s).toList = some phrases ∧
    (fts5Escape s).toList = [' '].intercalate (phrases.map (quoted '"')) := by
  have hnil : ∀ c ∈ ([] : List Char), isWhiteSpace c = false := by simp
  have hread : read '"' ' ' .start (fts5Escape s).toList =
      some (if splitWhitespace [] s.toList = [] then [[]] else splitWhitespace [] s.toList) := by
    rw [fts5Escape]
    split
    · rename_i hwords
      rw [hwords]
      rfl
    · rename_i hne
      rw [if_neg hne, String.toList_ofList, quoteToken_eq, read_intercalate (by decide) hne]
  exact ⟨_, _, words_splitWhitespace hnil s.toList, fun words' h => (splitWhitespace_eq h).symm,
    rfl, hread, eq_intercalate_of_read hread⟩

end LlmMemory.Search
