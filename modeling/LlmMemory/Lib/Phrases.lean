import Mathlib.Data.List.Induction

/-!
# Words and phrases

The *words* of a text are its maximal runs of characters other than spaces
(`Words`). A *phrase* is a text in quotes, where a quote stands for itself if it
is doubled (`quoted`); phrases are separated by single separators. A text is
read as such a list of phrases, and as nothing else, by an automaton (`read`).

* `read_intercalate`: phrases that are written are read again;
* `eq_intercalate_of_read`: what is read consists of the phrases and of the
  separators between them only.
-/

namespace Phrases

variable {α : Type}

/-- The words of a text. -/
inductive Words (space : α → Bool) : List α → List (List α) → Prop
  | nil {blank : List α} (hb : ∀ c ∈ blank, space c = true) : Words space blank []
  | cons {blank word rest : List α} {words : List (List α)}
      (hb : ∀ c ∈ blank, space c = true) (hne : word ≠ [])
      (hword : ∀ c ∈ word, space c = false) (hrest : ∀ c ∈ rest.head?, space c = true)
      (h : Words space rest words) : Words space (blank ++ (word ++ rest)) (word :: words)

theorem Words.space {space : α → Bool} {c : α} {cs : List α} {words : List (List α)}
    (hc : space c = true) (h : Words space cs words) : Words space (c :: cs) words := by
  cases h with
  | nil hb => exact .nil (List.forall_mem_cons.2 ⟨hc, hb⟩)
  | cons hb hne hword hrest h =>
    rw [← List.cons_append]
    exact .cons (List.forall_mem_cons.2 ⟨hc, hb⟩) hne hword hrest h

/-- A text that begins with a word. -/
theorem Words.first {space : α → Bool} {word rest : List α} {words : List (List α)}
    (hne : word ≠ []) (hword : ∀ c ∈ word, space c = false)
    (hrest : ∀ c ∈ rest.head?, space c = true) (h : Words space rest words) :
    Words space (word ++ rest) (word :: words) := by
  have hb : ∀ c ∈ ([] : List α), space c = true := by simp
  exact .cons hb hne hword hrest h

/-! ## Phrases -/

variable [DecidableEq α] (quote sep : α)

/-- A text with its quotes doubled. -/
def doubled (cs : List α) : List α := cs.flatMap fun c => if c = quote then [quote, quote] else [c]

/-- A text as a phrase. -/
def quoted (cs : List α) : List α := quote :: doubled quote cs ++ [quote]

/-- Where the reader of phrases is: before one, inside one of which it has read
    a part, in reverse, or after a quote inside, which may be its end. -/
inductive State (α : Type)
  | start
  | inside (acc : List α)
  | closing (acc : List α)

/-- The phrases of a text, if there is nothing else in it. -/
def read : State α → List α → Option (List (List α))
  | .start, [] => none
  | .start, c :: cs => if c = quote then read (.inside []) cs else none
  | .inside _, [] => none
  | .inside acc, c :: cs =>
    if c = quote then read (.closing acc) cs else read (.inside (c :: acc)) cs
  | .closing acc, [] => some [acc.reverse]
  | .closing acc, c :: cs =>
    if c = quote then read (.inside (quote :: acc)) cs
    else if c = sep then (read .start cs).map (acc.reverse :: ·) else none

variable {quote sep}

/-- A text with its quotes doubled is read up to the quote that ends it. -/
theorem read_doubled (cs acc rest : List α) :
    read quote sep (.inside acc) (doubled quote cs ++ quote :: rest) =
      read quote sep (.closing (cs.reverse ++ acc)) rest := by
  induction cs generalizing acc with
  | nil => rw [doubled, List.flatMap_nil, List.nil_append, read, if_pos rfl]; rfl
  | cons c cs ih =>
    rw [doubled, List.flatMap_cons, ← doubled, List.reverse_cons, List.append_assoc,
      List.append_assoc, List.singleton_append]
    by_cases hc : c = quote
    · rw [if_pos hc, List.cons_append, List.cons_append, List.nil_append, read, if_pos rfl, read,
        if_pos rfl, ih, hc]
    · rw [if_neg hc, List.singleton_append, read, if_neg hc, ih]

/-- A text in quotes is read as it was. -/
theorem read_quoted (cs rest : List α) :
    read quote sep .start (quoted quote cs ++ rest) =
      read quote sep (.closing cs.reverse) rest := by
  rw [quoted, List.cons_append, List.cons_append, read, if_pos rfl, List.append_assoc,
    List.singleton_append, read_doubled, List.append_nil]

/-- Phrases that are written are read again. -/
theorem read_intercalate (hsep : sep ≠ quote) {phrases : List (List α)} (hne : phrases ≠ []) :
    read quote sep .start ([sep].intercalate (phrases.map (quoted quote))) = some phrases := by
  induction phrases with
  | nil => exact absurd rfl hne
  | cons p phrases ih =>
    cases phrases with
    | nil =>
      rw [List.map_singleton, List.intercalate_singleton, ← List.append_nil (quoted quote p),
        read_quoted, read, List.reverse_reverse]
    | cons p' phrases =>
      rw [List.map_cons, List.map_cons, List.intercalate_cons_cons, ← List.map_cons,
        List.append_assoc, read_quoted, List.singleton_append, read, if_neg hsep, if_pos rfl,
        ih (List.cons_ne_nil _ _),
        List.reverse_reverse]
      rfl

/-! ## What is read -/

/-- What has been read of the phrase at hand. -/
def State.text (quote : α) : State α → List α
  | .start => []
  | .inside acc => quote :: doubled quote acc.reverse
  | .closing acc => quoted quote acc.reverse

theorem read_ne_nil {st : State α} {cs : List α} : read quote sep st cs ≠ some [] := by
  induction cs generalizing st with
  | nil => cases st <;> simp [read]
  | cons c cs ih =>
    cases st with
    | start =>
      rw [read]
      split
      · exact ih
      · simp
    | inside acc =>
      rw [read]
      split
      · exact ih
      · exact ih
    | closing acc =>
      rw [read]
      split
      · exact ih
      · split <;> simp

/-- A text that is read consists of the phrases, with separators in between. -/
theorem eq_intercalate_of_read {st : State α} {cs : List α} {phrases : List (List α)}
    (h : read quote sep st cs = some phrases) :
    st.text quote ++ cs = [sep].intercalate (phrases.map (quoted quote)) := by
  -- what was read of the phrase is in the state, so the text of the state goes in front
  induction cs generalizing st phrases with
  | nil =>
    cases st with
    | start => cases h
    | inside acc => cases h
    | closing acc =>
      cases h
      simp [State.text]
  | cons c cs ih =>
    cases st with
    | start =>
      rw [read] at h
      split at h
      · rename_i hc
        rw [← ih h, hc]
        rfl
      · cases h
    | inside acc =>
      rw [read] at h
      split at h
      · rename_i hc
        rw [← ih h, hc]
        simp [State.text, quoted]
      · rename_i hc
        rw [← ih h]
        simp [State.text, doubled, hc]
    | closing acc =>
      rw [read] at h
      split at h
      · rename_i hc
        rw [← ih h, hc]
        simp [State.text, quoted, doubled]
      · split at h
        -- a separator after the closing quote: the next phrase begins
        · rename_i hc
          obtain ⟨ps, hps, rfl⟩ := Option.map_eq_some_iff.1 h
          cases ps with
          | nil => exact absurd hps read_ne_nil
          | cons p ps =>
            have htail := ih hps
            rw [List.map_cons, List.map_cons, List.intercalate_cons_cons, ← List.map_cons, ← htail,
              hc]
            simp [State.text]
        · cases h

end Phrases
