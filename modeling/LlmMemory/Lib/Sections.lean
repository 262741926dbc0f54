import Mathlib.Data.List.Basic

/-!
# Sections of texts

A section of a text is what stands after the first occurrence of a marker
(`after`), up to the first occurrence of another (`upTo`). The *lines* of a text
end at newlines, with the carriage return before one (`lines`).

* `after_of_not_mem`: a section does not begin where the first character of its
  marker is missing;
* `upTo_intercalate`: a section of lines that are not empty ends where two
  newlines follow each other;
* `lines_intercalate`: lines that are joined are read again.
-/

namespace Sections

variable {α : Type} [DecidableEq α]

/-- What is after the first occurrence of a marker. -/
def after (marker : List α) : List α → Option (List α)
  | [] => none
  | c :: cs => if marker <+: c :: cs then some ((c :: cs).drop marker.length) else after marker cs

/-- What is before the first occurrence of a marker. -/
def upTo (marker : List α) : List α → List α
  | [] => []
  | c :: cs => if marker <+: c :: cs then [] else c :: upTo marker cs

/-- A line without the carriage return at its end. -/
def dropReturn (cr : α) (line : List α) : List α :=
  if line.getLast? = some cr then line.dropLast else line

/-- The lines of a text. What is after the last newline is one if it is not empty. -/
def lines (nl cr : α) (cs : List α) : List (List α) :=
  let pieces := cs.splitOn nl
  pieces.dropLast.map (dropReturn cr) ++ pieces.getLast?.toList.filter (· ≠ [])

variable {marker cs rest : List α} {ls : List (List α)} {nl cr : α}

/-! ## Markers -/

/-- A marker is not where its first character is missing. -/
theorem after_of_not_mem {c : α} (hc : c ∉ cs) :
    after (c :: marker) (cs ++ rest) = after (c :: marker) rest := by
  induction cs with
  | nil => rfl
  | cons d cs ih =>
    rw [List.mem_cons, not_or] at hc
    have hnone : ¬c :: marker <+: d :: (cs ++ rest) := fun hp =>
      hc.1 (List.cons_prefix_cons.1 hp).1
    rw [List.cons_append, after, if_neg hnone, ih hc.2]

/-- A marker at the start is found there. -/
theorem after_self (hm : marker ≠ []) : after marker (marker ++ rest) = some rest := by
  obtain ⟨c, cs, rfl⟩ := List.exists_cons_of_ne_nil hm
  have hp : c :: cs <+: c :: (cs ++ rest) := List.prefix_append (c :: cs) rest
  rw [List.cons_append, after, if_pos hp, ← List.cons_append, List.drop_left]

/-- A marker that begins with a newline is not within a line. -/
theorem upTo_line (hline : nl ∉ cs) :
    upTo (nl :: marker) (cs ++ rest) = cs ++ upTo (nl :: marker) rest := by
  induction cs with
  | nil => rfl
  | cons c cs ih =>
    rw [List.mem_cons, not_or] at hline
    have hnone : ¬nl :: marker <+: c :: (cs ++ rest) := fun hp =>
      hline.1 (List.cons_prefix_cons.1 hp).1
    rw [List.cons_append, upTo, if_neg hnone, ih hline.2, List.cons_append]

/-- Nothing is before a marker at the start. -/
theorem upTo_self (hm : marker ≠ []) : upTo marker (marker ++ rest) = [] := by
  obtain ⟨c, cs, rfl⟩ := List.exists_cons_of_ne_nil hm
  rw [List.cons_append, upTo, if_pos]
  exact List.prefix_append (c :: cs) rest

/-- A section of lines that are not empty ends where two newlines follow each other. -/
theorem upTo_intercalate (marker rest : List α) (hline : ∀ l ∈ ls, nl ∉ l) (hne : ∀ l ∈ ls, l ≠ []) :
    upTo (nl :: nl :: marker) ([nl].intercalate ls ++ nl :: nl :: marker ++ rest) =
      [nl].intercalate ls := by
  induction ls with
  | nil => exact upTo_self (List.cons_ne_nil _ _)
  | cons l ls ih =>
    rw [List.forall_mem_cons] at hline hne
    cases ls with
    | nil =>
      rw [List.intercalate_singleton, List.append_assoc, upTo_line hline.1,
        upTo_self (List.cons_ne_nil _ _), List.append_nil]
    | cons l' ls =>
      -- the next line does not begin with a newline
      have hnext : ∀ more, ¬nl :: nl :: marker <+: nl :: ([nl].intercalate (l' :: ls) ++ more) := by
        intro more hp
        obtain ⟨c, l', rfl⟩ := List.exists_cons_of_ne_nil (hne.2 l' List.mem_cons_self)
        rw [List.intercalate_cons_cons_left] at hp
        have hc := (List.cons_prefix_cons.1 (List.cons_prefix_cons.1 hp).2).1
        exact hline.2 (c :: l') List.mem_cons_self (hc ▸ List.mem_cons_self)
      have hrest := ih hline.2 hne.2
      rw [List.append_assoc] at hrest
      rw [List.intercalate_cons_cons, List.append_assoc, List.append_assoc, List.append_assoc,
        upTo_line hline.1, List.singleton_append, upTo, if_neg (hnext _), hrest,
        List.append_assoc, List.singleton_append]

/-! ## Lines -/

/-- Lines that are joined are read again. -/
theorem lines_intercalate (hline : ∀ l ∈ ls, nl ∉ l ∧ cr ∉ l) (hne : ∀ l ∈ ls, l ≠ []) :
    lines nl cr ([nl].intercalate ls) = ls := by
  by_cases hls : ls = []
  · subst hls
    simp [lines]
  · have hkeep : ∀ l ∈ ls.dropLast, dropReturn cr l = l := by
      intro l hl
      rw [dropReturn, if_neg]
      exact fun hcr => (hline l (List.dropLast_subset ls hl)).2 (List.mem_of_getLast? hcr)
    have hlast : ls.getLast?.toList.filter (· ≠ []) = [ls.getLast hls] := by
      simp [List.getLast?_eq_some_getLast hls, hne _ (List.getLast_mem hls)]
    unfold lines
    rw [List.splitOn_intercalate nl (fun l hl => (hline l hl).1) hls]
    dsimp only
    rw [List.map_congr_left hkeep, List.map_id', hlast, List.dropLast_append_getLast]

end Sections
