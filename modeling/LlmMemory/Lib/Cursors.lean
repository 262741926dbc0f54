import Mathlib.Data.List.Sort
import Mathlib.Order.Basic

/-!
# Reading by a cursor

The rows of a table have keys, in a linear order, and no two rows have the same.
The table is read in the order of the keys, a page at a time: a page is some of the
rows after a *cursor* (`after`), the first ones of them, and the cursor moves to the
key of its last row. Meanwhile rows are put into the table, with any keys.

What was read so far is in order, and has every row of the table as it was at first
up to the cursor (`Reading`). So it has them all once a page has all the rows that are
left (`Reading.complete`). With each page less is left (`length_after_lt`).
-/

namespace Cursors

variable {α κ : Type} [LinearOrder κ] (key : α → κ)

/-- The rows after a cursor, in order. -/
def after (c : κ) (rows : List α) : List α :=
  (rows.filter fun r => c < key r).insertionSort fun r r' => key r ≤ key r'

variable {key} {c start : κ} {rows first read page rest : List α} {r last : α}

/-- The rows after a cursor are those of greater keys. -/
theorem mem_after : r ∈ after key c rows ↔ r ∈ rows ∧ c < key r := by
  rw [after, List.mem_insertionSort, List.mem_filter, decide_eq_true_eq]

theorem length_after_le : (after key c rows).length ≤ rows.length := by
  rw [after, List.length_insertionSort]
  exact List.length_filter_le _ _

/-- The rows after a cursor are in strict order, having distinct keys. -/
theorem pairwise_after (h : (rows.map key).Nodup) :
    (after key c rows).Pairwise fun r r' => key r < key r' := by
  have : Std.Total fun r r' : α => key r ≤ key r' := ⟨fun r r' => le_total (key r) (key r')⟩
  have : IsTrans α fun r r' : α => key r ≤ key r' := ⟨fun _ _ _ => le_trans⟩
  have hle : (after key c rows).Pairwise fun r r' => key r ≤ key r' :=
    List.pairwise_insertionSort _ _
  have hne : ((after key c rows).map key).Nodup := by
    refine ((List.perm_insertionSort _ _).map key).nodup_iff.2 ?_
    exact h.sublist (List.filter_sublist.map key)
  exact (hle.and (List.pairwise_map.1 hne)).imp fun h => lt_of_le_of_ne h.1 h.2

/-- The rows after the last one of a page are those that the page leaves. -/
theorem after_append (h : (rows.map key).Nodup) (hp : after key c rows = page ++ rest)
    (hlast : page.getLast? = some last) : after key (key last) rows = rest := by
  have hsorted := pairwise_after (c := c) h
  rw [hp] at hsorted
  obtain ⟨hpage, hrest, hacross⟩ := List.pairwise_append.1 hsorted
  have hlastmem : last ∈ page := List.mem_of_getLast? hlast
  have hlt : ∀ x, x ∈ rest ↔ x ∈ rows ∧ key last < key x := by
    intro x
    have hmem : x ∈ page ++ rest ↔ x ∈ rows ∧ c < key x := by rw [← hp, mem_after]
    constructor
    · exact fun hx => ⟨(hmem.1 (List.mem_append_right _ hx)).1, hacross last hlastmem x hx⟩
    · rintro ⟨hx, hgt⟩
      have hc : c < key last := (mem_after.1 (hp ▸ List.mem_append_left _ hlastmem)).2
      refine (List.mem_append.1 (hmem.2 ⟨hx, hc.trans hgt⟩)).resolve_left fun hin => ?_
      -- the last row of the page is the greatest
      obtain ⟨front, hfront⟩ := List.getLast?_eq_some_iff.1 hlast
      rw [hfront] at hin hpage
      rcases List.mem_append.1 hin with hin | hin
      · exact absurd hgt ((List.pairwise_append.1 hpage).2.2 x hin last
          (List.mem_singleton_self _)).asymm
      · exact absurd hgt (List.mem_singleton.1 hin ▸ lt_irrefl _)
  have hperm : (after key (key last) rows).Perm rest := by
    refine (List.perm_ext_iff_of_nodup ?_ ?_).2 fun x => mem_after.trans (hlt x).symm
    · exact (pairwise_after h).imp fun h => ne_of_apply_ne key h.ne
    · exact hrest.imp fun h => ne_of_apply_ne key h.ne
  refine hperm.eq_of_pairwise (fun a b _ _ hab hba => absurd hba hab.asymm) ?_ hrest
  exact pairwise_after h

/-- With a page less is left. -/
theorem length_after_lt (h : (rows.map key).Nodup) (hp : page <+: after key c rows)
    (hlast : page.getLast? = some last) :
    (after key (key last) rows).length < (after key c rows).length := by
  obtain ⟨rest, hrest⟩ := hp
  have hpos : 0 < page.length := List.length_pos_of_mem (List.mem_of_getLast? hlast)
  rw [after_append h hrest.symm hlast, ← hrest, List.length_append]
  exact Nat.lt_add_of_pos_left hpos

/-- What was `read` up to the cursor `c`, beginning after `start` in the table `first`,
    which by now is `rows`. -/
structure Reading (key : α → κ) (start : κ) (first rows read : List α) (c : κ) : Prop where
  sorted : read.Pairwise fun r r' => key r < key r'
  le_cursor : ∀ r ∈ read, key r ≤ c
  subset : read ⊆ rows
  kept : first ⊆ rows
  start_le : start ≤ c
  reads : ∀ r ∈ first, start < key r → key r ≤ c → r ∈ read

namespace Reading

/-- Nothing was read before the first page. -/
theorem begin : Reading key start rows rows [] start where
  sorted := .nil
  le_cursor _ h := absurd h List.not_mem_nil
  subset := List.nil_subset _
  kept := List.Subset.refl _
  start_le := le_rfl
  reads _ _ hlt hle := absurd hle hlt.not_ge

/-- A row is inserted between two pages. -/
theorem insert (h : Reading key start first rows read c) (r : α) :
    Reading key start first (rows ++ [r]) read c :=
  { h with
    subset := List.Subset.trans h.subset (List.subset_append_left _ _)
    kept := List.Subset.trans h.kept (List.subset_append_left _ _) }

/-- A page is in order, after what was read. -/
theorem sorted_append (h : Reading key start first rows read c) (hd : (rows.map key).Nodup)
    (hp : page <+: after key c rows) : (read ++ page).Pairwise fun r r' => key r < key r' := by
  refine List.pairwise_append.2 ⟨h.sorted, (pairwise_after hd).sublist hp.sublist, ?_⟩
  exact fun r hr r' hr' => (h.le_cursor r hr).trans_lt (mem_after.1 (hp.subset hr')).2

theorem subset_append (h : Reading key start first rows read c)
    (hp : page <+: after key c rows) : read ++ page ⊆ rows :=
  List.append_subset.2 ⟨h.subset, fun _ hr => (mem_after.1 (hp.subset hr)).1⟩

/-- The cursor moves to the last row of a page. -/
theorem next (h : Reading key start first rows read c) (hd : (rows.map key).Nodup)
    (hp : page <+: after key c rows) (hlast : page.getLast? = some last) :
    Reading key start first rows (read ++ page) (key last) := by
  have hlastmem : last ∈ page := List.mem_of_getLast? hlast
  have hc : c < key last := (mem_after.1 (hp.subset hlastmem)).2
  obtain ⟨rest, hrest⟩ := hp
  have hleft := after_append hd hrest.symm hlast
  refine ⟨h.sorted_append hd ⟨rest, hrest⟩, ?_, h.subset_append ⟨rest, hrest⟩, h.kept,
    h.start_le.trans hc.le, ?_⟩
  · intro r hr
    rcases List.mem_append.1 hr with hr | hr
    · exact (h.le_cursor r hr).trans hc.le
    · by_contra hgt
      have hmem : r ∈ after key (key last) rows :=
        mem_after.2 ⟨(mem_after.1 (hrest ▸ List.mem_append_left _ hr)).1, not_le.1 hgt⟩
      rw [hleft] at hmem
      have hsorted := pairwise_after (c := c) hd
      rw [← hrest] at hsorted
      exact absurd rfl ((List.pairwise_append.1 hsorted).2.2 r hr r hmem).ne
  · intro r hr hlt hle
    by_cases hrc : key r ≤ c
    · exact List.mem_append_left _ (h.reads r hr hlt hrc)
    · have hmem : r ∈ page ++ rest := by
        rw [hrest, mem_after]
        exact ⟨h.kept hr, not_le.1 hrc⟩
      refine List.mem_append_right _ ((List.mem_append.1 hmem).resolve_right fun hr => ?_)
      rw [← hleft, mem_after] at hr
      exact absurd hle hr.2.not_ge

/-- Once a page has all that is left, all rows of the table as it was at first, that are
    after the start, were read. -/
theorem complete (h : Reading key start first rows read c) (hr : r ∈ first)
    (hlt : start < key r) : r ∈ read ++ after key c rows := by
  by_cases hrc : key r ≤ c
  · exact List.mem_append_left _ (h.reads r hr hlt hrc)
  · exact List.mem_append_right _ (mem_after.2 ⟨h.kept hr, not_le.1 hrc⟩)

end Reading

end Cursors
