import Mathlib.Data.Finset.Sort
import Mathlib.Data.Multiset.AddSub
import Mathlib.Algebra.Group.Pi.Basic
import LlmMemory.Lib.Derived
import LlmMemory.Storage

/-!
# The full-text index

The raws with their rowids, and the index on their titles, contents and tags
(`Indexed`), which has no text of its own: triggers tell it which texts to add, and
which to take away. A search finds rowids in the index, and joins the rows.

Whatever is inserted, deleted and updated, the index is that of the rows
(`index_reach`), hence a search finds what it would without one (`search_on_index`).

What the index gives for an expression is up to the engine (`Engine`): its tokenizer,
what matches, and how `bm25` ranks, given what is indexed.
-/

namespace LlmMemory

open Derived

namespace FullText

/-! ## The index -/

/-- A term in a column, at a position. -/
structure Instance where
  column : ℕ
  term : String
  position : ℕ
  deriving DecidableEq, Repr

/-- The index: where which terms are, by rowid; how many terms the columns of the rows
    have; and, for the averages, the number of rows and of the terms of each column. -/
structure Index where
  postings : Multiset (ℕ × Instance) := 0
  docsize : ℕ → Option (List ℕ) := fun _ => none
  rowCount : ℤ := 0
  totals : ℕ → ℤ := 0

/-- The tokenizer; whether an expression matches a row, given the terms in it; and how
    `bm25` ranks it, given also the averages, the terms in the other rows, and the sizes
    of its columns. -/
structure Engine where
  tokenize : String → List String
  isMatch : String → Multiset Instance → Bool
  bm25 : String → ℤ → (ℕ → ℤ) → Multiset (Multiset Instance) → List ℕ → Multiset Instance → ℚ

variable (e : Engine)

/-- The terms of the columns indexed. -/
def columns (r : Raw) : List (List String) :=
  [e.tokenize r.title, e.tokenize r.content, (r.tags.map e.tokenize).getD []]

/-- The instances of the terms of a row, with their columns and positions. -/
def instances (r : Raw) : List Instance :=
  (columns e r).zipIdx.flatMap fun (terms, column) =>
    terms.zipIdx.map fun (term, position) => ⟨column, term, position⟩

/-- The numbers of terms in the columns of a row. -/
def sizes (r : Raw) : List ℕ := (columns e r).map List.length

/-- What a row contributes to the postings, and to the totals. -/
def postings (x : ℕ × Raw) : Multiset (ℕ × Instance) := (instances e x.2).map fun i => (x.1, i)

/-- What a row adds to the total of a column. -/
def total (x : ℕ × Raw) (column : ℕ) : ℤ := (sizes e x.2).getD column 0

namespace Index

/-- `INSERT INTO raws_fts(rowid, title, content, tags)`. -/
def insert (idx : Index) (x : ℕ × Raw) : Index where
  postings := idx.postings + FullText.postings e x
  docsize := Function.update idx.docsize x.1 (some (sizes e x.2))
  rowCount := idx.rowCount + 1
  totals := idx.totals + total e x

/-- The command `'delete'`, given the texts that were indexed. -/
def delete (idx : Index) (x : ℕ × Raw) : Index where
  postings := idx.postings - FullText.postings e x
  docsize := Function.update idx.docsize x.1 none
  rowCount := idx.rowCount - 1
  totals := idx.totals - total e x

variable {e} in
/-- A row that is inserted has its sizes stored. -/
@[simp] theorem docsize_insert_self {idx : Index} {x : ℕ × Raw} :
    (idx.insert e x).docsize x.1 = some (sizes e x.2) := Function.update_self ..

variable {e} in
theorem docsize_insert_of_ne {idx : Index} {x : ℕ × Raw} {rowid : ℕ} (h : rowid ≠ x.1) :
    (idx.insert e x).docsize rowid = idx.docsize rowid := Function.update_of_ne h ..

variable {e} in
/-- A row that is deleted has none. -/
@[simp] theorem docsize_delete_self {idx : Index} {x : ℕ × Raw} :
    (idx.delete e x).docsize x.1 = none := Function.update_self ..

variable {e} in
theorem docsize_delete_of_ne {idx : Index} {x : ℕ × Raw} {rowid : ℕ} (h : rowid ≠ x.1) :
    (idx.delete e x).docsize rowid = idx.docsize rowid := Function.update_of_ne h ..

/-- The terms in a row. -/
def instances (idx : Index) (rowid : ℕ) : Multiset Instance :=
  (idx.postings.filter (·.1 = rowid)).map (·.2)

/-- The rowids that have terms. -/
def rowids (idx : Index) : Finset ℕ := (idx.postings.map (·.1)).toFinset

/-- The rowids that match, in their order. -/
def search (idx : Index) (expr : String) : List ℕ :=
  (idx.rowids.sort (· ≤ ·)).filter fun rowid => e.isMatch expr (idx.instances rowid)

/-- The rank that the engine computes from what the index has of a row and of all rows. -/
def bm25 (idx : Index) (expr : String) (rowid : ℕ) : ℚ :=
  e.bm25 expr idx.rowCount idx.totals (idx.rowids.val.map idx.instances)
    ((idx.docsize rowid).getD []) (idx.instances rowid)

end Index

/-! ## The table -/

/-- The table of the raws, by rowid, and its index. -/
structure Indexed where
  rows : List (ℕ × Raw) := []
  index : Index := {}

/-- A statement on the table. An update gives a row its new values, but for the rowid. -/
inductive Statement
  | insert (r : Raw)
  | deletePersonal (userId : String)
  | update (rows : Raw → Bool) (set : Raw → Raw)

namespace Indexed

/-- One more than the largest rowid. -/
def nextRowid (s : Indexed) : ℕ := ((s.rows.map (·.1)).max?.getD 0) + 1

/-- What a statement does, the triggers `raws_ai`, `raws_ad` and `raws_au` included. An
    insertion with an id in use fails. -/
def exec (s : Indexed) : Statement → Indexed
  | .insert r =>
    if (s.rows.map (·.2)).any (fun r' => r'.id = r.id) then s
    else
      let x := (s.nextRowid, r)
      { rows := s.rows ++ [x], index := s.index.insert e x }
  | .deletePersonal userId =>
    let old (x : ℕ × Raw) : Bool := x.2.key = .personal userId
    { rows := s.rows.filter fun x => !old x,
      index := (s.rows.filter old).foldl (fun idx x => idx.delete e x) s.index }
  | .update sel set =>
    let new (x : ℕ × Raw) : ℕ × Raw := (x.1, set x.2)
    { rows := s.rows.map fun x => if sel x.2 then new x else x,
      index := (s.rows.filter fun x => sel x.2).foldl
        (fun idx x => (idx.delete e x).insert e (new x)) s.index }

/-- The state after the statements. -/
def run (s : Indexed) (stmts : List Statement) : Indexed := stmts.foldl (exec e) s

/-- The query of `raws`: rowids from the index, joined with their rows. -/
def search (s : Indexed) (q : Search.SearchQuery) : List Raw :=
  let expr := Search.fts5Escape q.query
  let joined := (s.index.search e expr).filterMap fun rowid => s.rows.find? fun x => x.1 = rowid
  let found := joined.filter fun x =>
    (∀ sc ∈ q.scope, x.2.scope = sc) ∧ ∀ o ∈ q.ownerId, x.2.ownerId = o
  let rank (x : ℕ × Raw) : ℚ := s.index.bm25 e expr x.1
  ((found.insertionSort fun x y => rank x ≤ rank y).take (Search.clampLimit q.limit).toNat).map (·.2)

end Indexed

/-! ## Without the index -/

/-- What a statement does to the raws. -/
def execRaws (raws : List Raw) : Statement → List Raw
  | .insert r => if raws.any (fun r' => r'.id = r.id) then raws else raws ++ [r]
  | .deletePersonal userId => raws.filter fun r => r.key ≠ .personal userId
  | .update sel set => raws.map fun r => if sel r then set r else r

/-- The engine on the rows themselves. -/
def Engine.fts : Fts where
  isMatch expr r := instances e r ≠ [] ∧ e.isMatch expr (instances e r)
  bm25 expr rows r :=
    e.bm25 expr rows.length (fun column => (rows.map fun r => ((sizes e r).getD column 0 : ℤ)).sum)
      ((rows.filter fun r => instances e r ≠ []).map fun r => ((instances e r : Multiset Instance)))
      (sizes e r) (instances e r)

/-! ## The index in step with the rows -/

/-- The index is that of the rows, which are in the order of their rowids. -/
structure InStep (s : Indexed) : Prop where
  sorted : (s.rows.map (·.1)).Pairwise (· < ·)
  postings : s.index.postings = derived (postings e) s.rows
  docsize : ∀ x ∈ s.rows, s.index.docsize x.1 = some (sizes e x.2)
  nosize : ∀ rowid ∉ s.rows.map (·.1), s.index.docsize rowid = none
  rowCount : s.index.rowCount = derived (fun _ => (1 : ℤ)) s.rows
  totals : s.index.totals = derived (total e) s.rows

variable {e} {s : Indexed} {rows : List (ℕ × Raw)} {idx : Index}

theorem InStep.nodup (h : InStep e s) : (s.rows.map (·.1)).Nodup :=
  h.sorted.imp fun hlt => Nat.ne_of_lt hlt

/-- What remains of the index when the rows are deleted from it, one after the other. -/
theorem delete_foldl (rows : List (ℕ × Raw)) (idx : Index) :
    let idx' := rows.foldl (fun idx x => idx.delete e x) idx
    idx'.postings = deleted (postings e) rows idx.postings ∧
      idx'.rowCount = deleted (fun _ => (1 : ℤ)) rows idx.rowCount ∧
      idx'.totals = deleted (total e) rows idx.totals ∧
      ∀ rowid, idx'.docsize rowid =
        if rowid ∈ rows.map (·.1) then none else idx.docsize rowid := by
  induction rows generalizing idx with
  | nil => exact ⟨rfl, rfl, rfl, fun _ => rfl⟩
  | cons x rows ih =>
    obtain ⟨hpostings, hcount, htotals, hsize⟩ := ih (idx.delete e x)
    refine ⟨hpostings, hcount, htotals, fun rowid => ?_⟩
    rw [List.foldl_cons, hsize, List.map_cons]
    by_cases hmem : rowid ∈ rows.map (·.1)
    · rw [if_pos hmem, if_pos (List.mem_cons_of_mem _ hmem)]
    · rw [if_neg hmem]
      by_cases hx : rowid = x.1
      · rw [hx, Index.docsize_delete_self, if_pos List.mem_cons_self]
      · rw [Index.docsize_delete_of_ne hx, if_neg]
        rw [List.mem_cons, not_or]
        exact ⟨hx, hmem⟩

/-- What the index becomes when the rows are updated in it, one after the other. -/
theorem update_foldl (set : Raw → Raw) (rows : List (ℕ × Raw)) (idx : Index)
    (hnodup : (rows.map (·.1)).Nodup) :
    let new (x : ℕ × Raw) : ℕ × Raw := (x.1, set x.2)
    let idx' := rows.foldl (fun idx x => (idx.delete e x).insert e (new x)) idx
    idx'.postings = updated (postings e) new rows idx.postings ∧
      idx'.rowCount = updated (fun _ => (1 : ℤ)) new rows idx.rowCount ∧
      idx'.totals = updated (total e) new rows idx.totals ∧
      (∀ x ∈ rows, idx'.docsize x.1 = some (sizes e (set x.2))) ∧
      ∀ rowid ∉ rows.map (·.1), idx'.docsize rowid = idx.docsize rowid := by
  induction rows generalizing idx with
  | nil => exact ⟨rfl, rfl, rfl, fun _ hx => (nomatch hx), fun _ _ => rfl⟩
  | cons x rows ih =>
    obtain ⟨hx, hnodup⟩ := List.nodup_cons.1 hnodup
    obtain ⟨hpostings, hcount, htotals, hsize, hother⟩ :=
      ih ((idx.delete e x).insert e (x.1, set x.2)) hnodup
    refine ⟨hpostings, hcount, htotals, fun y hy => ?_, fun rowid hrowid => ?_⟩
    · rcases List.mem_cons.1 hy with rfl | hy
      · rw [List.foldl_cons, hother _ hx]
        exact Index.docsize_insert_self
      · rw [List.foldl_cons, hsize y hy]
    · rw [List.map_cons, List.mem_cons, not_or] at hrowid
      rw [List.foldl_cons, hother _ hrowid.2]
      exact (Index.docsize_insert_of_ne (x := (x.1, set x.2)) hrowid.1).trans
        (Index.docsize_delete_of_ne hrowid.1)

/-- The next rowid is greater than those in use. -/
theorem lt_nextRowid {x : ℕ × Raw} (hx : x ∈ s.rows) : x.1 < s.nextRowid := by
  have hmem := List.mem_map_of_mem (f := (·.1)) hx
  rw [Indexed.nextRowid]
  cases hmax : (s.rows.map (·.1)).max? with
  | none => rw [List.max?_eq_none_iff.1 hmax] at hmem; cases hmem
  | some m => exact Nat.lt_succ_of_le ((List.max?_eq_some_iff.1 hmax).2 _ hmem)

/-- An insertion keeps the index in step. -/
theorem InStep.insert (h : InStep e s) (r : Raw) :
    InStep e ⟨s.rows ++ [(s.nextRowid, r)], s.index.insert e (s.nextRowid, r)⟩ := by
  have hne : ∀ x ∈ s.rows, x.1 ≠ s.nextRowid := fun x hx => (lt_nextRowid hx).ne
  refine ⟨?_, ?_, fun x hx => ?_, fun rowid hrowid => ?_, ?_, ?_⟩
  · rw [List.map_append, List.pairwise_append]
    refine ⟨h.sorted, List.pairwise_singleton _ _, fun i hi j hj => ?_⟩
    obtain ⟨x, hx, rfl⟩ := List.mem_map.1 hi
    rw [List.mem_singleton.1 hj]
    exact lt_nextRowid hx
  · rw [derived_append_singleton, ← h.postings, Index.insert]
  · rcases List.mem_append.1 hx with hx | hx
    · exact (Index.docsize_insert_of_ne (hne x hx)).trans (h.docsize x hx)
    · rw [List.mem_singleton.1 hx]
      exact Index.docsize_insert_self
  · rw [List.map_append, List.mem_append, not_or] at hrowid
    have hne : rowid ≠ s.nextRowid := fun he => hrowid.2 (by simp [he])
    exact (Index.docsize_insert_of_ne hne).trans (h.nosize _ hrowid.1)
  · rw [derived_append_singleton, ← h.rowCount, Index.insert]
  · rw [derived_append_singleton, ← h.totals, Index.insert]

theorem InStep.delete (h : InStep e s) (p : ℕ × Raw → Bool) :
    InStep e ⟨s.rows.filter fun x => !p x,
      (s.rows.filter p).foldl (fun idx x => idx.delete e x) s.index⟩ := by
  obtain ⟨hpostings, hcount, htotals, hsize⟩ := delete_foldl (e := e) (s.rows.filter p) s.index
  have hkeep : ∀ x ∈ s.rows, p x = false → x.1 ∉ (s.rows.filter p).map (·.1) := by
    intro x hx hp hmem
    obtain ⟨y, hy, he⟩ := List.mem_map.1 hmem
    rw [List.mem_filter] at hy
    rw [List.inj_on_of_nodup_map h.nodup hy.1 hx he, hp] at hy
    exact absurd hy.2 (by decide)
  refine ⟨h.sorted.sublist (List.filter_sublist.map _), ?_, fun x hx => ?_, fun rowid hrowid => ?_,
    ?_, ?_⟩
  · have := delete_derived (f := FullText.postings e) (p := p) s.rows
      (fun _ _ => Multiset.add_sub_cancel_right) 0
    rw [add_zero, add_zero, ← h.postings] at this
    rw [hpostings, this]
  · obtain ⟨hx, hp⟩ := List.mem_filter.1 hx
    rw [hsize, if_neg (hkeep x hx (by simpa using hp)), h.docsize x hx]
  · rw [hsize]
    split
    · rfl
    · next hdel =>
      refine h.nosize _ fun hmem => ?_
      obtain ⟨x, hx, rfl⟩ := List.mem_map.1 hmem
      cases hp : p x with
      | true => exact hdel (List.mem_map_of_mem (List.mem_filter.2 ⟨hx, hp⟩))
      | false => exact hrowid (List.mem_map_of_mem (List.mem_filter.2 ⟨hx, by simp [hp]⟩))
  · have := delete_derived (f := fun _ => (1 : ℤ)) (p := p) s.rows add_sub_cancel_right 0
    rw [add_zero, add_zero, ← h.rowCount] at this
    rw [hcount, this]
  · have := delete_derived (f := total e) (p := p) s.rows add_sub_cancel_right 0
    rw [add_zero, add_zero, ← h.totals] at this
    rw [htotals, this]

theorem InStep.update (h : InStep e s) (sel : Raw → Bool) (set : Raw → Raw) :
    InStep e ⟨s.rows.map fun x => if sel x.2 then (x.1, set x.2) else x,
      (s.rows.filter fun x => sel x.2).foldl
        (fun idx x => (idx.delete e x).insert e (x.1, set x.2)) s.index⟩ := by
  have hfst : (s.rows.map fun x => if sel x.2 then (x.1, set x.2) else x).map (·.1) =
      s.rows.map (·.1) := by
    rw [List.map_map]
    refine List.map_congr_left fun x _ => ?_
    simp only [Function.comp]
    split <;> rfl
  obtain ⟨hpostings, hcount, htotals, hsize, hother⟩ := update_foldl (e := e) set
    (s.rows.filter fun x => sel x.2) s.index (h.nodup.sublist (List.filter_sublist.map _))
  refine ⟨hfst ▸ h.sorted, ?_, fun y hy => ?_, fun rowid hrowid => ?_, ?_, ?_⟩
  · have := update_derived (f := FullText.postings e) (g := fun x => (x.1, set x.2))
      (p := fun x => sel x.2) s.rows (fun _ _ => Multiset.add_sub_cancel_right) 0
    rw [add_zero, add_zero, ← h.postings] at this
    rw [hpostings, this]
  · obtain ⟨x, hx, rfl⟩ := List.mem_map.1 hy
    split
    · next hsel => exact hsize x (List.mem_filter.2 ⟨hx, hsel⟩)
    · next hsel =>
      rw [hother, h.docsize x hx]
      intro hmem
      obtain ⟨z, hz, he⟩ := List.mem_map.1 hmem
      rw [List.mem_filter] at hz
      rw [List.inj_on_of_nodup_map h.nodup hz.1 hx he] at hz
      exact hsel hz.2
  · rw [hfst] at hrowid
    rw [hother _ fun hmem => hrowid ((List.filter_sublist.map _).subset hmem), h.nosize _ hrowid]
  · have := update_derived (f := fun _ => (1 : ℤ)) (g := fun x => (x.1, set x.2))
      (p := fun x => sel x.2) s.rows add_sub_cancel_right 0
    rw [add_zero, add_zero, ← h.rowCount] at this
    rw [hcount, this]
  · have := update_derived (f := total e) (g := fun x => (x.1, set x.2))
      (p := fun x => sel x.2) s.rows add_sub_cancel_right 0
    rw [add_zero, add_zero, ← h.totals] at this
    rw [htotals, this]

theorem InStep.exec (h : InStep e s) (stmt : Statement) : InStep e (s.exec e stmt) := by
  cases stmt with
  | insert r =>
    rw [Indexed.exec]
    split
    · exact h
    · exact h.insert r
  | deletePersonal userId => exact h.delete _
  | update sel set => exact h.update sel set

/-- An empty index is in step with an empty table. -/
theorem inStep_empty : InStep e {} :=
  ⟨.nil, rfl, fun _ hx => (nomatch hx), fun _ _ => rfl, rfl, rfl⟩

/-- Any statements keep the index in step. -/
theorem InStep.run (h : InStep e s) (stmts : List Statement) : InStep e (s.run e stmts) := by
  induction stmts generalizing s with
  | nil => exact h
  | cons stmt stmts ih => exact ih (h.exec stmt)

/-- The raws after statements are as without an index. -/
theorem rows_run (s : Indexed) (stmts : List Statement) :
    (s.run e stmts).rows.map (·.2) = stmts.foldl execRaws (s.rows.map (·.2)) := by
  induction stmts generalizing s with
  | nil => rfl
  | cons stmt stmts ih =>
    refine (ih (s.exec e stmt)).trans (congrArg (fun raws => stmts.foldl execRaws raws) ?_)
    cases stmt with
    | insert r =>
      rw [Indexed.exec, execRaws]
      split
      · rfl
      · exact List.map_append
    | deletePersonal userId =>
      rw [Indexed.exec, execRaws, List.filter_map]
      refine congrArg _ (List.filter_congr fun x _ => ?_)
      simp
    | update sel set =>
      rw [Indexed.exec, execRaws, List.map_map, List.map_map]
      refine List.map_congr_left fun x _ => ?_
      simp only [Function.comp]
      split <;> rfl

/-! ## Searching -/

/-- What the rows with a rowid have in the index. -/
theorem filter_postings (rowid : ℕ) (rows : List (ℕ × Raw)) :
    (derived (postings e) rows).filter (·.1 = rowid) =
      derived (postings e) (rows.filter fun x => x.1 = rowid) := by
  induction rows with
  | nil => rfl
  | cons x rows ih =>
    rw [derived_cons, Multiset.filter_add, ih]
    by_cases hx : x.1 = rowid
    · have hall : (postings e x).filter (·.1 = rowid) = postings e x :=
        Multiset.filter_eq_self.2 fun i hi => by
          obtain ⟨j, -, rfl⟩ := List.mem_map.1 (Multiset.mem_coe.1 hi)
          exact hx
      rw [hall, List.filter_cons_of_pos (by simpa using hx), derived_cons]
    · have hnone : (postings e x).filter (·.1 = rowid) = 0 :=
        Multiset.filter_eq_nil.2 fun i hi => by
          obtain ⟨j, -, rfl⟩ := List.mem_map.1 (Multiset.mem_coe.1 hi)
          exact hx
      rw [hnone, zero_add, List.filter_cons_of_neg (by simpa using hx)]

/-- The terms indexed for a row are those in it. -/
theorem InStep.instances_eq (h : InStep e s) {x : ℕ × Raw} (hx : x ∈ s.rows) :
    s.index.instances x.1 = instances e x.2 := by
  rw [Index.instances, h.postings, filter_postings, Rows.filter_key_of_mem h.nodup hx, derived_cons]
  show Multiset.map (·.2) (FullText.postings e x + 0) = _
  rw [add_zero, FullText.postings, Multiset.map_coe, List.map_map]
  exact congrArg _ (List.map_id _)

/-- What is in the index is of a row that has it. -/
theorem mem_derived_postings {i : ℕ × Instance} :
    i ∈ derived (postings e) rows ↔ ∃ x ∈ rows, x.1 = i.1 ∧ i.2 ∈ instances e x.2 := by
  induction rows with
  | nil => simp [derived]
  | cons x rows ih =>
    rw [derived_cons, Multiset.mem_add, ih]
    have hx : i ∈ postings e x ↔ x.1 = i.1 ∧ i.2 ∈ instances e x.2 := by
      rw [postings, Multiset.mem_coe, List.mem_map]
      constructor
      · rintro ⟨j, hj, rfl⟩
        exact ⟨rfl, hj⟩
      · rintro ⟨he, hj⟩
        exact ⟨i.2, hj, by rw [he]⟩
    rw [hx]
    simp

/-- The index has the rowids of the rows that have terms. -/
theorem InStep.mem_rowids (h : InStep e s) {rowid : ℕ} :
    rowid ∈ s.index.rowids ↔ ∃ x ∈ s.rows, x.1 = rowid ∧ instances e x.2 ≠ [] := by
  rw [Index.rowids, Multiset.mem_toFinset, Multiset.mem_map, h.postings]
  constructor
  · rintro ⟨i, hi, rfl⟩
    obtain ⟨x, hx, he, hmem⟩ := mem_derived_postings.1 hi
    exact ⟨x, hx, he, List.ne_nil_of_mem hmem⟩
  · rintro ⟨x, hx, rfl, hne⟩
    obtain ⟨j, hj⟩ := List.exists_mem_of_ne_nil _ hne
    exact ⟨(x.1, j), mem_derived_postings.2 ⟨x, hx, rfl, hj⟩, rfl⟩

/-- The rows that match an expression. -/
def matching (e : Engine) (expr : String) (x : ℕ × Raw) : Bool := e.fts.isMatch expr x.2

/-- The rowids of some of the rows are sorted as well. -/
theorem InStep.sorted_filter (h : InStep e s) (p : ℕ × Raw → Bool) :
    ((s.rows.filter p).map (·.1)).SortedLT :=
  (h.sorted.sublist (List.filter_sublist.map _)).sortedLT

/-- The index gives the rowids of the rows that match. -/
theorem InStep.search_eq (h : InStep e s) (expr : String) :
    s.index.search e expr = (s.rows.filter (matching e expr)).map (·.1) := by
  have hleft : (s.index.search e expr).SortedLT :=
    ((s.index.rowids.sortedLT_sort).pairwise.filter _).sortedLT
  refine hleft.eq_of_mem_iff (h.sorted_filter _) fun rowid => ?_
  rw [Index.search, List.mem_filter, Finset.mem_sort, h.mem_rowids, List.mem_map]
  constructor
  · rintro ⟨⟨x, hx, rfl, hne⟩, hmatch⟩
    rw [h.instances_eq hx] at hmatch
    exact ⟨x, List.mem_filter.2 ⟨hx, decide_eq_true ⟨hne, hmatch⟩⟩, rfl⟩
  · rintro ⟨x, hx, rfl⟩
    obtain ⟨hx, hmatch⟩ := List.mem_filter.1 hx
    obtain ⟨hne, hmatch⟩ := of_decide_eq_true hmatch
    exact ⟨⟨x, hx, rfl, hne⟩, by rw [h.instances_eq hx]; exact hmatch⟩

/-- The rowids joined with their rows are these rows. -/
theorem InStep.join_eq (h : InStep e s) (p : ℕ × Raw → Bool) :
    ((s.rows.filter p).map (·.1)).filterMap (fun rowid => s.rows.find? fun x => x.1 = rowid) =
      s.rows.filter p := by
  rw [List.filterMap_map]
  have hfind : ∀ x ∈ s.rows.filter p,
      ((fun rowid => s.rows.find? fun x => x.1 = rowid) ∘ (·.1)) x = some x := fun x hx =>
    Rows.find?_key h.nodup (List.mem_filter.1 hx).1 rfl
  rw [List.filterMap_congr hfind, List.filterMap_some]

/-- The terms that the index has of its rows are those of the rows of the table, in its
    order. -/
theorem InStep.terms_eq (h : InStep e s) : s.index.rowids.val.map s.index.instances =
    ((s.rows.map (·.2)).filter fun r => instances e r ≠ []).map fun r =>
      ((instances e r : List Instance) : Multiset Instance) := by
  have hrowids : s.index.rowids =
      ((s.rows.filter fun x => instances e x.2 ≠ []).map (·.1)).toFinset := by
    ext rowid
    rw [h.mem_rowids, List.mem_toFinset, List.mem_map]
    constructor
    · rintro ⟨x, hx, he, hne⟩
      exact ⟨x, List.mem_filter.2 ⟨hx, decide_eq_true hne⟩, he⟩
    · rintro ⟨x, hx, he⟩
      obtain ⟨hx, hne⟩ := List.mem_filter.1 hx
      exact ⟨x, hx, he, of_decide_eq_true hne⟩
  have hnodup : ((s.rows.filter fun x => instances e x.2 ≠ []).map (·.1)).Nodup :=
    h.nodup.sublist (List.filter_sublist.map _)
  rw [hrowids, List.toFinset_val, hnodup.dedup, Multiset.map_coe, List.map_map, List.filter_map,
    List.map_map]
  refine congrArg _ (List.map_congr_left fun x hx => ?_)
  exact h.instances_eq (List.mem_filter.1 hx).1

/-- The number of rows, as it is kept. -/
theorem derived_one (rows : List (ℕ × Raw)) :
    derived (fun _ => (1 : ℤ)) rows = (rows.map (·.2)).length := by
  rw [derived, List.map_const', List.sum_replicate, List.length_map]
  simp

/-- The totals of the columns, as they are kept. -/
theorem derived_total (rows : List (ℕ × Raw)) : derived (total e) rows = fun column =>
    ((rows.map (·.2)).map fun r => ((sizes e r).getD column 0 : ℤ)).sum := by
  induction rows with
  | nil => rfl
  | cons x rows ih =>
    rw [derived_cons, ih]
    funext column
    rw [List.map_cons, List.map_cons, List.sum_cons]
    rfl

/-- The index ranks a row as the engine does. -/
theorem InStep.bm25_eq (h : InStep e s) (expr : String) {x : ℕ × Raw} (hx : x ∈ s.rows) :
    s.index.bm25 e expr x.1 = e.fts.bm25 expr (s.rows.map (·.2)) x.2 := by
  rw [Index.bm25, h.docsize x hx, h.instances_eq hx, h.terms_eq, h.rowCount, h.totals, derived_one,
    derived_total]
  rfl

/-- A search through the index is one on the rows. -/
theorem InStep.search (h : InStep e s) {db : Db} (hdb : db.raws = s.rows.map (·.2))
    (q : Search.SearchQuery) : s.search e q = Search.raws e.fts db q := by
  have hcand : ((s.rows.filter (matching e (Search.fts5Escape q.query))).filter fun x =>
      (∀ sc ∈ q.scope, x.2.scope = sc) ∧ ∀ o ∈ q.ownerId, x.2.ownerId = o).map (·.2) =
      Search.candidates e.fts db q := by
    rw [Search.candidates, hdb, List.filter_filter, List.filter_map]
    refine congrArg _ (List.filter_congr fun x _ => ?_)
    cases hm : e.fts.isMatch (Search.fts5Escape q.query) x.2 <;> simp [matching, hm]
  rw [Indexed.search, Search.raws, ← hcand, h.search_eq, h.join_eq, List.map_take]
  refine congrArg (List.take _) (List.map_insertionSort _ _ _ _ fun x hx y hy => ?_)
  have hmem : ∀ z ∈ (s.rows.filter (matching e (Search.fts5Escape q.query))).filter fun x =>
      (∀ sc ∈ q.scope, x.2.scope = sc) ∧ ∀ o ∈ q.ownerId, x.2.ownerId = o, z ∈ s.rows :=
    fun z hz => (List.mem_filter.1 (List.mem_filter.1 hz).1).1
  dsimp only
  rw [h.bm25_eq _ (hmem x hx), h.bm25_eq _ (hmem y hy), hdb]

/-- An insertion is one of the statements. -/
theorem raws_insert {db : Db} {r : Raw} (h : Raws.get db r.id = none) :
    (Raws.insert db r).raws = execRaws db.raws (.insert r) := by
  have hnew : db.raws.any (fun r' => r'.id = r.id) = false := by
    rw [List.any_eq_false]
    exact List.find?_eq_none.1 h
  rw [execRaws, if_neg (by rw [hnew]; decide)]
  rfl

theorem raws_deleteCascade (db : Db) (userId : String) :
    (Users.deleteCascade db userId).raws = execRaws db.raws (.deletePersonal userId) := rfl

/-- Whatever statements are executed, a search through the index finds what it would
    find in the rows without one, as the statements leave them. -/
theorem search_on_index (e : Engine) (stmts : List Statement) (db : Db) (q : Search.SearchQuery) :
    (Indexed.run e {} stmts).search e q =
      Search.raws e.fts { db with raws := stmts.foldl execRaws [] } q :=
  (inStep_empty.run stmts).search (rows_run {} stmts).symm q

/-- No term is indexed that is in none of the rows left, in particular none of a raw that
    was deleted. -/
theorem indexed_of_row (e : Engine) (stmts : List Statement) (i : ℕ × Instance) :
    i ∈ (Indexed.run e {} stmts).index.postings ↔
      ∃ x ∈ (Indexed.run e {} stmts).rows, x.1 = i.1 ∧ i.2 ∈ instances e x.2 := by
  rw [(inStep_empty.run stmts).postings]
  exact mem_derived_postings

end FullText

end LlmMemory
