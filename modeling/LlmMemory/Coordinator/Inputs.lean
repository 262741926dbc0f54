import Mathlib.Data.Finset.Card
import LlmMemory.Coordinator.Worker

/-!
# Which raws the input of a synthesis takes

The input takes the raws that the references of the page name, then the new
raws, then those found, each id once, until it is full. So it takes every new
raw (`Feeds`) unless it is full before: of raws that the references name, or
that are new and come before (`LeftOut`), which takes more than `INPUT_LIMIT`
of both (`LeftOut.lt_length`).
-/

namespace LlmMemory.InputBuilder

variable {refs : List String} {rs out newRaws inputs : List Raw} {r : Raw}

/-- A raw is seen if there is one of its id. -/
@[simp]
theorem seen_iff {id : String} : seen out id = true ↔ ∃ x ∈ out, x.id = id := by simp [seen]

/-- The raw `r` is left out of an input full of others, each named by the
    references, or new and before `r`. -/
structure LeftOut (refs : List String) (newRaws inputs : List Raw) (r : Raw) : Prop where
  full : inputs.length = INPUT_LIMIT
  nodup : (inputs.map (·.id)).Nodup
  others : ∀ x ∈ inputs, x.id ≠ r.id ∧ (x.id ∈ refs ∨ x ∈ newRaws.takeWhile (·.id ≠ r.id))

/-- The input takes the new raws, but for those left out. -/
def Feeds (refs : List String) (newRaws inputs : List Raw) : Prop :=
  ∀ r ∈ newRaws, seen inputs r.id = true ∨ LeftOut refs newRaws inputs r

/-- A raw that is left out is not seen. -/
theorem LeftOut.not_seen (h : LeftOut refs newRaws inputs r) : seen inputs r.id = false :=
  Bool.eq_false_iff.2 fun hs =>
    let ⟨x, hx, he⟩ := seen_iff.1 hs
    (h.others x hx).1 he

/-- New raws are only left out if there are too many ids. -/
theorem LeftOut.lt_length (h : LeftOut refs newRaws inputs r) (hr : r ∈ newRaws) :
    INPUT_LIMIT < (refs ++ newRaws.map (·.id)).dedup.length := by
  have hsub : insert r.id (inputs.map (·.id)).toFinset ⊆ (refs ++ newRaws.map (·.id)).toFinset := by
    intro id hid
    rw [List.mem_toFinset, List.mem_append]
    rcases Finset.mem_insert.1 hid with rfl | hid
    · exact .inr (List.mem_map_of_mem hr)
    · obtain ⟨x, hx, rfl⟩ := List.mem_map.1 (List.mem_toFinset.1 hid)
      exact (h.others x hx).2.imp_right fun hx => List.mem_map_of_mem (List.takeWhile_subset _ hx)
  have hnot : r.id ∉ (inputs.map (·.id)).toFinset := fun hid => by
    obtain ⟨x, hx, he⟩ := List.mem_map.1 (List.mem_toFinset.1 hid)
    exact (h.others x hx).1 he
  have hcard := Finset.card_le_card hsub
  rw [Finset.card_insert_of_notMem hnot, List.toFinset_card_of_nodup h.nodup, List.length_map,
    h.full, List.card_toFinset] at hcard
  omega

/-- The raws loaded so far are named by the references, each once. -/
structure FromRefs (refs : List String) (out : List Raw) : Prop where
  named : ∀ x ∈ out, x.id ∈ refs
  nodup : (out.map (·.id)).Nodup
  limit : out.length ≤ INPUT_LIMIT

theorem nodup_append (h : (out.map (·.id)).Nodup) (hs : seen out r.id = false) :
    ((out ++ [r]).map (·.id)).Nodup := by
  rw [List.map_append, List.map_singleton, ← List.concat_eq_append]
  refine h.concat fun hm => ?_
  obtain ⟨x, hx, he⟩ := List.mem_map.1 hm
  exact Bool.false_ne_true (hs.symm.trans (seen_iff.2 ⟨x, hx, he⟩))

theorem FromRefs.append (h : FromRefs refs out) (hl : out.length < INPUT_LIMIT)
    (hs : seen out r.id = false) (hr : r.id ∈ refs) : FromRefs refs (out ++ [r]) := by
  refine ⟨fun x hx => ?_, nodup_append h.nodup hs, ?_⟩
  · rcases List.mem_append.1 hx with hx | hx
    · exact h.named x hx
    · rw [List.mem_singleton.1 hx]
      exact hr
  · rw [List.length_append]
    exact hl

/-! ## Taking raws -/

/-- The raws taken are those before, and some of the others. -/
theorem mem_takeUnseen (h : r ∈ takeUnseen rs out) : r ∈ out ∨ r ∈ rs := by
  induction rs generalizing out with
  | nil => exact .inl h
  | cons r' rs ih =>
    rw [takeUnseen] at h
    have hcons : ∀ {out' : List Raw}, r ∈ out' ∨ r ∈ rs → (r ∈ out' → r ∈ out ∨ r = r') →
        r ∈ out ∨ r ∈ r' :: rs := fun h h' => by
      rcases h with h | h
      · exact (h' h).imp_right fun e => List.mem_cons.2 (.inl e)
      · exact .inr (List.mem_cons_of_mem _ h)
    have happ : r ∈ out ++ [r'] → r ∈ out ∨ r = r' := fun h => by simpa using h
    split at h
    · exact hcons (ih h) .inl
    · split at h
      · exact hcons (.inl h) happ
      · exact hcons (ih h) happ

theorem mem_takeUnseen_of_mem (h : r ∈ out) : r ∈ takeUnseen rs out := by
  induction rs generalizing out with
  | nil => exact h
  | cons r' rs ih =>
    rw [takeUnseen]
    split
    · exact ih h
    · split
      · exact List.mem_append_left _ h
      · exact ih (List.mem_append_left _ h)

/-- The ids stay distinct when raws are taken. -/
theorem nodup_takeUnseen (h : (out.map (·.id)).Nodup) :
    ((takeUnseen rs out).map (·.id)).Nodup := by
  induction rs generalizing out with
  | nil => exact h
  | cons r rs ih =>
    rw [takeUnseen]
    split
    · exact ih h
    · rename_i hs
      have happ := nodup_append h (Bool.eq_false_iff.2 hs)
      split
      · exact happ
      · exact ih happ

/-- A raw is taken, unless the limit is reached with the raws before it. -/
theorem takeUnseen_takes (hl : out.length < INPUT_LIMIT) (hr : r ∈ rs) :
    seen (takeUnseen rs out) r.id = true ∨ ((takeUnseen rs out).length = INPUT_LIMIT ∧
      ∀ x ∈ takeUnseen rs out, x ∈ out ∨ x ∈ rs.takeWhile (·.id ≠ r.id)) := by
  induction rs generalizing out with
  | nil => cases hr
  | cons y rs ih =>
    by_cases hy : y.id = r.id
    · -- `r`, or one of its id
      refine .inl (seen_iff.2 ?_)
      rw [takeUnseen]
      split
      · rename_i hs
        obtain ⟨x, hx, he⟩ := seen_iff.1 hs
        exact ⟨x, mem_takeUnseen_of_mem hx, he.trans hy⟩
      · have hmem : y ∈ out ++ [y] := List.mem_append_right _ (List.mem_singleton_self y)
        split
        · exact ⟨y, hmem, hy⟩
        · exact ⟨y, mem_takeUnseen_of_mem hmem, hy⟩
    -- another row, which may fill the input before `r` is reached
    · have hr' : r ∈ rs := (List.mem_cons.1 hr).resolve_left fun e => hy (e ▸ rfl)
      rw [List.takeWhile_cons_of_pos (by simpa using hy), takeUnseen]
      split
      · refine (ih hl hr').imp_right fun ⟨hfull, h⟩ => ⟨hfull, fun x hx => ?_⟩
        exact (h x hx).imp_right (List.mem_cons_of_mem _)
      · have happ : ∀ x ∈ out ++ [y], x ∈ out ∨ x ∈ y :: rs.takeWhile (·.id ≠ r.id) :=
          fun x hx => (List.mem_append.1 hx).imp_right fun hx => by
            rw [List.mem_singleton.1 hx]
            exact List.mem_cons_self
        split
        · rename_i hlim
          refine .inr ⟨le_antisymm ?_ hlim, happ⟩
          rw [List.length_append]
          exact hl
        · rename_i hlim
          refine (ih (not_le.1 hlim) hr').imp_right fun ⟨hfull, h⟩ => ⟨hfull, fun x hx => ?_⟩
          rcases h x hx with hx | hx
          · exact happ x hx
          · exact .inr (List.mem_cons_of_mem _ hx)

/-! ## The input -/

/-- An input full of raws that the references name. -/
theorem FromRefs.feeds (h : FromRefs refs out) (hfull : INPUT_LIMIT ≤ out.length) :
    Feeds refs newRaws out := fun r _ => by
  by_cases hs : seen out r.id = true
  · exact .inl hs
  · refine .inr ⟨le_antisymm h.limit hfull, h.nodup, fun x hx => ⟨fun he => ?_, .inl (h.named x hx)⟩⟩
    exact hs (seen_iff.2 ⟨x, hx, he⟩)

/-- An input of such raws and the new ones. -/
theorem FromRefs.feeds_takeUnseen (h : FromRefs refs out) (hl : out.length < INPUT_LIMIT) :
    Feeds refs newRaws (takeUnseen newRaws out) := fun r hr => by
  by_cases hs : seen (takeUnseen newRaws out) r.id = true
  · exact .inl hs
  · obtain ⟨hfull, hmem⟩ := (takeUnseen_takes hl hr).resolve_left hs
    refine .inr ⟨hfull, nodup_takeUnseen h.nodup, fun x hx => ⟨fun he => ?_, ?_⟩⟩
    · exact hs (seen_iff.2 ⟨x, hx, he⟩)
    · exact (hmem x hx).imp_left (h.named x)

/-- An input that is not full takes all new raws, and may take others then. -/
theorem Feeds.takeUnseen (h : Feeds refs newRaws out) (hl : ¬ INPUT_LIMIT ≤ out.length) :
    Feeds refs newRaws (takeUnseen rs out) := fun r hr => by
  rcases h r hr with hs | hs
  · obtain ⟨x, hx, he⟩ := seen_iff.1 hs
    exact .inl (seen_iff.2 ⟨x, mem_takeUnseen_of_mem hx, he⟩)
  · exact absurd hs.full.ge hl

end LlmMemory.InputBuilder
