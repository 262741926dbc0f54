import Mathlib.Data.List.Basic
import Mathlib.Data.List.MinMax
import Mathlib.Data.List.Nodup
import Mathlib.Data.Nat.Notation

/-!
# Maps of entries that expire

A map is the list of its entries, whose values `v` expire at the time `exp v`.
Every access first drops those that have expired (`retain`). A map holds at
most `cap` entries: one that is full makes room for a new entry by dropping
one of those that expire first, which one being up to the caller (`victim`).

* `mem_put`: an entry after an insertion is the new one, or an older one of
  another key;
* `take_some`: what is taken was in the map, and has not expired;
* `mem_take`: what remains is of other keys;
* `length_put`: the capacity is not exceeded;
* `eq_victim_of_put`: of the entries that have not expired, an insertion drops
  at most the victim, of a map that is full;
* `put_total`: there is always a victim to choose.
-/

namespace ExpiringMap

variable {κ α : Type} [DecidableEq κ] (exp : α → Int)

/-- Drop the entries that have expired. -/
def retain (now : Int) (m : List (κ × α)) : List (κ × α) := m.filter fun e => now < exp e.2

/-- The entries of the other keys. -/
def remove (key : κ) (m : List (κ × α)) : List (κ × α) := m.filter fun e => e.1 ≠ key

/-- The value of a key. -/
def get (key : κ) (m : List (κ × α)) : Option α := (m.find? fun e => e.1 = key).map (·.2)

/-- The entry of `key` is among those that expire first. -/
def IsOldest (key : κ) (m : List (κ × α)) : Prop :=
  ∃ e ∈ m, e.1 = key ∧ ∀ e' ∈ m, exp e.2 ≤ exp e'.2

instance (key : κ) (m : List (κ × α)) : Decidable (IsOldest exp key m) :=
  inferInstanceAs (Decidable (∃ e ∈ m, e.1 = key ∧ ∀ e' ∈ m, exp e.2 ≤ exp e'.2))

/-- Drop the entry of `victim`, one of those that expire first, if the map is
    full. -/
def makeRoom (cap : ℕ) (victim : κ) (m : List (κ × α)) : Option (List (κ × α)) :=
  if m.length < cap then some m
  else if IsOldest exp victim m then some (remove victim m) else none

/-- Insert an entry, in place of the one of its key. -/
def put (cap : ℕ) (victim : κ) (now : Int) (key : κ) (a : α) (m : List (κ × α)) :
    Option (List (κ × α)) :=
  (makeRoom exp cap victim (retain exp now m)).map fun m => remove key m ++ [(key, a)]

/-- Take the entry of a key out of the map. -/
def take (now : Int) (key : κ) (m : List (κ × α)) : Option α × List (κ × α) :=
  (get key (retain exp now m), remove key (retain exp now m))

variable {exp} {cap : ℕ} {victim key : κ} {now : Int} {a : α} {e : κ × α} {m m' : List (κ × α)}

omit [DecidableEq κ] in
/-- The entries that are kept have not expired. -/
theorem mem_retain : e ∈ retain exp now m ↔ e ∈ m ∧ now < exp e.2 := by simp [retain]

theorem mem_remove : e ∈ remove key m ↔ e ∈ m ∧ e.1 ≠ key := by simp [remove]

/-- A value that is found is in the map. -/
theorem mem_of_get (h : get key m = some a) : (key, a) ∈ m := by
  obtain ⟨e, he, rfl⟩ := Option.map_eq_some_iff.1 h
  obtain rfl : e.1 = key := by simpa using List.find?_some he
  exact List.mem_of_find?_eq_some he

/-- There is room already, or the victim goes. -/
theorem makeRoom_cases (h : makeRoom exp cap victim m = some m') :
    (m.length < cap ∧ m' = m) ∨
      (cap ≤ m.length ∧ IsOldest exp victim m ∧ m' = remove victim m) := by
  by_cases hlt : m.length < cap
  · rw [makeRoom, if_pos hlt] at h
    cases h
    exact .inl ⟨hlt, rfl⟩
  · rw [makeRoom, if_neg hlt] at h
    by_cases hold : IsOldest exp victim m
    · rw [if_pos hold] at h
      cases h
      exact .inr ⟨Nat.le_of_not_lt hlt, hold, rfl⟩
    · rw [if_neg hold] at h
      cases h

/-- Making room only removes entries. -/
theorem makeRoom_sublist (h : makeRoom exp cap victim m = some m') : m'.Sublist m := by
  rcases makeRoom_cases h with ⟨-, rfl⟩ | ⟨-, -, rfl⟩
  · exact .refl _
  · exact List.filter_sublist

/-- An entry after an insertion. -/
theorem mem_put (h : put exp cap victim now key a m = some m') (he : e ∈ m') :
    e = (key, a) ∨ (e ∈ m ∧ e.1 ≠ key) := by
  obtain ⟨m₁, h₁, rfl⟩ := Option.map_eq_some_iff.1 h
  rcases List.mem_append.1 he with he | he
  · obtain ⟨he, hk⟩ := mem_remove.1 he
    exact .inr ⟨(mem_retain.1 ((makeRoom_sublist h₁).subset he)).1, hk⟩
  · exact .inl (List.mem_singleton.1 he)

theorem mem_of_put (h : put exp cap victim now key a m = some m') : (key, a) ∈ m' := by
  obtain ⟨m₁, -, rfl⟩ := Option.map_eq_some_iff.1 h
  exact List.mem_append_right _ (List.mem_singleton.2 rfl)

/-- What is taken was in the map, and has not expired. -/
theorem take_some (h : (take exp now key m).1 = some a) : (key, a) ∈ m ∧ now < exp a :=
  mem_retain.1 (mem_of_get h)

/-- What is left by a taking is of other keys. -/
theorem mem_take (he : e ∈ (take exp now key m).2) : e ∈ m ∧ e.1 ≠ key :=
  ⟨(mem_retain.1 (mem_remove.1 he).1).1, (mem_remove.1 he).2⟩

/-- A map that keeps to its capacity still does after an insertion. -/
theorem length_put (h : put exp cap victim now key a m = some m')
    (hm : m.length ≤ cap) : m'.length ≤ cap := by
  obtain ⟨m₁, h₁, rfl⟩ := Option.map_eq_some_iff.1 h
  have hret : (retain exp now m).length ≤ m.length := List.length_filter_le _ _
  have hlt : m₁.length < cap := by
    rcases makeRoom_cases h₁ with ⟨hlt, rfl⟩ | ⟨-, ⟨e, he, hk, -⟩, rfl⟩
    · exact hlt
    · have : (remove victim (retain exp now m)).length < (retain exp now m).length :=
        List.length_filter_lt_length_iff_exists.2 ⟨e, he, by simp [hk]⟩
      omega
  have hrem : (remove key m₁).length ≤ m₁.length := List.length_filter_le _ _
  simp only [List.length_append, List.length_singleton]
  omega

/-- There is always a victim: one of the entries expires first. -/
theorem put_total (hcap : 0 < cap) : ∃ victim m', put exp cap victim now key a m = some m' := by
  by_cases hlt : (retain exp now m).length < cap
  · exact ⟨key, _, by rw [put, makeRoom, if_pos hlt]; rfl⟩
  · obtain ⟨e, he⟩ : ∃ e, e ∈ List.argmin (fun e => exp e.2) (retain exp now m) := by
      refine Option.ne_none_iff_exists'.1 fun hnone => hlt ?_
      rw [List.argmin_eq_none.1 hnone]
      exact hcap
    have hmin : ∀ e' ∈ retain exp now m, exp e.2 ≤ exp e'.2 := fun e' he' =>
      List.le_of_mem_argmin (f := fun e => exp e.2) he' he
    have hold : IsOldest exp e.1 (retain exp now m) := ⟨e, List.argmin_mem he, rfl, hmin⟩
    exact ⟨e.1, _, by rw [put, makeRoom, if_neg hlt, if_pos hold]; rfl⟩

/-! ## Maps with one entry for each key -/

/-- Removing an entry keeps the keys distinct. -/
theorem keys_remove (hm : (m.map (·.1)).Nodup) : ((remove key m).map (·.1)).Nodup :=
  hm.sublist (List.filter_sublist.map _)

omit [DecidableEq κ] in
theorem keys_retain (hm : (m.map (·.1)).Nodup) : ((retain exp now m).map (·.1)).Nodup :=
  hm.sublist (List.filter_sublist.map _)

theorem keys_take (hm : (m.map (·.1)).Nodup) : ((take exp now key m).2.map (·.1)).Nodup :=
  keys_remove (keys_retain hm)

theorem keys_put (h : put exp cap victim now key a m = some m') (hm : (m.map (·.1)).Nodup) :
    (m'.map (·.1)).Nodup := by
  obtain ⟨m₁, h₁, rfl⟩ := Option.map_eq_some_iff.1 h
  have hm₁ : (m₁.map (·.1)).Nodup :=
    (keys_retain hm).sublist ((makeRoom_sublist h₁).map _)
  rw [List.map_append, List.map_singleton, ← List.concat_eq_append, List.nodup_concat]
  refine ⟨fun hmem => ?_, keys_remove hm₁⟩
  obtain ⟨e, he, hk⟩ := List.mem_map.1 hmem
  exact (mem_remove.1 he).2 hk

omit [DecidableEq κ] in
/-- Entries of one key are the same if the keys are distinct. -/
theorem eq_of_key {e' : κ × α} (hm : (m.map (·.1)).Nodup) (he : e ∈ m) (he' : e' ∈ m)
    (hk : e.1 = e'.1) : e = e' :=
  List.inj_on_of_nodup_map hm he he' hk

/-- What there is under a key. -/
theorem get_eq_some_iff (hm : (m.map (·.1)).Nodup) : get key m = some a ↔ (key, a) ∈ m := by
  refine ⟨mem_of_get, fun hmem => ?_⟩
  obtain ⟨b, hb⟩ : ∃ b, get key m = some b := by
    refine Option.ne_none_iff_exists'.1 fun hnone => ?_
    have hfind := List.find?_eq_none.1 (Option.map_eq_none_iff.1 hnone) _ hmem
    simp at hfind
  have hba := eq_of_key hm (mem_of_get hb) hmem rfl
  rw [hb, (Prod.mk.inj hba).2]

/-- Of the entries that have not expired, an insertion drops at most the
    victim, one of those that expire first in a map that is full. -/
theorem eq_victim_of_put (h : put exp cap victim now key a m = some m')
    (hm : (m.map (·.1)).Nodup) (he : e ∈ m) (hexp : now < exp e.2) (hk : key ≠ e.1)
    (hgone : e ∉ m') : e.1 = victim ∧ cap ≤ (retain exp now m).length ∧
      ∀ e' ∈ m, now < exp e'.2 → exp e.2 ≤ exp e'.2 := by
  obtain ⟨m₁, h₁, rfl⟩ := Option.map_eq_some_iff.1 h
  have hret : e ∈ retain exp now m := mem_retain.2 ⟨he, hexp⟩
  have hgone₁ : e ∉ m₁ := fun hmem =>
    hgone (List.mem_append_left _ (mem_remove.2 ⟨hmem, hk.symm⟩))
  rcases makeRoom_cases h₁ with ⟨-, rfl⟩ | ⟨hfull, ⟨e₁, he₁, hk₁, hmin⟩, rfl⟩
  · exact absurd hret hgone₁
  · have hvictim : e.1 = victim := by
      by_contra hne
      exact hgone₁ (mem_remove.2 ⟨hret, hne⟩)
    obtain rfl : e₁ = e := eq_of_key (keys_retain hm) he₁ hret (hk₁.trans hvictim.symm)
    exact ⟨hvictim, hfull, fun e' he' hexp' => hmin e' (mem_retain.2 ⟨he', hexp'⟩)⟩

end ExpiringMap
