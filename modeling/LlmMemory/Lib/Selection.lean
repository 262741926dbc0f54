import Mathlib.Data.List.Nodup
import Mathlib.Data.List.Perm.Subperm
import Mathlib.Data.List.Sort

/-!
# First occurrences, and stable sorting

Of a list whose elements may have a key, `keepFirst` keeps the first element of
each key, and those without one. A sort that is stable (`insertionSort_stable`)
puts the elements kept in order; a part of them is what a limit leaves.

* `mem_keepFirst_or`: what is not kept has the key of an earlier one that is;
* `keepFirst_append`: a list after another, if the keys of each are distinct;
* `take_keepFirst`: the first elements of that, from the first ones of both.
-/

namespace Selection

variable {α β κ : Type} [DecidableEq κ]

/-- The elements without a key, and those with a key that is neither in `seen` nor
    that of an earlier element. -/
def keepFirst (key : α → Option κ) (seen : List κ) : List α → List α
  | [] => []
  | a :: l =>
    match key a with
    | none => a :: keepFirst key seen l
    | some k => if k ∈ seen then keepFirst key seen l else a :: keepFirst key (k :: seen) l

section KeepFirst

variable {key : α → Option κ} {seen seen' : List κ} {l : List α} {a : α}

/-- An element without a key is kept. -/
theorem keepFirst_none (ha : key a = none) :
    keepFirst key seen (a :: l) = a :: keepFirst key seen l := by
  rw [keepFirst, ha]

/-- An element with a key is kept if the key is new. -/
theorem keepFirst_some {k : κ} (ha : key a = some k) : keepFirst key seen (a :: l) =
    if k ∈ seen then keepFirst key seen l else a :: keepFirst key (k :: seen) l := by
  rw [keepFirst, ha]

/-- The elements that are kept are in their order. -/
theorem keepFirst_sublist : (keepFirst key seen l).Sublist l := by
  induction l generalizing seen with
  | nil => exact .slnil
  | cons a l ih =>
    match ha : key a with
    | none =>
      rw [keepFirst_none ha]
      exact ih.cons_cons a
    | some k =>
      rw [keepFirst_some ha]
      split
      · exact ih.cons a
      · exact ih.cons_cons a

/-- The elements kept have keys that are not in `seen`. -/
theorem notMem_seen {k : κ} (ha : a ∈ keepFirst key seen l) (hk : key a = some k) : k ∉ seen := by
  induction l generalizing seen with
  | nil => exact absurd ha List.not_mem_nil
  | cons b l ih =>
    match hb : key b with
    | none =>
      rw [keepFirst_none hb] at ha
      rcases List.mem_cons.1 ha with rfl | ha
      · rw [hb] at hk
        cases hk
      · exact ih ha
    | some k' =>
      rw [keepFirst_some hb] at ha
      split at ha
      · exact ih ha
      · next hk' =>
        rcases List.mem_cons.1 ha with rfl | ha
        · rw [hb] at hk
          exact Option.some.inj hk ▸ hk'
        · exact fun hmem => ih ha (List.mem_cons_of_mem _ hmem)

/-- No two of the elements kept have the same key. -/
theorem pairwise_keepFirst :
    (keepFirst key seen l).Pairwise fun a b => ∀ k, key a = some k → key b ≠ some k := by
  induction l generalizing seen with
  | nil => exact .nil
  | cons a l ih =>
    match ha : key a with
    | none =>
      rw [keepFirst_none ha]
      refine List.pairwise_cons.2 ⟨fun b _ k hk => ?_, ih⟩
      rw [ha] at hk
      cases hk
    | some k =>
      rw [keepFirst_some ha]
      split
      · exact ih
      · refine List.pairwise_cons.2 ⟨fun b hb k' hk' hbk => ?_, ih⟩
        rw [ha] at hk'
        exact notMem_seen hb hbk (Option.some.inj hk' ▸ List.mem_cons_self)

/-- An element that is not kept has a key in `seen`, or that of an earlier one. -/
theorem mem_keepFirst_or {s : α → α → Prop} (hs : l.Pairwise s) (ha : a ∈ l) :
    a ∈ keepFirst key seen l ∨
      ∃ k, key a = some k ∧ (k ∈ seen ∨ ∃ b ∈ l, s b a ∧ key b = some k) := by
  induction l generalizing seen with
  | nil => exact absurd ha List.not_mem_nil
  | cons b l ih =>
    obtain ⟨hb, hl⟩ := List.pairwise_cons.1 hs
    -- what was seen before the rest was seen before the list, or is the key of its head
    have htail : ∀ {seen' : List κ}, a ∈ l → (∀ k ∈ seen', k ∈ seen ∨ key b = some k) →
        a ∈ keepFirst key seen' l ∨
          ∃ k, key a = some k ∧ (k ∈ seen ∨ ∃ c ∈ b :: l, s c a ∧ key c = some k) := by
      intro seen' ha hseen
      refine (ih hl ha).imp_right ?_
      rintro ⟨k, hk, hmem | ⟨c, hc, hca, hck⟩⟩
      · refine ⟨k, hk, (hseen k hmem).imp_right fun hbk => ?_⟩
        exact ⟨b, List.mem_cons_self, hb a ha, hbk⟩
      · exact ⟨k, hk, .inr ⟨c, List.mem_cons_of_mem _ hc, hca, hck⟩⟩
    match hkey : key b with
    | none =>
      rw [keepFirst_none hkey]
      rcases List.mem_cons.1 ha with rfl | ha
      · exact .inl List.mem_cons_self
      · exact (htail ha fun _ => .inl).imp_left (List.mem_cons_of_mem _)
    | some k =>
      rw [keepFirst_some hkey]
      split
      · next hmem =>
        rcases List.mem_cons.1 ha with rfl | ha
        · exact .inr ⟨k, hkey, .inl hmem⟩
        · exact htail ha fun _ => .inl
      · rcases List.mem_cons.1 ha with rfl | ha
        · exact .inl List.mem_cons_self
        · refine (htail ha fun k' hk' => ?_).imp_left (List.mem_cons_of_mem _)
          rcases List.mem_cons.1 hk' with rfl | hk'
          · exact .inr hkey
          · exact .inl hk'

/-- The order of the keys in `seen` does not matter. -/
theorem keepFirst_congr (h : ∀ k, k ∈ seen ↔ k ∈ seen') :
    keepFirst key seen l = keepFirst key seen' l := by
  induction l generalizing seen seen' with
  | nil => rfl
  | cons a l ih =>
    match ha : key a with
    | none => rw [keepFirst_none ha, keepFirst_none ha, ih h]
    | some k =>
      have hcons : ∀ k', k' ∈ k :: seen ↔ k' ∈ k :: seen' := fun k' => by
        rw [List.mem_cons, List.mem_cons, h k']
      simp only [keepFirst_some ha, h k, ih h, ih hcons]

/-- Elements are kept by the keys of their images. -/
theorem map_keepFirst {f : β → α} {l : List β} :
    (keepFirst (fun b => key (f b)) seen l).map f = keepFirst key seen (l.map f) := by
  induction l generalizing seen with
  | nil => rfl
  | cons b l ih =>
    match hb : key (f b) with
    | none => simp only [keepFirst, hb, List.map_cons, ih]
    | some k =>
      simp only [keepFirst, hb, List.map_cons]
      split
      · exact ih
      · rw [List.map_cons, ih]

end KeepFirst

/-! ## Keys that are always there -/

section Keyed

variable {key : α → κ} {seen : List κ} {l l' : List α}

theorem keepFirst_cons {a : α} : keepFirst (fun a => some (key a)) seen (a :: l) =
    if key a ∈ seen then keepFirst (fun a => some (key a)) seen l
    else a :: keepFirst (fun a => some (key a)) (key a :: seen) l :=
  rfl

/-- What is kept of one list after another. -/
theorem keepFirst_append_seen : keepFirst (fun a => some (key a)) seen (l ++ l') =
    keepFirst (fun a => some (key a)) seen l ++ keepFirst (fun a => some (key a))
      ((keepFirst (fun a => some (key a)) seen l).map key ++ seen) l' := by
  induction l generalizing seen with
  | nil => rfl
  | cons a l ih =>
    rw [List.cons_append, keepFirst_cons, keepFirst_cons]
    split
    · exact ih
    · rw [ih, List.map_cons, List.cons_append, List.cons_append]
      congr 1
      refine congrArg _ (keepFirst_congr fun k => ?_)
      simp only [List.mem_append, List.mem_cons]
      tauto

/-- The keys kept are distinct. -/
theorem nodup_map_keepFirst : ((keepFirst (fun a => some (key a)) seen l).map key).Nodup := by
  refine List.pairwise_map.2 (pairwise_keepFirst.imp fun hab => ?_)
  exact fun he => hab _ rfl (congrArg some he.symm)

/-- The elements with distinct keys, after those with the keys in `seen`. -/
theorem keepFirst_eq_filter (h : (l.map key).Nodup) :
    keepFirst (fun a => some (key a)) seen l = l.filter fun a => key a ∉ seen := by
  induction l generalizing seen with
  | nil => rfl
  | cons a l ih =>
    obtain ⟨ha, hl⟩ := List.nodup_cons.1 h
    rw [keepFirst_cons, ih hl, ih hl, List.filter_cons]
    split
    · next hmem => simp [hmem]
    · next hmem =>
      have hcongr : l.filter (fun b => key b ∉ key a :: seen) =
          l.filter fun b => key b ∉ seen := by
        refine List.filter_congr fun b hb => ?_
        have hne : key b ≠ key a := fun he => ha (he ▸ List.mem_map_of_mem hb)
        simp [hne]
      rw [hcongr, if_pos (decide_eq_true hmem)]

/-- After elements of distinct keys, those of other keys are kept. -/
theorem keepFirst_append_filter (h : (l.map key).Nodup) (hseen : ∀ a ∈ l, key a ∉ seen) :
    keepFirst (fun a => some (key a)) seen (l ++ l') =
      l ++ keepFirst (fun a => some (key a)) ((l.map key).reverse ++ seen) l' := by
  induction l generalizing seen with
  | nil => rfl
  | cons a l ih =>
    obtain ⟨ha, hl⟩ := List.nodup_cons.1 h
    rw [List.cons_append, keepFirst_cons, if_neg (hseen a List.mem_cons_self), ih hl]
    · simp
    · intro b hb hmem
      rcases List.mem_cons.1 hmem with he | hmem
      · exact ha (he ▸ List.mem_map_of_mem hb)
      · exact hseen b (List.mem_cons_of_mem _ hb) hmem

/-- The elements of a list, and those of another whose keys are not among theirs. -/
theorem keepFirst_append (h : (l.map key).Nodup) (h' : (l'.map key).Nodup) :
    keepFirst (fun a => some (key a)) [] (l ++ l') =
      l ++ l'.filter fun a => key a ∉ l.map key := by
  rw [keepFirst_append_filter h fun _ _ => List.not_mem_nil, keepFirst_eq_filter h']
  simp

/-- As many elements are left out of the second list as there are in the first, at
    most. -/
theorem length_filter_mem_le (h' : (l'.map key).Nodup) :
    (l'.filter fun a => key a ∈ l.map key).length ≤ l.length := by
  have hnodup : ((l'.filter fun a => key a ∈ l.map key).map key).Nodup :=
    h'.sublist ((List.filter_sublist).map key)
  have hsub : (l'.filter fun a => key a ∈ l.map key).map key ⊆ l.map key := by
    intro k hk
    obtain ⟨a, ha, rfl⟩ := List.mem_map.1 hk
    exact of_decide_eq_true (List.mem_filter.1 ha).2
  have hle := (List.subperm_of_subset hnodup hsub).length_le
  rwa [List.length_map, List.length_map] at hle

/-- The first `n` elements only depend on the first `n` of each list. -/
theorem take_keepFirst (h : (l.map key).Nodup) (h' : (l'.map key).Nodup) (n : ℕ) :
    (keepFirst (fun a => some (key a)) [] (l.take n ++ l'.take n)).take n =
      (l ++ l'.filter fun a => key a ∉ l.map key).take n := by
  have hnodup : ∀ {l : List α}, (l.map key).Nodup → ((l.take n).map key).Nodup :=
    fun h => h.sublist ((List.take_sublist _ _).map key)
  rw [keepFirst_append (hnodup h) (hnodup h')]
  rcases Nat.le_total n l.length with hle | hle
  · -- the first list is long enough
    have hlen : (l.take n).length = n := List.length_take_of_le hle
    rw [List.take_append_of_le_length hlen.ge, List.take_append_of_le_length hle, List.take_take,
      min_self]
  · rw [List.take_of_length_le hle, List.take_append, List.take_append, List.take_of_length_le hle]
    congr 1
    conv_rhs => rw [← List.take_append_drop n l', List.filter_append]
    rcases Nat.le_total l'.length n with hle' | hle'
    · rw [List.drop_eq_nil_of_le hle', List.filter_nil, List.append_nil]
    · -- enough of the second list are left
      refine (List.take_append_of_le_length ?_).symm
      have hsplit := List.length_eq_length_filter_add (l := l'.take n)
        fun a => decide (key a ∈ l.map key)
      have hout := length_filter_mem_le (l := l) (hnodup h')
      have hlen : (l'.take n).length = n := List.length_take_of_le hle'
      simp only [decide_not]
      omega

end Keyed

/-! ## Sorting -/

section Sorting

variable {r s : α → α → Prop} [DecidableRel r] [IsTrans α r] [Std.Total r] {l : List α}

/-- The sort is stable: elements that are alike to it stay in their order. -/
theorem insertionSort_stable (h : l.Pairwise s) :
    (l.insertionSort r).Pairwise fun a b => r a b ∧ (r b a → s a b) := by
  induction l with
  | nil => exact .nil
  | cons a l ih =>
    obtain ⟨ha, hl⟩ := List.pairwise_cons.1 h
    have hmem : ∀ b ∈ l.insertionSort r, s a b := fun b hb => ha b ((List.mem_insertionSort r).1 hb)
    have hsorted := ih hl
    rw [List.insertionSort_cons]
    generalize l.insertionSort r = l' at hmem hsorted
    clear ih h ha hl
    induction l' with
    | nil => exact List.pairwise_singleton _ _
    | cons b l' ih =>
      obtain ⟨hb, hl'⟩ := List.pairwise_cons.1 hsorted
      rw [List.orderedInsert_cons]
      split
      · next hab =>
        refine List.pairwise_cons.2 ⟨fun c hc => ⟨?_, fun _ => hmem c hc⟩, hsorted⟩
        rcases List.mem_cons.1 hc with rfl | hc
        · exact hab
        · exact trans_of r hab (hb c hc).1
      · next hab =>
        have hba : r b a := (Std.Total.total a b).resolve_left hab
        refine List.pairwise_cons.2 ⟨fun c hc => ?_, ih (fun c hc =>
          hmem c (List.mem_cons_of_mem _ hc)) hl'⟩
        rcases (List.mem_orderedInsert r).1 hc with rfl | hc
        · exact ⟨hba, fun hab' => absurd hab' hab⟩
        · exact hb c hc

end Sorting

end Selection
