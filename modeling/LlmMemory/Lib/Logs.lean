import Mathlib.Data.List.Induction

/-!
# Grounded logs

A log is the list of the events so far, the last one at the end. It is
*grounded* (`Grounded J`) if every event `e` in it meets a condition `J l e`
about the events `l` before it: what an event stands on happened before it,
and what it excludes did not.

* `Grounded.snoc`: a log is grounded event by event;
* `Grounded.trace_back`: what led to the first event of a subsequence extends
  the subsequence, so that an event is traced back to its origin, step by step;
* `Grounded.countP_le_one`: an event that excludes earlier ones of its kind
  happens at most once.
-/

namespace Logs

variable {ε : Type} {J : List ε → ε → Prop} {l : List ε} {e : ε}

/-- Every event of the log meets its condition on those before it. -/
def Grounded (J : List ε → ε → Prop) (l : List ε) : Prop :=
  ∀ l₁ e l₂, l = l₁ ++ e :: l₂ → J l₁ e

namespace Grounded

theorem nil : Grounded J [] := fun l₁ _ _ h => by
  cases l₁ <;> cases h

/-- One more event that may come after the others. -/
theorem snoc (h : Grounded J l) (he : J l e) : Grounded J (l ++ [e]) := fun l₁ e' l₂ heq => by
  rcases List.eq_nil_or_concat l₂ with rfl | ⟨l₂, e'', rfl⟩
  · obtain ⟨rfl, h'⟩ := List.append_inj' heq rfl
    cases h'
    exact he
  · rw [List.concat_eq_append, ← List.cons_append, ← List.append_assoc] at heq
    exact h l₁ e' l₂ (List.append_inj' heq rfl).1

/-- An event in the log came after some of the others. -/
theorem mem (h : Grounded J l) (he : e ∈ l) : ∃ l₁, l₁ ⊆ l ∧ J l₁ e := by
  obtain ⟨l₁, l₂, rfl⟩ := List.append_of_mem he
  exact ⟨l₁, List.subset_append_left _ _, h l₁ e l₂ rfl⟩

/-- The first event of a subsequence meets its condition, on the events before
    it. -/
theorem before {es : List ε} (h : Grounded J l) (hes : (e :: es).Sublist l) :
    ∃ l₁ l₂, l = l₁ ++ e :: l₂ ∧ J l₁ e ∧ es.Sublist l₂ := by
  obtain ⟨r₁, r₂, rfl, he, hr⟩ := List.cons_sublist_iff.1 hes
  obtain ⟨l₁, l₂, rfl⟩ := List.append_of_mem he
  refine ⟨l₁, l₂ ++ r₂, by simp, h l₁ e (l₂ ++ r₂) (by simp), ?_⟩
  exact hr.trans (List.sublist_append_right l₂ r₂)

/-- A subsequence of the events before extends the one at hand. -/
theorem trace_back {es : List ε} (h : Grounded J l) (hes : (e :: es).Sublist l) :
    ∃ l₁, l₁ <+: l ∧ J l₁ e ∧ ∀ xs : List ε, xs.Sublist l₁ → (xs ++ e :: es).Sublist l := by
  obtain ⟨l₁, l₂, rfl, he, hes⟩ := h.before hes
  exact ⟨l₁, List.prefix_append _ _, he, fun xs hxs => hxs.append (hes.cons_cons e)⟩

/-- An event excluding earlier ones of its kind happens at most once. -/
theorem countP_le_one {p : ε → Bool} (h : Grounded J l)
    (hp : ∀ l e, J l e → p e = true → ∀ e' ∈ l, p e' = false) : l.countP p ≤ 1 := by
  induction l using List.reverseRecOn with
  | nil => exact Nat.zero_le 1
  | append_singleton l e ih =>
    have hl : Grounded J l := fun l₁ e' l₂ heq => h l₁ e' (l₂ ++ [e]) (by simp [heq])
    rw [List.countP_append]
    cases hpe : p e with
    | false => simpa [hpe] using ih hl
    | true =>
      have hno : l.countP p = 0 := List.countP_eq_zero.2 fun e' he' =>
        Bool.eq_false_iff.1 (hp l e (h l e [] rfl) hpe e' he')
      simp [hpe, hno]

/-- What holds of an event if it holds of all those before it, holds of every event. -/
theorem induction {P : ε → Prop} (h : Grounded J l)
    (hP : ∀ l' e, l' ⊆ l → Grounded J l' → J l' e → (∀ e' ∈ l', P e') → P e) :
    ∀ e ∈ l, P e := by
  induction l using List.reverseRecOn with
  | nil => exact fun _ he => absurd he List.not_mem_nil
  | append_singleton l e ih =>
    have hl : Grounded J l := fun l₁ e' l₂ heq => h l₁ e' (l₂ ++ [e]) (by simp [heq])
    have hall : ∀ e' ∈ l, P e' := ih hl fun l' e' hsub =>
      hP l' e' (List.Subset.trans hsub (List.subset_append_left l [e]))
    intro e' he'
    rcases List.mem_append.1 he' with he' | he'
    · exact hall e' he'
    · rw [List.mem_singleton.1 he']
      exact hP l e (List.subset_append_left l [e]) hl (h l e [] rfl) hall

/-- If each event of a kind comes after less than `m` of them, there are `m` at most. -/
theorem countP_le {p : ε → Bool} {m : ℕ} (h : Grounded J l)
    (hp : ∀ l e, J l e → p e = true → l.countP p < m) : l.countP p ≤ m := by
  induction l using List.reverseRecOn with
  | nil => exact Nat.zero_le m
  | append_singleton l e ih =>
    have hl : Grounded J l := fun l₁ e' l₂ heq => h l₁ e' (l₂ ++ [e]) (by simp [heq])
    rw [List.countP_append, List.countP_singleton]
    split
    · next hpe => exact hp l e (h l e [] rfl) hpe
    · exact ih hl

end Grounded

end Logs
