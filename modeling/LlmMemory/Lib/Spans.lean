import Mathlib.Algebra.Ring.Nat
import Mathlib.Data.List.Basic
import Mathlib.Data.Nat.Basic
import Mathlib.Order.Basic

/-!
# Spans of a text

The *occurrences* of a text in another are the positions at which it is there
(`OccursAt`), where `ok` accepts what is before it and what is after it. Of the
occurrences, from left to right, each one is a *match* that does not start within
the match before it (`matchesFrom`). A text is rewritten by replacing its spans at
some positions, and copying the rest (`splice`).

* `matchesFrom_cons`, `matchesFrom_skip`: how a search finds the matches, one after
  the other;
* `overlaps_match`: every occurrence is a match, or starts within one;
* `splice_eq_self`: the replacement of spans by what they are;
* `Layer.getElem?_applyAll`: the elements of a text that is rewritten again and again,
  if the sizes stay;
* `Mixed.antisymm`: if each text is as the one before it or as a last one, at each
  position, then none is again as one before it that differs.
-/

namespace Spans

variable {α : Type}

/-- The part of `text` of size `m` at the position `i`. -/
def span (m : ℕ) (text : List α) (i : ℕ) : List α := (text.drop i).take m

/-- The text from the position `cursor` on, with the spans of size `m` at the positions
    replaced, each by what is `new` there. -/
def splice (m : ℕ) (new : ℕ → List α) (text : List α) : ℕ → List ℕ → List α
  | cursor, [] => text.drop cursor
  | cursor, i :: is => (text.take i).drop cursor ++ new i ++ splice m new text (i + m) is

/-- Of positions in order, those that are not before `next`, nor within the span of
    size `m` at the one before. -/
def spaced (m : ℕ) : ℕ → List ℕ → List ℕ
  | _, [] => []
  | next, i :: is => if next ≤ i then i :: spaced m (i + m) is else spaced m next is

/-- The spans of size `m` at the positions, none before `next`, do not overlap, and are
    in a text of size `n`. -/
def Spaced (m n : ℕ) : ℕ → List ℕ → Prop
  | _, [] => True
  | next, i :: is => next ≤ i ∧ i + m ≤ n ∧ Spaced m n (i + m) is

/-! ## Positions in order -/

section Positions

variable {m n next next' i : ℕ} {is : List ℕ}

/-- The places that are kept are among those given. -/
theorem mem_spaced (h : i ∈ spaced m next is) : i ∈ is := by
  induction is generalizing next with
  | nil => exact absurd h List.not_mem_nil
  | cons j is ih =>
    rw [spaced] at h
    split at h
    · exact (List.mem_cons.1 h).elim (fun he => he ▸ List.mem_cons_self)
        fun h => List.mem_cons_of_mem _ (ih h)
    · exact List.mem_cons_of_mem _ (ih h)

theorem spaced_spaced (h : ∀ i ∈ is, i + m ≤ n) : Spaced m n next (spaced m next is) := by
  induction is generalizing next with
  | nil => trivial
  | cons i is ih =>
    obtain ⟨hi, his⟩ := List.forall_mem_cons.1 h
    rw [spaced]
    split
    · next hle => exact ⟨hle, hi, ih his⟩
    · exact ih his

theorem Spaced.mono (h : Spaced m n next is) (hle : next' ≤ next) : Spaced m n next' is := by
  cases is with
  | nil => trivial
  | cons i is => exact ⟨hle.trans h.1, h.2⟩

/-- A place is not before the first one, and ends within the text. -/
theorem Spaced.le (h : Spaced m n next is) (hi : i ∈ is) : next ≤ i ∧ i + m ≤ n := by
  induction is generalizing next with
  | nil => exact absurd hi List.not_mem_nil
  | cons j is ih =>
    rcases List.mem_cons.1 hi with rfl | hi
    · exact ⟨h.1, h.2.1⟩
    · exact (ih h.2.2 hi).imp_left fun hle => (h.1.trans (Nat.le_add_right _ _)).trans hle

/-- If none of the positions is between the two, it does not matter from which one the
    search goes. -/
theorem spaced_skip (hle : next ≤ next') (h : ∀ i ∈ is, next ≤ i → next' ≤ i) :
    spaced m next is = spaced m next' is := by
  induction is with
  | nil => rfl
  | cons i is ih =>
    obtain ⟨hi, his⟩ := List.forall_mem_cons.1 h
    rw [spaced, spaced]
    by_cases hn : next ≤ i
    · rw [if_pos hn, if_pos (hi hn)]
    · rw [if_neg hn, if_neg fun hn' => hn (hle.trans hn'), ih his]

/-- The first position that is not before `next`. -/
theorem spaced_cons (hsorted : is.Pairwise (· < ·)) (hmem : i ∈ is) (hnext : next ≤ i)
    (hm : 0 < m) (h : ∀ j ∈ is, next ≤ j → i ≤ j) :
    spaced m next is = i :: spaced m (i + m) is := by
  induction is with
  | nil => exact absurd hmem List.not_mem_nil
  | cons j is ih =>
    obtain ⟨hj, his⟩ := List.pairwise_cons.1 hsorted
    obtain ⟨hfirst, hrest⟩ := List.forall_mem_cons.1 h
    by_cases hn : next ≤ j
    · have heq : i = j := by
        rcases List.mem_cons.1 hmem with rfl | hmem
        · rfl
        · exact absurd (hj i hmem) (Nat.not_lt.2 (hfirst hn))
      subst heq
      rw [spaced, if_pos hn, spaced, if_neg (by omega)]
    · have hne : i ≠ j := fun heq => hn (heq ▸ hnext)
      rw [spaced, if_neg hn, ih his ((List.mem_cons.1 hmem).resolve_left hne) hrest, spaced,
        if_neg (by omega)]

/-- Every position that is not before `next` is kept, or within the span of one that
    is. -/
theorem mem_spaced_or (hsorted : is.Pairwise (· < ·)) (hmem : i ∈ is) (hnext : next ≤ i) :
    i ∈ spaced m next is ∨ ∃ j ∈ spaced m next is, j < i ∧ i < j + m := by
  induction is generalizing next with
  | nil => exact absurd hmem List.not_mem_nil
  | cons j is ih =>
    obtain ⟨hj, his⟩ := List.pairwise_cons.1 hsorted
    rw [spaced]
    split
    · rcases List.mem_cons.1 hmem with rfl | hmem
      · exact .inl List.mem_cons_self
      · by_cases hin : i < j + m
        · exact .inr ⟨j, List.mem_cons_self, hj i hmem, hin⟩
        · refine (ih his hmem (Nat.not_lt.1 hin)).imp (List.mem_cons_of_mem _) ?_
          rintro ⟨k, hk, hik⟩
          exact ⟨k, List.mem_cons_of_mem _ hk, hik⟩
    · next hn =>
      rcases List.mem_cons.1 hmem with rfl | hmem
      · exact absurd hnext hn
      · exact ih his hmem hnext

end Positions

/-! ## Rewriting -/

section Splice

variable {m next cursor : ℕ} {new : ℕ → List α} {text : List α} {is : List ℕ}

/-- What is copied first. -/
theorem splice_from (hle : cursor ≤ next) (hspaced : Spaced m text.length next is)
    (hnext : next ≤ text.length) :
    splice m new text cursor is = (text.take next).drop cursor ++ splice m new text next is := by
  have hcopy : ∀ i, next ≤ i → (text.take i).drop cursor =
      (text.take next).drop cursor ++ (text.take i).drop next := by
    intro i hi
    have htake : text.take next = (text.take i).take next := by
      rw [List.take_take, Nat.min_eq_left hi]
    rw [htake]
    conv_lhs => rw [← List.take_append_drop next (text.take i)]
    rw [List.drop_append_of_le_length]
    rw [List.length_take, List.length_take]
    omega
  cases is with
  | nil =>
    have hall := hcopy text.length hnext
    rwa [List.take_length] at hall
  | cons i is => rw [splice, splice, hcopy i hspaced.1, List.append_assoc, List.append_assoc,
      List.append_assoc]

/-- The text up to the end of a span. -/
theorem take_add_span {i : ℕ} : text.take (i + m) = text.take i ++ span m text i :=
  List.take_add

/-- The span at a position from `cursor` on, after what is before it. -/
theorem copied_span {i : ℕ} (hle : cursor ≤ i) (hi : i ≤ text.length) :
    (text.take i).drop cursor ++ span m text i = (text.take (i + m)).drop cursor := by
  rw [take_add_span, List.drop_append_of_le_length]
  rw [List.length_take]
  omega

/-- The text from `cursor` on: what is before a span, the span, and what is after it. -/
theorem drop_split {i : ℕ} (hle : cursor ≤ i) (hi : i + m ≤ text.length) :
    text.drop cursor = (text.take i).drop cursor ++ span m text i ++ text.drop (i + m) := by
  rw [copied_span hle ((Nat.le_add_right i m).trans hi)]
  conv_lhs => rw [← List.take_append_drop (i + m) text]
  rw [List.drop_append_of_le_length]
  rw [List.length_take]
  omega

/-- A span that is replaced by what it is. -/
theorem splice_same {i : ℕ} (hle : cursor ≤ i) (hi : i + m ≤ text.length)
    (hspan : span m text i = new i) (hspaced : Spaced m text.length (i + m) is) :
    splice m new text cursor (i :: is) = splice m new text cursor is := by
  rw [splice, ← hspan, copied_span hle ((Nat.le_add_right i m).trans hi),
    splice_from (hle.trans (Nat.le_add_right i m)) hspaced hi]

/-- The replacement of spans by what they are. -/
theorem splice_eq_self (hspaced : Spaced m text.length cursor is)
    (hspan : ∀ i ∈ is, span m text i = new i) : splice m new text cursor is = text.drop cursor := by
  induction is generalizing cursor with
  | nil => rfl
  | cons i is ih =>
    obtain ⟨hi, his⟩ := List.forall_mem_cons.1 hspan
    obtain ⟨hle, hin, hrest⟩ := hspaced
    rw [splice_same hle hin hi hrest]
    exact ih (hrest.mono (hle.trans (Nat.le_add_right i m))) his

/-- If the sizes stay, the text stays only if all the spans do. -/
theorem splice_eq_iff (hspaced : Spaced m text.length cursor is)
    (hnew : ∀ i ∈ is, (new i).length = m) :
    splice m new text cursor is = text.drop cursor ↔ ∀ i ∈ is, span m text i = new i := by
  refine ⟨fun h => ?_, splice_eq_self hspaced⟩
  induction is generalizing cursor with
  | nil => exact fun i hi => absurd hi List.not_mem_nil
  | cons i is ih =>
    obtain ⟨hle, hin, hrest⟩ := hspaced
    obtain ⟨hi, his⟩ := List.forall_mem_cons.1 hnew
    have hspan : (span m text i).length = m := by
      rw [span, List.length_take, List.length_drop]
      omega
    rw [drop_split hle hin, splice, List.append_assoc, List.append_assoc,
      List.append_cancel_left_eq] at h
    obtain ⟨hfirst, hlater⟩ := List.append_inj h (hi.trans hspan.symm)
    exact List.forall_mem_cons.2 ⟨hfirst.symm, ih hrest his hlater⟩

/-- Replacing spans by others of their length keeps the length. -/
theorem length_splice (hspaced : Spaced m text.length cursor is) (hcursor : cursor ≤ text.length)
    (hnew : ∀ i ∈ is, (new i).length = m) :
    (splice m new text cursor is).length = text.length - cursor := by
  induction is generalizing cursor with
  | nil => exact List.length_drop
  | cons i is ih =>
    obtain ⟨hle, hin, hrest⟩ := hspaced
    obtain ⟨hi, his⟩ := List.forall_mem_cons.1 hnew
    rw [splice, List.length_append, List.length_append, ih hrest hin his, hi, List.length_drop,
      List.length_take]
    omega

/-- An element that is in no span is copied, and one in a span is replaced. -/
theorem getElem?_splice (hspaced : Spaced m text.length cursor is)
    (hcursor : cursor ≤ text.length) (hnew : ∀ i ∈ is, (new i).length = m) (p : ℕ) :
    (splice m new text cursor is)[p]? =
      match is.find? fun i => decide (i ≤ cursor + p ∧ cursor + p < i + m) with
      | some i => (new i)[cursor + p - i]?
      | none => text[cursor + p]? := by
  induction is generalizing cursor p with
  | nil => rw [splice, List.getElem?_drop, List.find?_nil]
  | cons i is ih =>
    obtain ⟨hle, hin, hrest⟩ := hspaced
    obtain ⟨hi, his⟩ := List.forall_mem_cons.1 hnew
    have hcopied : ((text.take i).drop cursor).length = i - cursor := by
      rw [List.length_drop, List.length_take]
      omega
    have hbefore : ((text.take i).drop cursor ++ new i).length = i + m - cursor := by
      rw [List.length_append, hcopied, hi]
      omega
    rw [splice]
    by_cases hin' : cursor + p < i + m
    -- before the end of the first span: in it, or in what is copied in front of it
    · rw [List.getElem?_append_left (by omega)]
      by_cases hcover : i ≤ cursor + p
      · rw [List.find?_cons_of_pos (by simp [hcover, hin']), List.getElem?_append_right (by omega),
          hcopied]
        congr 1
        omega
      · have hnone : is.find? (fun i => decide (i ≤ cursor + p ∧ cursor + p < i + m)) = none := by
          refine List.find?_eq_none.2 fun j hj hp => ?_
          have hij := (hrest.le hj).1
          have hjp := (of_decide_eq_true hp).1
          omega
        rw [List.find?_cons_of_neg (by simp [hcover]), hnone, List.getElem?_append_left (by omega),
          List.getElem?_drop, List.getElem?_take_of_lt (by omega)]
    -- after it, where the rest of the spans go on from its end
    · have hp : i + m + (p - (i + m - cursor)) = cursor + p := by omega
      rw [List.getElem?_append_right (by omega), hbefore, ih hrest hin his, hp,
        List.find?_cons_of_neg (by simp [hin'])]

/-- Spans are replaced before or after a map alike. -/
theorem map_splice {β : Type} (f : α → β) :
    (splice m new text cursor is).map f =
      splice m (fun i => (new i).map f) (text.map f) cursor is := by
  induction is generalizing cursor with
  | nil => exact List.map_drop
  | cons i is ih =>
    rw [splice, splice, List.map_append, List.map_append, ih, List.map_drop, List.map_take]

/-- What is copied has its weight, and what replaces a span weighs `d` more than it. -/
theorem weight_splice {w : α → ℕ} {d : ℕ} (hspaced : Spaced m text.length cursor is)
    (hnew : ∀ i ∈ is, ((span m text i).map w).sum + d ≤ ((new i).map w).sum) :
    ((text.drop cursor).map w).sum + d * is.length ≤ ((splice m new text cursor is).map w).sum := by
  induction is generalizing cursor with
  | nil => exact Nat.le_refl _
  | cons i is ih =>
    obtain ⟨hle, hin, hrest⟩ := hspaced
    obtain ⟨hi, his⟩ := List.forall_mem_cons.1 hnew
    have hih := ih hrest his
    rw [drop_split hle hin, splice]
    simp only [List.map_append, List.sum_append, List.length_cons, Nat.mul_add]
    omega

end Splice

/-- A span, element by element. -/
theorem span_eq_iff {m i : ℕ} {text new : List α} (hnew : new.length = m)
    (hi : i + m ≤ text.length) : span m text i = new ↔ ∀ q < m, text[i + q]? = new[q]? := by
  rw [List.ext_getElem?_iff]
  constructor
  · intro h q hq
    rw [← h q, span, List.getElem?_take_of_lt hq, List.getElem?_drop]
  · intro h q
    by_cases hq : q < m
    · rw [span, List.getElem?_take_of_lt hq, List.getElem?_drop, h q hq]
    · have hspan : (span m text i).length = m := by
        rw [span, List.length_take, List.length_drop]
        omega
      rw [List.getElem?_eq_none (by omega), List.getElem?_eq_none (by omega)]

/-! ## Layers -/

/-- A rewriting: `new` replaces the spans of size `size` at the positions `places`. -/
structure Layer (α : Type) where
  size : ℕ
  new : List α
  places : List ℕ

namespace Layer

/-- The text rewritten. -/
def apply (l : Layer α) (text : List α) : List α :=
  splice l.size (fun _ => l.new) text 0 l.places

/-- The text rewritten by each of the layers, one after the other. -/
def applyAll (ls : List (Layer α)) (text : List α) : List α := ls.foldl (fun t l => l.apply t) text

/-- What the layer puts at a position, if one of its spans covers it. -/
def cover (l : Layer α) (p : ℕ) : Option α :=
  (l.places.find? fun i => decide (i ≤ p ∧ p < i + l.size)).bind fun i => l.new[p - i]?

/-- What the last of the layers that cover a position puts there. -/
def top : List (Layer α) → ℕ → Option α
  | [], _ => none
  | l :: ls, p => (top ls p).or (l.cover p)

/-- The layer keeps the sizes, of texts of size `n`. -/
structure Fits (n : ℕ) (l : Layer α) : Prop where
  spaced : Spaced l.size n 0 l.places
  size : l.places ≠ [] → l.new.length = l.size

variable {n p : ℕ} {l : Layer α} {ls : List (Layer α)} {text : List α}

/-- What is new has the length of what it replaces. -/
theorem Fits.length_new (h : l.Fits n) : ∀ i ∈ l.places, l.new.length = l.size :=
  fun _ hi => h.size (List.ne_nil_of_mem hi)

theorem Fits.length_apply (h : l.Fits text.length) : (l.apply text).length = text.length :=
  length_splice h.spaced (Nat.zero_le _) h.length_new

/-- A layer shows what it covers, and else the text. -/
theorem Fits.getElem?_apply (h : l.Fits text.length) :
    (l.apply text)[p]? = (l.cover p).or text[p]? := by
  rw [apply, getElem?_splice h.spaced (Nat.zero_le _) h.length_new, cover, Nat.zero_add]
  cases hfind : l.places.find? fun i => decide (i ≤ p ∧ p < i + l.size) with
  | none => rfl
  | some i =>
    have hp : i ≤ p ∧ p < i + l.size := by simpa using List.find?_some hfind
    have hlt : p - i < l.new.length := by
      rw [h.size (List.ne_nil_of_mem (List.mem_of_find?_eq_some hfind))]
      omega
    simp [List.getElem?_eq_getElem hlt]

/-- At each position the text is as the last layer that covers it puts it, or as it
    was. -/
theorem getElem?_applyAll (h : ∀ l ∈ ls, l.Fits text.length) :
    (applyAll ls text)[p]? = (top ls p).or text[p]? := by
  induction ls generalizing text with
  | nil => rfl
  | cons l ls ih =>
    obtain ⟨hl, hls⟩ := List.forall_mem_cons.1 h
    rw [← hl.length_apply] at hls
    rw [applyAll, List.foldl_cons, ← applyAll, ih hls, hl.getElem?_apply, top, Option.or_assoc]

theorem length_applyAll (h : ∀ l ∈ ls, l.Fits text.length) :
    (applyAll ls text).length = text.length := by
  induction ls generalizing text with
  | nil => rfl
  | cons l ls ih =>
    obtain ⟨hl, hls⟩ := List.forall_mem_cons.1 h
    rw [← hl.length_apply] at hls
    rw [applyAll, List.foldl_cons, ← applyAll, ih hls, hl.length_apply]

/-- The same layers change nothing in the text that they leave. -/
theorem applyAll_applyAll (h : ∀ l ∈ ls, l.Fits text.length) :
    applyAll ls (applyAll ls text) = applyAll ls text := by
  have hagain : ∀ l ∈ ls, l.Fits (applyAll ls text).length := by rwa [length_applyAll h]
  refine List.ext_getElem? fun p => ?_
  rw [getElem?_applyAll hagain, getElem?_applyAll h, ← Option.or_assoc, Option.or_self]

end Layer

/-! ## Mixtures -/

/-- The last text is a mixture of the two others: at each position it is as the first
    one or as the second one. -/
inductive Mixed : List α → List α → List α → Prop
  | nil : Mixed [] [] []
  | left (c : α) (d : α) {l r x : List α} : Mixed l r x → Mixed (c :: l) (d :: r) (c :: x)
  | right (c : α) (d : α) {l r x : List α} : Mixed l r x → Mixed (c :: l) (d :: r) (d :: x)

section Mixed

variable {m cursor : ℕ} {new : ℕ → List α} {is : List ℕ} {l r x y l' r' x' : List α}

/-- A list is mixed of itself and another one of its length. -/
theorem Mixed.self : l.length = r.length → Mixed l r l := by
  intro h
  induction l generalizing r with
  | nil => rw [List.length_eq_zero_iff.1 h.symm]; exact .nil
  | cons c l ih =>
    obtain ⟨d, r, rfl⟩ := List.exists_cons_of_length_eq_add_one h.symm
    exact .left c d (ih (Nat.succ.inj h))

theorem Mixed.append (h : Mixed l r x) (h' : Mixed l' r' x') :
    Mixed (l ++ l') (r ++ r') (x ++ x') := by
  induction h with
  | nil => exact h'
  | left c d _ ih => exact ih.left c d
  | right c d _ ih => exact ih.right c d

theorem Mixed.trans (h : Mixed l r x) (h' : Mixed x r y) : Mixed l r y := by
  induction h generalizing y with
  | nil => exact h'
  | left c d _ ih => cases h' with
    | left _ _ h' => exact (ih h').left c d
    | right _ _ h' => exact (ih h').right c d
  | right c d _ ih => cases h' with
    | left _ _ h' => exact (ih h').right c d
    | right _ _ h' => exact (ih h').right c d

/-- Where a mixture is as the second text, so is each mixture of it with that: it does not
    come back to the first one. -/
theorem Mixed.antisymm (h : Mixed l r x) (h' : Mixed x r l) : x = l := by
  induction h with
  | nil => rfl
  | left c d _ ih => cases h' with
    | left _ _ h' => rw [ih h']
    | right _ _ h' => rw [ih h']
  | right c d _ ih => cases h' with
    | left _ _ h' => rw [ih h']
    | right _ _ h' => rw [ih h']

/-- Replacing spans by what is mixed. -/
theorem Mixed.splice (hlen : l.length = r.length) (hspaced : Spaced m l.length cursor is)
    (hnew : ∀ i ∈ is, Mixed (span m l i) (span m r i) (new i)) :
    Mixed (l.drop cursor) (r.drop cursor) (splice m new l cursor is) := by
  induction is generalizing cursor with
  | nil => exact .self (by rw [List.length_drop, List.length_drop, hlen])
  | cons i is ih =>
    obtain ⟨hle, hin, hrest⟩ := hspaced
    obtain ⟨hi, his⟩ := List.forall_mem_cons.1 hnew
    have hr : r.drop cursor = (r.take i).drop cursor ++ span m r i ++ r.drop (i + m) :=
      drop_split hle (hlen ▸ hin)
    rw [hr, drop_split hle hin, Spans.splice]
    refine .append (.append (.self ?_) hi) (ih hrest his)
    simp [hlen]

end Mixed

/-! ## Occurrences -/

section Occurrences

variable (ok : List α → List α → Bool) (needle text : List α)

/-- The text has `needle` at the position `i`, between parts that are accepted. -/
def OccursAt (i : ℕ) : Prop :=
  i ≤ text.length ∧ span needle.length text i = needle ∧
    ok (text.take i) (text.drop (i + needle.length)) = true

instance [DecidableEq α] (i : ℕ) : Decidable (OccursAt ok needle text i) :=
  inferInstanceAs (Decidable (_ ∧ _ ∧ _))

/-- The occurrences, from left to right. -/
def occurrences [DecidableEq α] : List ℕ :=
  (List.range (text.length + 1)).filter fun i => OccursAt ok needle text i

/-- The matches from the position `next` on. -/
def matchesFrom [DecidableEq α] (next : ℕ) : List ℕ :=
  spaced needle.length next (occurrences ok needle text)

variable {ok needle text} {i next next' : ℕ}

/-- An occurrence, as a part of the text. -/
theorem occursAt_iff : OccursAt ok needle text i ↔
    ∃ l r, text = l ++ needle ++ r ∧ l.length = i ∧ ok l r = true := by
  constructor
  · rintro ⟨hi, hspan, hok⟩
    refine ⟨text.take i, text.drop (i + needle.length), ?_, List.length_take_of_le hi, hok⟩
    conv_lhs => rw [← List.take_append_drop (i + needle.length) text, take_add_span, hspan]
  · rintro ⟨l, r, rfl, rfl, hok⟩
    refine ⟨?_, ?_, ?_⟩
    · rw [List.append_assoc, List.length_append]
      exact Nat.le_add_right _ _
    · rw [span, List.append_assoc, List.drop_left, List.take_left]
    · rwa [List.append_assoc, List.take_left, ← List.append_assoc, ← List.length_append,
        List.drop_left]

/-- An occurrence ends within the text. -/
theorem OccursAt.le (h : OccursAt ok needle text i) : i + needle.length ≤ text.length := by
  obtain ⟨l, r, rfl, rfl, -⟩ := occursAt_iff.1 h
  rw [List.length_append, List.length_append]
  exact Nat.le_add_right _ _

variable [DecidableEq α]

/-- The occurrences are those listed. -/
theorem mem_occurrences : i ∈ occurrences ok needle text ↔ OccursAt ok needle text i := by
  rw [occurrences, List.mem_filter, List.mem_range, decide_eq_true_iff]
  exact ⟨And.right, fun h => ⟨Nat.lt_succ_of_le h.1, h⟩⟩

theorem occurrences_sorted : (occurrences ok needle text).Pairwise (· < ·) :=
  List.pairwise_lt_range.sublist List.filter_sublist

theorem occursAt_of_match (h : i ∈ matchesFrom ok needle text next) :
    OccursAt ok needle text i :=
  mem_occurrences.1 (mem_spaced h)

/-- The matches are apart from each other. -/
theorem matches_spaced : Spaced needle.length text.length next (matchesFrom ok needle text next) :=
  spaced_spaced fun _ hi => (mem_occurrences.1 hi).le

/-- The search goes on where there is no occurrence in between. -/
theorem matchesFrom_skip (hle : next ≤ next')
    (h : ∀ i, OccursAt ok needle text i → next ≤ i → next' ≤ i) :
    matchesFrom ok needle text next = matchesFrom ok needle text next' :=
  spaced_skip hle fun i hi => h i (mem_occurrences.1 hi)

/-- The first occurrence is the next match. -/
theorem matchesFrom_cons (hn : needle ≠ []) (hi : OccursAt ok needle text i) (hnext : next ≤ i)
    (h : ∀ j, OccursAt ok needle text j → next ≤ j → i ≤ j) :
    matchesFrom ok needle text next = i :: matchesFrom ok needle text (i + needle.length) :=
  spaced_cons occurrences_sorted (mem_occurrences.2 hi) hnext (List.length_pos_iff.2 hn)
    fun j hj => h j (mem_occurrences.1 hj)

theorem matchesFrom_nil (h : ∀ i, OccursAt ok needle text i → ¬next ≤ i) :
    matchesFrom ok needle text next = [] := by
  refine List.eq_nil_iff_forall_not_mem.2 fun i hi => ?_
  exact h i (occursAt_of_match hi) (matches_spaced.le hi).1

/-- An occurrence is a match, or starts within one. -/
theorem overlaps_match (h : OccursAt ok needle text i) (hnext : next ≤ i) :
    i ∈ matchesFrom ok needle text next ∨
      ∃ j ∈ matchesFrom ok needle text next, j < i ∧ i < j + needle.length :=
  mem_spaced_or occurrences_sorted (mem_occurrences.2 h) hnext

/-- There is a match if and only if there is an occurrence. -/
theorem matches_ne_nil_iff :
    matchesFrom ok needle text 0 ≠ [] ↔ ∃ i, OccursAt ok needle text i := by
  constructor
  · intro h
    obtain ⟨i, hi⟩ := List.exists_mem_of_ne_nil _ h
    exact ⟨i, occursAt_of_match hi⟩
  · rintro ⟨i, hi⟩
    rcases overlaps_match hi (Nat.zero_le i) with hi | ⟨j, hj, -⟩
    · exact List.ne_nil_of_mem hi
    · exact List.ne_nil_of_mem hj

end Occurrences

end Spans
