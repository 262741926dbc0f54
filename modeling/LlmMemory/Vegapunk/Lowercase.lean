import LlmMemory.Vegapunk.Scan

/-!
# Lowercase forms

The lowercase form of a string is that of its characters, one after the other, except
that of a capital sigma, which depends on what is around it. Of that, it matters only
which character comes first that is not case-ignorable: strings are *alike* if they
say the same about it (`Alike`). So each part of a string has its lowercase form given
what is before and after it (`lowercaseBetween`), which is the same between strings
that are alike.

* `lowercase_splice`: the lowercase form of an aligned text in which a name replaces
  its lowercase form;
* `settles_splice`: it *settles* the lowercase form of the text (`Settles`): some sigmas
  are as they are in their places, and all the other characters stay.
-/

namespace LlmMemory.Vegapunk

/-! ## Contexts -/

section Contexts

variable (U : Unicode)

/-- The lowercase form of a part of a string; `before` is what precedes it, in
    reverse, and `after` what follows it. -/
def lowercaseBetween (before : List Char) : List Char → List Char → List Char
  | [], _ => []
  | c :: cs, after =>
    (if c = 'Σ' then [mapUppercaseSigma U before (cs ++ after)] else U.toLowercase c) ++
      lowercaseBetween (c :: before) cs after

/-- Next to a sigma, the two strings mean the same to it. -/
def Alike (cs ds : List Char) : Prop :=
  ∀ r, caseIgnorableThenCased U (cs ++ r) = caseIgnorableThenCased U (ds ++ r)

/-- The properties of a character are those of its lowercase form, also of the
    two of a sigma. -/
structure Unicode.Lawful : Prop where
  ahead : ∀ c, Alike U (U.toLowercase c) [c]
  behind : ∀ c, Alike U (U.toLowercase c).reverse [c]
  sigma : Alike U ['σ'] ['Σ']
  finalSigma : Alike U ['ς'] ['Σ']

variable {U} {cs ds es before before' after after' : List Char}

theorem caseIgnorableThenCased_cons {c : Char} :
    caseIgnorableThenCased U (c :: cs) =
      if U.isCaseIgnorable c then caseIgnorableThenCased U cs else U.isCased c := by
  by_cases hc : U.isCaseIgnorable c = true
  · simp [caseIgnorableThenCased, hc]
  · simp [caseIgnorableThenCased, hc]

theorem caseIgnorableThenCased_append (h : caseIgnorableThenCased U cs = caseIgnorableThenCased U ds)
    (l : List Char) : caseIgnorableThenCased U (l ++ cs) = caseIgnorableThenCased U (l ++ ds) := by
  induction l with
  | nil => exact h
  | cons c l ih =>
    rw [List.cons_append, List.cons_append, caseIgnorableThenCased_cons,
      caseIgnorableThenCased_cons, ih]

theorem Alike.refl (cs : List Char) : Alike U cs cs := fun _ => rfl

theorem Alike.symm (h : Alike U cs ds) : Alike U ds cs := fun r => (h r).symm

theorem Alike.trans (h : Alike U cs ds) (h' : Alike U ds es) : Alike U cs es :=
  fun r => (h r).trans (h' r)

theorem Alike.append {cs' ds' : List Char} (h : Alike U cs ds) (h' : Alike U cs' ds') :
    Alike U (cs ++ cs') (ds ++ ds') := by
  intro r
  rw [List.append_assoc, List.append_assoc, h]
  exact caseIgnorableThenCased_append (h' r) ds

theorem Alike.cons (c : Char) (h : Alike U cs ds) : Alike U (c :: cs) (c :: ds) :=
  (Alike.refl [c]).append h

theorem mapUppercaseSigma_congr (hbefore : Alike U before before') (hafter : Alike U after after') :
    mapUppercaseSigma U before after = mapUppercaseSigma U before' after' := by
  have hb := hbefore []
  have ha := hafter []
  rw [List.append_nil, List.append_nil] at hb ha
  rw [mapUppercaseSigma, mapUppercaseSigma, hb, ha]

/-- The two lowercase forms of a sigma. -/
theorem mapUppercaseSigma_cases (before after : List Char) :
    mapUppercaseSigma U before after = 'σ' ∨ mapUppercaseSigma U before after = 'ς' := by
  rw [mapUppercaseSigma]
  split
  · exact .inr rfl
  · exact .inl rfl

theorem mapUppercaseSigma_alike (hU : U.Lawful) :
    Alike U [mapUppercaseSigma U before after] ['Σ'] := by
  have hcases := mapUppercaseSigma_cases (U := U) before after
  rcases hcases with h | h
  · exact h ▸ hU.sigma
  · exact h ▸ hU.finalSigma

theorem lowercaseAfter_append :
    lowercaseAfter U before (cs ++ ds) =
      lowercaseBetween U before cs ds ++ lowercaseAfter U (cs.reverse ++ before) ds := by
  induction cs generalizing before with
  | nil => rfl
  | cons c cs ih =>
    rw [List.cons_append, lowercaseAfter, ih, lowercaseBetween, List.append_assoc,
      List.reverse_cons, List.append_assoc, List.singleton_append]

/-- The lowercase form of a text at the end. -/
theorem lowercaseAfter_eq : lowercaseAfter U before cs = lowercaseBetween U before cs [] := by
  have happend : lowercaseAfter U before (cs ++ []) = _ := lowercaseAfter_append
  rwa [List.append_nil, lowercaseAfter, List.append_nil] at happend

theorem lowercaseBetween_congr (hbefore : Alike U before before') (hafter : Alike U after after') :
    lowercaseBetween U before cs after = lowercaseBetween U before' cs after' := by
  induction cs generalizing before before' with
  | nil => rfl
  | cons c cs ih =>
    rw [lowercaseBetween, lowercaseBetween, ih (hbefore.cons c),
      mapUppercaseSigma_congr hbefore ((Alike.refl cs).append hafter)]

theorem lowercaseAfter_congr (hbefore : Alike U before before') :
    lowercaseAfter U before cs = lowercaseAfter U before' cs := by
  rw [lowercaseAfter_eq, lowercaseAfter_eq]
  exact lowercaseBetween_congr hbefore (Alike.refl [])

/-- The lowercase form of a string is like the string. -/
theorem lowercaseBetween_alike (hU : U.Lawful) :
    Alike U (lowercaseBetween U before cs after) cs := by
  induction cs generalizing before with
  | nil => exact Alike.refl []
  | cons c cs ih =>
    have hc : Alike U (if c = 'Σ' then [mapUppercaseSigma U before (cs ++ after)]
        else U.toLowercase c) [c] := by
      split
      · next hc => exact hc ▸ mapUppercaseSigma_alike hU
      · exact hU.ahead c
    exact hc.append ih

/-- The form is like the text, seen from behind. -/
theorem lowercaseBetween_alike_reverse (hU : U.Lawful) :
    Alike U (lowercaseBetween U before cs after).reverse cs.reverse := by
  induction cs generalizing before with
  | nil => exact Alike.refl []
  | cons c cs ih =>
    rw [lowercaseBetween, List.reverse_append, List.reverse_cons]
    refine ih.append ?_
    split
    · next hc => exact hc ▸ mapUppercaseSigma_alike hU
    · exact hU.behind c

end Contexts

/-! ## Sizes -/

section Sizes

variable {U : Unicode} {text before after : List Char} {i j : ℕ}

/-- The number of the characters of the lowercase form. -/
def lowercaseSize (U : Unicode) (c : Char) : ℕ := if c = 'Σ' then 1 else (U.toLowercase c).length

/-- A character has a lowercase form. -/
theorem lowercaseSize_pos (c : Char) : 0 < lowercaseSize U c := by
  rw [lowercaseSize]
  split
  · exact Nat.one_pos
  · exact List.length_pos_iff.2 (U.toLowercase_ne_nil c)

theorem length_lowercaseBetween :
    (lowercaseBetween U before text after).length = (text.map (lowercaseSize U)).sum := by
  induction text generalizing before with
  | nil => rfl
  | cons c text ih =>
    rw [lowercaseBetween, List.length_append, ih, List.map_cons, List.sum_cons, lowercaseSize]
    split <;> rfl

theorem length_toLowercase :
    (toLowercase U text).length = (text.map (lowercaseSize U)).sum := by
  rw [toLowercase, lowercaseAfter_eq, length_lowercaseBetween]

/-- In an aligned text, each character has one lowercase character. -/
theorem length_between_aligned (h : isLowercaseByteAligned U text = true) :
    (lowercaseBetween U before text after).length = text.length := by
  induction text generalizing before with
  | nil => rfl
  | cons c text ih =>
    obtain ⟨⟨lc, hlc, -⟩, htext⟩ := aligned_cons.1 h
    rw [lowercaseBetween, List.length_append, ih htext, List.length_cons, Nat.add_comm]
    split
    · rfl
    · rw [hlc]
      rfl

theorem aligned_append {cs ds : List Char} :
    isLowercaseByteAligned U (cs ++ ds) = true ↔
      isLowercaseByteAligned U cs = true ∧ isLowercaseByteAligned U ds = true := by
  rw [isLowercaseByteAligned, List.all_append, Bool.and_eq_true]
  rfl

variable (h : isLowercaseByteAligned U text = true)
include h

/-- A front of an aligned text is aligned. -/
theorem aligned_take (i : ℕ) : isLowercaseByteAligned U (text.take i) = true := by
  rw [← List.take_append_drop i text] at h
  exact (aligned_append.1 h).1

theorem aligned_drop (i : ℕ) : isLowercaseByteAligned U (text.drop i) = true := by
  rw [← List.take_append_drop i text] at h
  exact (aligned_append.1 h).2

/-- The form of an aligned text is as long. -/
theorem length_lowercase_aligned : (toLowercase U text).length = text.length := by
  rw [toLowercase, lowercaseAfter_eq, length_between_aligned h]

/-- The lowercase form up to a position, and from there on. -/
theorem toLowercase_take (hi : i ≤ text.length) :
    (toLowercase U text).take i = lowercaseBetween U [] (text.take i) (text.drop i) := by
  conv_lhs => rw [← List.take_append_drop i text, toLowercase, lowercaseAfter_append]
  refine List.take_left' ?_
  rw [length_between_aligned (aligned_take h i), List.length_take_of_le hi]

theorem toLowercase_drop (hi : i ≤ text.length) :
    (toLowercase U text).drop i = lowercaseAfter U (text.take i).reverse (text.drop i) := by
  conv_lhs => rw [← List.take_append_drop i text, toLowercase, lowercaseAfter_append]
  rw [List.drop_left', List.append_nil]
  rw [length_between_aligned (aligned_take h i), List.length_take_of_le hi]

/-- The lowercase form between two positions. -/
theorem toLowercase_between (hij : i ≤ j) (hj : j ≤ text.length) :
    ((toLowercase U text).take j).drop i =
      lowercaseBetween U (text.take i).reverse ((text.take j).drop i) (text.drop j) := by
  have hsplit : text.drop i = (text.take j).drop i ++ text.drop j := by
    conv_lhs => rw [← List.take_append_drop j text]
    rw [List.drop_append_of_le_length]
    rwa [List.length_take_of_le hj]
  rw [List.drop_take, toLowercase_drop h (hij.trans hj), hsplit, lowercaseAfter_append]
  refine List.take_left' ?_
  have htake : isLowercaseByteAligned U ((text.take j).drop i) = true :=
    aligned_drop (aligned_take h j) i
  rw [length_between_aligned htake, List.length_drop, List.length_take_of_le hj]

end Sizes

/-! ## Names in place -/

section InPlace

variable {U : Unicode} {text name key before : List Char} {cursor i : ℕ} {is : List ℕ}

/-- The lowercase form of a name in the place of a span of size `m` of a lowercase text. -/
def inPlace (U : Unicode) (textLc : List Char) (m : ℕ) (name : List Char) (i : ℕ) : List Char :=
  lowercaseBetween U (textLc.take i).reverse name (textLc.drop (i + m))

variable (h : isLowercaseByteAligned U text = true)
include h

theorem take_alike (hU : U.Lawful) (hi : i ≤ text.length) :
    Alike U ((toLowercase U text).take i).reverse (text.take i).reverse := by
  rw [toLowercase_take h hi]
  exact lowercaseBetween_alike_reverse hU

theorem drop_alike (hU : U.Lawful) (hi : i ≤ text.length) :
    Alike U ((toLowercase U text).drop i) (text.drop i) := by
  rw [toLowercase_drop h hi, lowercaseAfter_eq]
  exact lowercaseBetween_alike hU

/-- The form at a place is that of the text there, between the rest. -/
theorem span_lowercase {m : ℕ} (hi : i + m ≤ text.length) :
    Spans.span m (toLowercase U text) i =
      lowercaseBetween U (text.take i).reverse (Spans.span m text i) (text.drop (i + m)) := by
  have hbetween := toLowercase_between h (Nat.le_add_right i m) hi
  rwa [List.drop_take, List.drop_take, Nat.add_sub_cancel_left] at hbetween

/-- The text with the name in place is like the text. -/
theorem splice_alike (hU : U.Lawful) (hname : Alike U name key)
    (hspaced : Spans.Spaced key.length text.length cursor is)
    (hspans : ∀ i ∈ is, Spans.span key.length (toLowercase U text) i = key) :
    Alike U (Spans.splice key.length (fun _ => name) text cursor is) (text.drop cursor) := by
  induction is generalizing cursor with
  | nil => exact Alike.refl _
  | cons i is ih =>
    obtain ⟨hle, hin, hrest⟩ := hspaced
    obtain ⟨hi, his⟩ := List.forall_mem_cons.1 hspans
    have hspan : Alike U key (Spans.span key.length text i) := by
      conv_lhs => rw [← hi, span_lowercase h hin]
      exact lowercaseBetween_alike hU
    rw [Spans.drop_split hle hin, Spans.splice]
    exact ((Alike.refl _).append (hname.trans hspan)).append (ih hrest his)

/-- The lowercase form of a text in which a name replaces spans whose lowercase form it
    has: the name in lowercase as it is in each place, and else that of the text. -/
theorem lowercase_splice (hU : U.Lawful) (hname : Alike U name key)
    (hreverse : Alike U name.reverse key.reverse)
    (hspaced : Spans.Spaced key.length text.length cursor is) (hcursor : cursor ≤ text.length)
    (hspans : ∀ i ∈ is, Spans.span key.length (toLowercase U text) i = key)
    (hbefore : Alike U before ((toLowercase U text).take cursor).reverse) :
    lowercaseAfter U before (Spans.splice key.length (fun _ => name) text cursor is) =
      Spans.splice key.length (inPlace U (toLowercase U text) key.length name)
        (toLowercase U text) cursor is := by
  induction is generalizing cursor before with
  | nil =>
    rw [Spans.splice, Spans.splice, toLowercase_drop h hcursor]
    exact lowercaseAfter_congr (hbefore.trans (take_alike h hU hcursor))
  | cons i is ih =>
    obtain ⟨hle, hin, hrest⟩ := hspaced
    obtain ⟨hi, his⟩ := List.forall_mem_cons.1 hspans
    have hit : i ≤ text.length := (Nat.le_add_right i _).trans hin
    have hafter : Alike U (Spans.splice key.length (fun _ => name) text (i + key.length) is)
        ((toLowercase U text).drop (i + key.length)) :=
      (splice_alike h hU hname hrest his).trans (drop_alike h hU hin).symm
    -- what precedes the name is like the lowercase text up to its place
    have hcopied : Alike U (((text.take i).drop cursor).reverse ++ before)
        ((toLowercase U text).take i).reverse := by
      have htake : text.take i = text.take cursor ++ (text.take i).drop cursor := by
        conv_lhs => rw [← List.take_append_drop cursor (text.take i)]
        rw [List.take_take, Nat.min_eq_left hle]
      refine Alike.trans ?_ (take_alike h hU hit).symm
      conv_rhs => rw [htake, List.reverse_append]
      exact (Alike.refl _).append (hbefore.trans (take_alike h hU hcursor))
    have hfollow : Alike U (name ++
        Spans.splice key.length (fun _ => name) text (i + key.length) is) (text.drop i) := by
      have hall : Spans.Spaced key.length text.length i (i :: is) := ⟨le_rfl, hin, hrest⟩
      simpa [Spans.splice] using splice_alike h hU hname hall hspans
    have hnext : Alike U (name.reverse ++ (((text.take i).drop cursor).reverse ++ before))
        ((toLowercase U text).take (i + key.length)).reverse := by
      rw [Spans.take_add_span, hi, List.reverse_append]
      exact hreverse.append hcopied
    rw [Spans.splice, List.append_assoc, lowercaseAfter_append, lowercaseAfter_append,
      ih hrest hin his hnext, Spans.splice, List.append_assoc, toLowercase_between h hle hit,
      lowercaseBetween_congr (hbefore.trans (take_alike h hU hcursor)) hfollow,
      lowercaseBetween_congr hcopied hafter]
    rfl

end InPlace

/-! ## Sigmas -/

section Sigmas

variable (U : Unicode)

/-- A lowercase text with each sigma as it is in its place. -/
def settleBetween (before : List Char) : List Char → List Char → List Char
  | [], _ => []
  | c :: cs, after =>
    (if c = 'σ' ∨ c = 'ς' then mapUppercaseSigma U before (cs ++ after) else c) ::
      settleBetween (c :: before) cs after

/-- A text in which the sigmas are all the same. -/
def unsigma (cs : List Char) : List Char := cs.map fun c => if c = 'ς' then 'σ' else c

/-- A lowercase text settles another one if it is longer, or some sigmas are as they
    are in their places, and it is the same else. -/
def Settles (textLc textLc' : List Char) : Prop :=
  textLc.length < textLc'.length ∨
    unsigma textLc = unsigma textLc' ∧
      Spans.Mixed textLc (settleBetween U [] textLc []) textLc'

variable {U} {cs ds es before before' after after' : List Char}

theorem length_settleBetween : (settleBetween U before cs after).length = cs.length := by
  induction cs generalizing before with
  | nil => rfl
  | cons c cs ih => rw [settleBetween, List.length_cons, List.length_cons, ih]

theorem settleBetween_append : settleBetween U before (cs ++ ds) after =
    settleBetween U before cs (ds ++ after) ++ settleBetween U (cs.reverse ++ before) ds after := by
  induction cs generalizing before with
  | nil => rfl
  | cons c cs ih =>
    rw [List.cons_append, settleBetween, settleBetween, ih, List.cons_append, List.append_assoc,
      List.reverse_cons, List.append_assoc, List.singleton_append]

/-- Texts that only differ in sigmas are as long. -/
theorem unsigma_length (h : unsigma cs = unsigma ds) : cs.length = ds.length := by
  simpa [unsigma] using congrArg List.length h

theorem unsigma_alike (hU : U.Lawful) : Alike U (unsigma cs) cs := by
  induction cs with
  | nil => exact Alike.refl []
  | cons c cs ih =>
    have hc : Alike U [if c = 'ς' then 'σ' else c] [c] := by
      split
      · next hc => exact hc ▸ hU.sigma.trans hU.finalSigma.symm
      · exact Alike.refl [c]
    exact hc.append ih

/-- Texts that only differ in sigmas are alike. -/
theorem alike_of_unsigma (hU : U.Lawful) (h : unsigma cs = unsigma ds) : Alike U cs ds := by
  refine (unsigma_alike hU).symm.trans ?_
  rw [h]
  exact unsigma_alike hU

/-- How a text is settled does not depend on its own sigmas. -/
theorem settleBetween_congr (hU : U.Lawful) (h : unsigma cs = unsigma ds)
    (hbefore : Alike U before before') (hafter : Alike U after after') :
    settleBetween U before cs after = settleBetween U before' ds after' := by
  induction cs generalizing ds before before' with
  | nil => rw [List.length_eq_zero_iff.1 (unsigma_length h).symm]; rfl
  | cons c cs ih =>
    obtain ⟨d, ds, rfl⟩ := List.exists_cons_of_length_eq_add_one (unsigma_length h).symm
    obtain ⟨hc, hcs⟩ := List.cons.inj h
    have hcd : Alike U [c] [d] := alike_of_unsigma hU (by simpa [unsigma] using hc)
    have hrest : settleBetween U (c :: before) cs after = settleBetween U (d :: before') ds after' :=
      ih hcs (hcd.append hbefore)
    rw [settleBetween, settleBetween, hrest,
      mapUppercaseSigma_congr hbefore ((alike_of_unsigma hU hcs).append hafter)]
    congr 1
    by_cases hσ : c = 'σ' ∨ c = 'ς'
    · have hd : d = 'σ' ∨ d = 'ς' := by grind
      rw [if_pos hσ, if_pos hd]
    · have hd : ¬(d = 'σ' ∨ d = 'ς') ∧ c = d := by grind
      rw [if_neg hσ, if_neg hd.1, hd.2]

theorem span_settle {textLc : List Char} {m i : ℕ} (hi : i + m ≤ textLc.length) :
    Spans.span m (settleBetween U [] textLc []) i =
      settleBetween U (textLc.take i).reverse (Spans.span m textLc i) (textLc.drop (i + m)) := by
  have hsplit : textLc = textLc.take i ++ (Spans.span m textLc i ++ textLc.drop (i + m)) := by
    rw [← List.append_assoc, ← Spans.take_add_span, List.take_append_drop]
  conv_lhs => rw [hsplit, settleBetween_append, settleBetween_append]
  rw [Spans.span, List.drop_left' (by rw [length_settleBetween, List.length_take]; omega),
    List.take_left', List.append_nil, List.append_nil]
  rw [length_settleBetween, Spans.span, List.length_take, List.length_drop]
  omega

/-- Where it is, a lowercase form only differs in its sigmas. -/
theorem unsigma_lowercase : unsigma (lowercaseBetween U before cs after) =
    unsigma (lowercaseBetween U before' cs after') := by
  induction cs generalizing before before' with
  | nil => rfl
  | cons c cs ih =>
    have hsigma : ∀ before after : List Char,
        unsigma [mapUppercaseSigma U before after] = ['σ'] := by
      intro before after
      rcases mapUppercaseSigma_cases (U := U) before after with h | h <;> rw [h] <;> rfl
    have happend : ∀ l r : List Char, unsigma (l ++ r) = unsigma l ++ unsigma r :=
      fun l r => List.map_append
    rw [lowercaseBetween, lowercaseBetween, happend, happend, ih]
    congr 1
    split
    · rw [hsigma, hsigma]
    · rfl

/-- The lowercase form of a name in its place is a mixture of that in another one and
    the same with its sigmas settled. -/
theorem mixed_lowercase (hU : U.Lawful) {b a : List Char} (hbefore : Alike U b before)
    (hafter : Alike U a after) :
    Spans.Mixed (lowercaseBetween U before' cs after')
      (settleBetween U b (lowercaseBetween U before' cs after') a)
      (lowercaseBetween U before cs after) := by
  induction cs generalizing b before before' with
  | nil => exact .nil
  | cons c cs ih =>
    by_cases hc : c = 'Σ'
    · have hcases := mapUppercaseSigma_cases (U := U) before' (cs ++ after')
      have hsettled : mapUppercaseSigma U b (lowercaseBetween U (c :: before') cs after' ++ a) =
          mapUppercaseSigma U before (cs ++ after) :=
        mapUppercaseSigma_congr hbefore ((lowercaseBetween_alike hU).append hafter)
      have hhead : Alike U [mapUppercaseSigma U before' (cs ++ after')] [c] :=
        hc ▸ mapUppercaseSigma_alike hU
      rw [lowercaseBetween, lowercaseBetween, if_pos hc, if_pos hc, List.singleton_append,
        List.singleton_append, settleBetween, if_pos hcases, hsettled]
      exact (ih (hhead.append hbefore)).right _ _
    · rw [lowercaseBetween, lowercaseBetween, if_neg hc, if_neg hc, settleBetween_append]
      exact (Spans.Mixed.self length_settleBetween.symm).append
        (ih ((hU.behind c).append hbefore))

theorem Settles.refl (textLc : List Char) : Settles U textLc textLc :=
  .inr ⟨rfl, .self length_settleBetween.symm⟩

/-- A text that settles another is no shorter. -/
theorem Settles.length_le (h : Settles U cs ds) : cs.length ≤ ds.length := by
  rcases h with hlt | ⟨heq, -⟩
  · exact hlt.le
  · exact (unsigma_length heq).le

theorem Settles.trans (hU : U.Lawful) (h : Settles U cs ds) (h' : Settles U ds es) :
    Settles U cs es := by
  rcases h with hlt | ⟨heq, hmixed⟩
  · exact .inl (hlt.trans_le h'.length_le)
  · rcases h' with hlt | ⟨heq', hmixed'⟩
    · exact .inl ((unsigma_length heq).trans_lt hlt)
    · rw [← settleBetween_congr hU heq (Alike.refl []) (Alike.refl [])] at hmixed'
      exact .inr ⟨heq.trans heq', hmixed.trans hmixed'⟩

/-- A text that is settled does not come back. -/
theorem Settles.antisymm (hU : U.Lawful) (h : Settles U cs ds) (h' : Settles U ds cs) :
    ds = cs := by
  rcases h with hlt | ⟨heq, hmixed⟩
  · exact absurd h'.length_le (Nat.not_le.2 hlt)
  · rcases h' with hlt | ⟨-, hmixed'⟩
    · exact absurd (unsigma_length heq) hlt.ne'
    · rw [← settleBetween_congr hU heq (Alike.refl []) (Alike.refl [])] at hmixed'
      exact hmixed.antisymm hmixed'

/-- The lowercase form of a name in the places of its lowercase form settles the text. -/
theorem settles_splice (hU : U.Lawful) {textLc name key : List Char} {is : List ℕ}
    (hkey : key = lowercaseBetween U before name after)
    (hspaced : Spans.Spaced key.length textLc.length 0 is)
    (hspans : ∀ i ∈ is, Spans.span key.length textLc i = key) :
    Settles U textLc (Spans.splice key.length (inPlace U textLc key.length name) textLc 0 is) := by
  refine .inr ⟨?_, ?_⟩
  · rw [unsigma, unsigma, Spans.map_splice, Spans.splice_eq_self, List.drop_zero]
    · rwa [List.length_map]
    · intro i hi
      have hspan : Spans.span key.length (unsigma textLc) i =
          unsigma (Spans.span key.length textLc i) := by
        rw [unsigma, unsigma, Spans.span, Spans.span, List.map_take, List.map_drop]
      refine hspan.trans ?_
      rw [hspans i hi, hkey]
      exact unsigma_lowercase
  · refine Spans.Mixed.splice length_settleBetween.symm hspaced fun i hi => ?_
    have hmixed : Spans.Mixed (lowercaseBetween U before name after) _
        (inPlace U textLc key.length name i) := mixed_lowercase hU (Alike.refl _) (Alike.refl _)
    rw [← hkey] at hmixed
    rwa [span_settle (hspaced.le hi).2, hspans i hi]

end Sigmas

end LlmMemory.Vegapunk
