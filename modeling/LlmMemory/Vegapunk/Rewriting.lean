import Mathlib.Data.List.TakeWhile
import LlmMemory.Vegapunk.Dedup
import LlmMemory.Vegapunk.Lowercase

/-!
# Rewriting by a catalogue

The scan of a text rewrites it by the entities of the user's schema, one after the
other, each in what those before it left (`rewriteAll`). The key of an entity is that
of its trimmed name; so the lowercase form of a text stays exactly if the names are
trimmed, and are in lowercase in their places what their keys are, and if so, what is
left is scanned to itself (`rewrite_normalizes`).

Of two names that overlap, the one that comes later in the catalogue is seen in the
text, even if it is a word of the other one (`rewrite_spells`).
-/

namespace LlmMemory.Vegapunk

/-! ## The loop over the entities -/

section Loop

variable (U : Unicode)

/-- Where the key of the entity is replaced in a text, given its lowercase form. -/
def EntityRef.places (ent : EntityRef) (textLc : List Char) : List ℕ :=
  if ent.normalizedKey.toList = [] then [] else wordMatches U ent.normalizedKey.toList textLc 0

/-- The rewriting by an entity, given the lowercase form of the text. -/
def EntityRef.layer (ent : EntityRef) (textLc : List Char) : Spans.Layer Char :=
  ⟨ent.normalizedKey.toList.length, ent.name.toList, ent.places U textLc⟩

/-- The text with the name of the entity in the places of its key. -/
def rewrite (text : List Char) (ent : EntityRef) : List Char :=
  (ent.layer U (toLowercase U text)).apply text

/-- The text that the loop leaves: it ends after an entity whose name makes the text
    unaligned. -/
def rewriteAll : List EntityRef → List Char → List Char
  | [], text => text
  | ent :: ents, text =>
    if isLowercaseByteAligned U (rewrite U text ent) then rewriteAll ents (rewrite U text ent)
    else rewrite U text ent

variable {U} {text : List Char} {ent : EntityRef} {ents : List EntityRef} {st : PersonalScan}

/-- The places found do not overlap. -/
theorem places_spaced {textLc : List Char} : Spans.Spaced ent.normalizedKey.toList.length
    textLc.length 0 (ent.places U textLc) := by
  rw [EntityRef.places]
  split
  · trivial
  · exact Spans.matches_spaced

theorem span_of_place {textLc : List Char} {i : ℕ} (hi : i ∈ ent.places U textLc) :
    Spans.span ent.normalizedKey.toList.length textLc i = ent.normalizedKey.toList := by
  rw [EntityRef.places] at hi
  split at hi
  · exact absurd hi List.not_mem_nil
  · exact (Spans.occursAt_of_match hi).2.1

/-- In an aligned text they are places of the text. -/
theorem spaced_of_aligned (h : isLowercaseByteAligned U text = true) :
    Spans.Spaced ent.normalizedKey.toList.length text.length 0
      (ent.places U (toLowercase U text)) :=
  length_lowercase_aligned h ▸ places_spaced

/-- Where there is no place, nothing is rewritten. -/
theorem rewrite_of_no_places (h : ent.places U (toLowercase U text) = []) :
    rewrite U text ent = text := by
  rw [rewrite, Spans.Layer.apply, EntityRef.layer, h]
  rfl

variable (ent) in
/-- The replacement of the key of an entity by its name, in an aligned text. -/
theorem replace_entity (h : isLowercaseByteAligned U text = true) :
    replaceWordCaseInsensitiveWithLc U text (toLowercase U text) ent.normalizedKey.toList
        ent.name.toList = some none ∧ rewrite U text ent = text ∨
      replaceWordCaseInsensitiveWithLc U text (toLowercase U text) ent.normalizedKey.toList
        ent.name.toList = some (some (rewrite U text ent)) := by
  rw [replace_eq (lowercase_congruent h)]
  by_cases hkey : ent.normalizedKey.toList = []
  · exact .inl ⟨by rw [if_pos (.inl hkey)], rewrite_of_no_places (if_pos hkey)⟩
  · have hplaces : ent.places U (toLowercase U text) =
        wordMatches U ent.normalizedKey.toList (toLowercase U text) 0 := if_neg hkey
    split
    · next hsame =>
      refine .inl ⟨rfl, ?_⟩
      rw [rewrite, Spans.Layer.apply, EntityRef.layer, Spans.splice_eq_self (spaced_of_aligned h),
        List.drop_zero]
      exact hplaces ▸ hsame.resolve_left hkey
    · right
      rw [rewrite, Spans.Layer.apply, EntityRef.layer, hplaces]

variable (ent) in
/-- The scan of an entity rewrites the text by it, and goes on if the text is still
    aligned. -/
theorem scanEntity_rewrite (h : st.Aligned U text) :
    ∃ st', scanEntity U text st ent =
        some (st', isLowercaseByteAligned U (rewrite U (st.current text) ent)) ∧
      st'.current text = rewrite U (st.current text) ent ∧
      (isLowercaseByteAligned U (rewrite U (st.current text) ent) = true → st'.Aligned U text) ∧
      ((st.newText = none ↔ st.rewrites = []) → (st'.newText = none ↔ st'.rewrites = [])) := by
  rw [scanEntity, h.2]
  rcases replace_entity ent h.1 with ⟨hres, hsame⟩ | hres
  · rw [hres, hsame, h.1]
    exact ⟨st, rfl, rfl, fun _ => h, id⟩
  · rw [hres, Option.bind_eq_bind, Option.bind_some]
    have hnew : ∀ newTextLc, PersonalScan.newText ⟨some (rewrite U (st.current text) ent),
        newTextLc, st.rewrites ++ [ent]⟩ = none ↔ st.rewrites ++ [ent] = [] := by simp
    by_cases haligned : isLowercaseByteAligned U (rewrite U (st.current text) ent) = true
    · exact ⟨⟨some (rewrite U (st.current text) ent), toLowercase U (rewrite U (st.current text) ent),
        st.rewrites ++ [ent]⟩, by simp [haligned], rfl, fun _ => ⟨haligned, rfl⟩, fun _ => hnew _⟩
    · exact ⟨⟨some (rewrite U (st.current text) ent), st.newTextLc, st.rewrites ++ [ent]⟩,
        by simp [haligned, h.2], rfl, fun h => absurd h haligned, fun _ => hnew _⟩

/-- The loop rewrites the text by the entities. -/
theorem scanPersonal_rewrite (h : st.Aligned U text)
    (hnew : st.newText = none ↔ st.rewrites = []) :
    ∃ st', scanPersonal U text ents st = some st' ∧
      st'.current text = rewriteAll U ents (st.current text) ∧
      (st'.newText = none ↔ st'.rewrites = []) := by
  induction ents generalizing st with
  | nil => exact ⟨st, rfl, rfl, hnew⟩
  | cons ent ents ih =>
    obtain ⟨st₁, hres, hcurrent, haligned, hnew₁⟩ := scanEntity_rewrite ent h
    rw [scanPersonal, rewriteAll, hres]
    by_cases hgo : isLowercaseByteAligned U (rewrite U (st.current text) ent) = true
    · obtain ⟨st', hres', hcurrent', hnew'⟩ := ih (haligned hgo) (hnew₁ hnew)
      rw [if_pos hgo, hgo, ← hcurrent]
      exact ⟨st', hres', hcurrent', hnew'⟩
    · rw [if_neg hgo]
      exact ⟨st₁, by simp [hgo], hcurrent, hnew₁ hnew⟩

end Loop

/-! ## Scans -/

section Scans

variable {U : Unicode} {catalogue : DedupCatalogue} {text out : String}

/-- A text that is not aligned is let through as it is. -/
theorem scan_of_unaligned (h : isLowercaseByteAligned U text.toList ≠ true) :
    scanTextWithCatalogue U catalogue text = some .proceed := by
  rw [scanTextWithCatalogue, if_pos (by simpa using h)]

/-- The scan of an aligned text that names no shared entity leaves what the loop does. -/
theorem scanned_rewriteAll (h : isLowercaseByteAligned U text.toList = true)
    (hshared : scanShared U (toLowercase U text.toList) catalogue.shared = some none) :
    Scanned U catalogue text
      (String.ofList (rewriteAll U catalogue.personal text.toList)) := by
  obtain ⟨st, hres, hcurrent, hnew⟩ : ∃ st, scanPersonal U text.toList catalogue.personal
      { newTextLc := toLowercase U text.toList } = some st ∧ st.current text.toList =
        rewriteAll U catalogue.personal text.toList ∧ (st.newText = none ↔ st.rewrites = []) :=
    scanPersonal_rewrite (start_aligned h) (by simp)
  rw [PersonalScan.current] at hcurrent
  cases hnewText : st.newText with
  | none =>
    rw [hnewText] at hcurrent
    have hsame : String.ofList (rewriteAll U catalogue.personal text.toList) = text := by
      rw [← hcurrent]
      exact String.ofList_toList
    exact .inl ⟨by simp [scanTextWithCatalogue, h, hshared, hres, hnewText], hsame⟩
  | some newText =>
    have hrewrites : st.rewrites ≠ [] := fun hnil => by simp [hnew.2 hnil] at hnewText
    rw [hnewText] at hcurrent
    rw [← hcurrent]
    exact .inr ⟨st.rewrites, by
      simp [scanTextWithCatalogue, h, hshared, hres, hnewText, hrewrites]⟩

theorem Scanned.unique {out' : String} (h : Scanned U catalogue text out)
    (h' : Scanned U catalogue text out') : out = out' := by
  rcases h with ⟨hproceed, rfl⟩ | ⟨rewrites, hrewritten⟩
  · rcases h' with ⟨-, rfl⟩ | ⟨rewrites', hrewritten'⟩
    · rfl
    · rw [hproceed] at hrewritten'
      cases hrewritten'
  · rcases h' with ⟨hproceed', -⟩ | ⟨rewrites', hrewritten'⟩
    · rw [hrewritten] at hproceed'
      cases hproceed'
    · rw [hrewritten] at hrewritten'
      cases hrewritten'
      rfl

/-- What a scan leaves of an aligned text. -/
theorem Scanned.eq_rewriteAll (h : isLowercaseByteAligned U text.toList = true)
    (hs : Scanned U catalogue text out) :
    scanShared U (toLowercase U text.toList) catalogue.shared = some none ∧
      out.toList = rewriteAll U catalogue.personal text.toList := by
  obtain ⟨hit, hshared, -⟩ := scanShared_eq (U := U) (toLowercase U text.toList) catalogue.shared
  cases hit with
  | some hit =>
    refine absurd ?_ (hs.notBlocked hit)
    simp [scanTextWithCatalogue, h, hshared]
  | none =>
    refine ⟨hshared, ?_⟩
    rw [hs.unique (scanned_rewriteAll h hshared), String.toList_ofList]

/-- Only aligned texts are rewritten. -/
theorem rewritten_aligned {rewrites : List EntityRef}
    (h : scanTextWithCatalogue U catalogue text = some (.rewritten out rewrites)) :
    isLowercaseByteAligned U text.toList = true := by
  by_contra hunaligned
  rw [scan_of_unaligned hunaligned] at h
  cases h

end Scans

/-! ## Trimmed names -/

section Trimmed

variable {U : Unicode} {cs : List Char}

/-- What is trimmed is white space. -/
theorem trim_split (cs : List Char) : ∃ l r, cs = l ++ trim cs ++ r ∧
    ∀ c ∈ l ++ r, Search.isWhiteSpace c = true := by
  have hstart : ∀ ds : List Char, ∃ l, ds = l ++ trimStart ds ∧
      ∀ c ∈ l, Search.isWhiteSpace c = true := fun ds =>
    ⟨_, (List.takeWhile_append_dropWhile).symm, fun c hc => List.mem_takeWhile_imp hc⟩
  obtain ⟨l, hl, hlblank⟩ := hstart cs
  obtain ⟨r, hr, hrblank⟩ := hstart (trimStart cs).reverse
  refine ⟨l, r.reverse, ?_, fun c hc => ?_⟩
  · have hreverse := congrArg List.reverse hr
    rw [List.reverse_reverse, List.reverse_append] at hreverse
    conv_lhs => rw [hl, hreverse]
    rw [trim, List.append_assoc]
  · rcases List.mem_append.1 hc with hc | hc
    · exact hlblank c hc
    · exact hrblank c (List.mem_reverse.1 hc)

/-- The lowercase form of a name that is not trimmed is longer than its key. -/
theorem size_trim (h : trim cs ≠ cs) :
    (toLowercase U (trim cs)).length + 1 ≤ (cs.map (lowercaseSize U)).sum := by
  obtain ⟨l, r, hsplit, -⟩ := trim_split cs
  have hpos : ∀ ds : List Char, ds ≠ [] → 0 < (ds.map (lowercaseSize U)).sum := by
    intro ds hds
    obtain ⟨d, ds, rfl⟩ := List.exists_cons_of_ne_nil hds
    have hd : 0 < lowercaseSize U d := lowercaseSize_pos d
    rw [List.map_cons, List.sum_cons]
    omega
  have hsum : (cs.map (lowercaseSize U)).sum = (l.map (lowercaseSize U)).sum +
      ((trim cs).map (lowercaseSize U)).sum + (r.map (lowercaseSize U)).sum := by
    conv_lhs => rw [hsplit]
    rw [List.map_append, List.map_append, List.sum_append, List.sum_append]
  rw [length_toLowercase, hsum]
  by_cases hl : l = []
  · have hr : r ≠ [] := fun hr => h (by rw [hl, hr, List.append_nil] at hsplit; exact hsplit.symm)
    have hrpos := hpos r hr
    omega
  · have hlpos := hpos l hl
    omega

end Trimmed

/-! ## Lowercase forms of rewritten texts -/

section Lowercase

variable (U : Unicode)

/-- The key of the entity is that of its name. -/
def EntityRef.Keyed (ent : EntityRef) : Prop := ent.normalizedKey = normalizeEntityKey U ent.name

/-- The lowercase form of a text that is rewritten by an entity with a trimmed name. -/
def EntityRef.lowercase (ent : EntityRef) (textLc : List Char) : List Char :=
  Spans.splice ent.normalizedKey.toList.length
    (inPlace U textLc ent.normalizedKey.toList.length ent.name.toList) textLc 0
    (ent.places U textLc)

/-- If the key of the entity occurs, its name is trimmed, and in each place its lowercase
    form is the key. -/
def EntityRef.FitsIn (ent : EntityRef) (textLc : List Char) : Prop :=
  ∀ i ∈ ent.places U textLc, trim ent.name.toList = ent.name.toList ∧
    inPlace U textLc ent.normalizedKey.toList.length ent.name.toList i = ent.normalizedKey.toList

/-- The entities fit in, up to the first one that occurs and whose name is not
    aligned, where the loop ends. -/
def FitIn (textLc : List Char) : List EntityRef → Prop
  | [] => True
  | ent :: ents => ent.FitsIn U textLc ∧
      (ent.places U textLc = [] ∨ isLowercaseByteAligned U ent.name.toList = true →
        FitIn textLc ents)

variable {U} {text : List Char} {ent : EntityRef} {ents : List EntityRef}

/-- The key of a name is its lowercase form, trimmed. -/
theorem EntityRef.Keyed.key (h : ent.Keyed U) :
    ent.normalizedKey.toList = lowercaseBetween U [] (trim ent.name.toList) [] := by
  rw [h, normalizeEntityKey, String.toList_ofList, toLowercase, lowercaseAfter_eq]

/-- A name in its place is as long as its key. -/
theorem length_inPlace (hkeyed : ent.Keyed U) (htrim : trim ent.name.toList = ent.name.toList)
    {textLc : List Char} {i : ℕ} :
    (inPlace U textLc ent.normalizedKey.toList.length ent.name.toList i).length =
      ent.normalizedKey.toList.length := by
  rw [inPlace, hkeyed.key, htrim, length_lowercaseBetween, length_lowercaseBetween]

section Step

variable (hU : U.Lawful) (hkeyed : ent.Keyed U) (h : isLowercaseByteAligned U text = true)
include hU hkeyed h

/-- The lowercase form of the rewritten text. -/
theorem lowercase_rewrite (htrim : trim ent.name.toList = ent.name.toList) :
    toLowercase U (rewrite U text ent) = ent.lowercase U (toLowercase U text) := by
  have hkey := hkeyed.key
  rw [htrim] at hkey
  have hname : Alike U ent.name.toList ent.normalizedKey.toList :=
    hkey ▸ (lowercaseBetween_alike hU).symm
  have hreverse : Alike U ent.name.toList.reverse ent.normalizedKey.toList.reverse :=
    hkey ▸ (lowercaseBetween_alike_reverse hU).symm
  exact lowercase_splice h hU hname hreverse (spaced_of_aligned h) (Nat.zero_le _)
    (fun i hi => span_of_place hi) (Alike.refl [])

omit hU in
/-- A name that is not trimmed makes the lowercase form longer. -/
theorem length_lt_rewrite (htrim : trim ent.name.toList ≠ ent.name.toList)
    (hplaces : ent.places U (toLowercase U text) ≠ []) :
    (toLowercase U text).length < (toLowercase U (rewrite U text ent)).length := by
  have hname : ∀ i ∈ ent.places U (toLowercase U text),
      ((Spans.span ent.normalizedKey.toList.length text i).map (lowercaseSize U)).sum + 1 ≤
        (ent.name.toList.map (lowercaseSize U)).sum := by
    intro i hi
    have hspan := span_lowercase h ((spaced_of_aligned h).le hi).2
    rw [span_of_place hi] at hspan
    rw [← length_lowercaseBetween, ← hspan, hkeyed.key, ← lowercaseAfter_eq]
    exact size_trim htrim
  have hweight : ((text.drop 0).map (lowercaseSize U)).sum +
      1 * (ent.places U (toLowercase U text)).length ≤
        ((rewrite U text ent).map (lowercaseSize U)).sum :=
    Spans.weight_splice (spaced_of_aligned h) hname
  have hpos := List.length_pos_iff.2 hplaces
  rw [length_toLowercase, length_toLowercase]
  rw [List.drop_zero] at hweight
  omega

/-- The rewriting by an entity settles the lowercase form. -/
theorem settles_rewrite : Settles U (toLowercase U text) (toLowercase U (rewrite U text ent)) := by
  by_cases htrim : trim ent.name.toList = ent.name.toList
  · rw [lowercase_rewrite hU hkeyed h htrim]
    exact settles_splice hU (htrim ▸ hkeyed.key) places_spaced fun i hi => span_of_place hi
  · by_cases hplaces : ent.places U (toLowercase U text) = []
    · rw [rewrite_of_no_places hplaces]
      exact Settles.refl _
    · exact .inl (length_lt_rewrite hkeyed h htrim hplaces)

/-- The lowercase form stays if and only if the entity fits in. -/
theorem lowercase_rewrite_iff :
    toLowercase U (rewrite U text ent) = toLowercase U text ↔
      ent.FitsIn U (toLowercase U text) := by
  by_cases hplaces : ent.places U (toLowercase U text) = []
  · rw [rewrite_of_no_places hplaces, EntityRef.FitsIn, hplaces]
    simp
  · by_cases htrim : trim ent.name.toList = ent.name.toList
    · have hiff : ent.lowercase U (toLowercase U text) = (toLowercase U text).drop 0 ↔
          ∀ i ∈ ent.places U (toLowercase U text), Spans.span ent.normalizedKey.toList.length
            (toLowercase U text) i = inPlace U (toLowercase U text)
              ent.normalizedKey.toList.length ent.name.toList i :=
        Spans.splice_eq_iff places_spaced fun i _ => length_inPlace hkeyed htrim
      rw [lowercase_rewrite hU hkeyed h htrim]
      rw [List.drop_zero] at hiff
      refine hiff.trans (forall₂_congr fun i hi => ?_)
      rw [span_of_place hi]
      exact ⟨fun hi => ⟨htrim, hi.symm⟩, fun hi => hi.2.symm⟩
    · refine iff_of_false (fun heq => ?_) fun hfits => ?_
      · exact (length_lt_rewrite hkeyed h htrim hplaces).ne' (congrArg List.length heq)
      · obtain ⟨i, hi⟩ := List.exists_mem_of_ne_nil _ hplaces
        exact htrim (hfits i hi).1

end Step

/-- A text with names placed is aligned if the name is, or none is placed. -/
theorem aligned_splice {m cursor : ℕ} {name : List Char} {is : List ℕ}
    (h : isLowercaseByteAligned U text = true) :
    isLowercaseByteAligned U (Spans.splice m (fun _ => name) text cursor is) = true ↔
      is = [] ∨ isLowercaseByteAligned U name = true := by
  induction is generalizing cursor with
  | nil => exact iff_of_true (aligned_drop h cursor) (.inl rfl)
  | cons i is ih =>
    have hcopied : isLowercaseByteAligned U ((text.take i).drop cursor) = true :=
      aligned_drop (aligned_take h i) cursor
    rw [Spans.splice, aligned_append, aligned_append, ih]
    simp only [hcopied, reduceCtorEq]
    tauto

theorem rewrite_aligned (h : isLowercaseByteAligned U text = true) :
    isLowercaseByteAligned U (rewrite U text ent) = true ↔
      ent.places U (toLowercase U text) = [] ∨ isLowercaseByteAligned U ent.name.toList = true :=
  aligned_splice h

/-- The loop settles the lowercase form. -/
theorem settles_rewriteAll (hU : U.Lawful) (hkeyed : ∀ ent ∈ ents, ent.Keyed U)
    (h : isLowercaseByteAligned U text = true) :
    Settles U (toLowercase U text) (toLowercase U (rewriteAll U ents text)) := by
  induction ents generalizing text with
  | nil => exact Settles.refl _
  | cons ent ents ih =>
    obtain ⟨hent, hents⟩ := List.forall_mem_cons.1 hkeyed
    have hstep := settles_rewrite hU hent h
    rw [rewriteAll]
    split
    · next haligned => exact hstep.trans hU (ih hents haligned)
    · exact hstep

/-- The lowercase form stays if and only if the entities fit in. -/
theorem lowercase_rewriteAll_iff (hU : U.Lawful) (hkeyed : ∀ ent ∈ ents, ent.Keyed U)
    (h : isLowercaseByteAligned U text = true) :
    toLowercase U (rewriteAll U ents text) = toLowercase U text ↔
      FitIn U (toLowercase U text) ents := by
  induction ents generalizing text with
  | nil => exact iff_of_true rfl trivial
  | cons ent ents ih =>
    obtain ⟨hent, hents⟩ := List.forall_mem_cons.1 hkeyed
    have hfits := lowercase_rewrite_iff hU hent h
    rw [rewriteAll, FitIn, ← rewrite_aligned h]
    by_cases haligned : isLowercaseByteAligned U (rewrite U text ent) = true
    · rw [if_pos haligned]
      constructor
      · intro heq
        -- the lowercase form does not come back: it stays in the first step
        have hsame : toLowercase U (rewrite U text ent) = toLowercase U text :=
          (settles_rewrite hU hent h).antisymm hU (heq ▸ settles_rewriteAll hU hents haligned)
        exact ⟨hfits.1 hsame, fun _ => hsame ▸ (ih hents haligned).1 (heq.trans hsame.symm)⟩
      · rintro ⟨hent, hrest⟩
        have hsame := hfits.2 hent
        exact ((ih hents haligned).2 (hsame ▸ hrest haligned)).trans hsame
    · rw [if_neg haligned]
      exact hfits.trans ⟨fun hfits => ⟨hfits, fun h => absurd h haligned⟩, And.left⟩

end Lowercase

/-! ## The layers of a rewritten text -/

section Layers

variable (U : Unicode)

/-- The rewritings by the entities, each given the lowercase form that those before it
    leave. -/
def layers : List EntityRef → List Char → List (Spans.Layer Char)
  | [], _ => []
  | ent :: ents, textLc => ent.layer U textLc :: layers ents (ent.lowercase U textLc)

/-- The lowercase form that the rewritings leave. -/
def lowercaseAll : List EntityRef → List Char → List Char
  | [], textLc => textLc
  | ent :: ents, textLc => lowercaseAll ents (ent.lowercase U textLc)

variable {U} {text : List Char} {ent : EntityRef} {ents : List EntityRef}

/-- The name of the entity is trimmed, and keeps a text aligned. -/
structure EntityRef.Regular (U : Unicode) (ent : EntityRef) : Prop where
  keyed : ent.Keyed U
  trimmed : trim ent.name.toList = ent.name.toList
  aligned : isLowercaseByteAligned U ent.name.toList = true

/-- The name of a regular entity has as many characters as its key. -/
theorem EntityRef.Regular.length_name (h : ent.Regular U) :
    ent.name.toList.length = ent.normalizedKey.toList.length := by
  rw [h.keyed.key, h.trimmed, length_between_aligned h.aligned]

/-- Each of the entities occurs in no place, or is regular. -/
def Kept (U : Unicode) : List EntityRef → List Char → Prop
  | [], _ => True
  | ent :: ents, textLc => (ent.places U textLc = [] ∨ ent.Regular U) ∧
      Kept U ents (ent.lowercase U textLc)

/-- Regular names keep the text aligned. -/
theorem kept_of_regular (h : ∀ ent ∈ ents, ent.Regular U) (textLc : List Char) :
    Kept U ents textLc := by
  induction ents generalizing textLc with
  | nil => trivial
  | cons ent ents ih =>
    obtain ⟨hent, hents⟩ := List.forall_mem_cons.1 h
    exact ⟨.inr hent, ih hents _⟩

/-- Where there is no place, the lowercase form stays. -/
theorem lowercase_of_no_places {textLc : List Char} (h : ent.places U textLc = []) :
    ent.lowercase U textLc = textLc := by
  rw [EntityRef.lowercase, h]
  rfl

/-- The places of a name fit in the text. -/
theorem layer_fits {textLc : List Char} (h : ent.places U textLc = [] ∨ ent.Regular U) :
    (ent.layer U textLc).Fits textLc.length where
  spaced := places_spaced
  size hplaces := (h.resolve_left hplaces).length_name

/-- The loop applies the layers, if each entity is regular where it occurs. -/
theorem rewriteAll_layers (hU : U.Lawful) (hkept : Kept U ents (toLowercase U text))
    (h : isLowercaseByteAligned U text = true) :
    rewriteAll U ents text = Spans.Layer.applyAll (layers U ents (toLowercase U text)) text ∧
      isLowercaseByteAligned U (rewriteAll U ents text) = true ∧
      toLowercase U (rewriteAll U ents text) = lowercaseAll U ents (toLowercase U text) ∧
      ∀ l ∈ layers U ents (toLowercase U text), l.Fits text.length := by
  induction ents generalizing text with
  | nil => exact ⟨rfl, h, rfl, fun l hl => absurd hl List.not_mem_nil⟩
  | cons ent ents ih =>
    obtain ⟨hent, hents⟩ := hkept
    have haligned : isLowercaseByteAligned U (rewrite U text ent) = true :=
      (rewrite_aligned h).2 (hent.imp_right EntityRef.Regular.aligned)
    have hlowercase : toLowercase U (rewrite U text ent) =
        ent.lowercase U (toLowercase U text) := by
      rcases hent with hplaces | hregular
      · rw [rewrite_of_no_places hplaces, lowercase_of_no_places hplaces]
      · exact lowercase_rewrite hU hregular.keyed h hregular.trimmed
    have hfits : (ent.layer U (toLowercase U text)).Fits text.length :=
      length_lowercase_aligned h ▸ layer_fits hent
    have hlength : (rewrite U text ent).length = text.length := hfits.length_apply
    rw [← hlowercase] at hents
    obtain ⟨hall, haligned', hlower, hlayers⟩ := ih hents haligned
    rw [rewriteAll, if_pos haligned, layers, lowercaseAll, ← hlowercase]
    refine ⟨hall, haligned', hlower, List.forall_mem_cons.2 ⟨hfits, fun l hl => ?_⟩⟩
    exact hlength ▸ hlayers l hl

/-- If the entities fit in, and the text that the loop leaves is aligned, then the ones
    that occur are regular. -/
theorem kept_of_fitIn (hU : U.Lawful) (hkeyed : ∀ ent ∈ ents, ent.Keyed U)
    (hfit : FitIn U (toLowercase U text) ents) (h : isLowercaseByteAligned U text = true)
    (haligned : isLowercaseByteAligned U (rewriteAll U ents text) = true) :
    Kept U ents (toLowercase U text) := by
  induction ents generalizing text with
  | nil => trivial
  | cons ent ents ih =>
    obtain ⟨hent, hents⟩ := List.forall_mem_cons.1 hkeyed
    obtain ⟨hfits, hrest⟩ := hfit
    have hsame := (lowercase_rewrite_iff hU hent h).2 hfits
    rw [rewriteAll] at haligned
    split at haligned
    · next hnext =>
      have hregular : ent.places U (toLowercase U text) = [] ∨ ent.Regular U := by
        by_cases hplaces : ent.places U (toLowercase U text) = []
        · exact .inl hplaces
        · obtain ⟨i, hi⟩ := List.exists_mem_of_ne_nil _ hplaces
          exact .inr ⟨hent, (hfits i hi).1, ((rewrite_aligned h).1 hnext).resolve_left hplaces⟩
      have hlowercase : ent.lowercase U (toLowercase U text) = toLowercase U text := by
        rcases hregular with hplaces | hregular
        · exact lowercase_of_no_places hplaces
        · rw [← lowercase_rewrite hU hent h hregular.trimmed, hsame]
      refine ⟨hregular, ?_⟩
      rw [hlowercase, ← hsame]
      exact ih hents (hsame ▸ hrest ((rewrite_aligned h).1 hnext)) hnext haligned
    · next hnext => exact absurd haligned hnext

/-- If the entities fit in, the loop leaves what it has left as it is. -/
theorem rewriteAll_rewriteAll (hU : U.Lawful) (hkeyed : ∀ ent ∈ ents, ent.Keyed U)
    (hfit : FitIn U (toLowercase U text) ents) (h : isLowercaseByteAligned U text = true)
    (haligned : isLowercaseByteAligned U (rewriteAll U ents text) = true) :
    rewriteAll U ents (rewriteAll U ents text) = rewriteAll U ents text := by
  have hkept := kept_of_fitIn hU hkeyed hfit h haligned
  have hsame := (lowercase_rewriteAll_iff hU hkeyed h).2 hfit
  have hagain := hkept
  rw [← hsame] at hagain
  obtain ⟨hall, -, -, hlayers⟩ := rewriteAll_layers hU hkept h
  rw [(rewriteAll_layers hU hagain haligned).1, hsame, hall]
  exact Spans.Layer.applyAll_applyAll hlayers

end Layers

/-! ## Normalized texts -/

section Normalized

/-- The new text is the text with other cases, and a scan leaves it as it is. -/
structure Normalizes (U : Unicode) (catalogue : DedupCatalogue) (text newText : String) : Prop where
  lowercase : toLowercase U newText.toList = toLowercase U text.toList
  rescanned : Scanned U catalogue newText newText

/-- A text that is rewritten is normalized if and only if the entities fit in. -/
theorem rewrite_normalizes {U : Unicode} (hU : U.Lawful) {catalogue : DedupCatalogue}
    (hfetched : catalogue.Fetched U) {text newText : String} {rewrites : List EntityRef}
    (h : scanTextWithCatalogue U catalogue text = some (.rewritten newText rewrites)) :
    Normalizes U catalogue text newText ↔
      FitIn U (toLowercase U text.toList) catalogue.personal := by
  have haligned := rewritten_aligned h
  have hkeyed : ∀ ent ∈ catalogue.personal, ent.Keyed U := fun ent hent =>
    (hfetched.personal ent hent).1
  have hscanned : Scanned U catalogue text newText := .inr ⟨rewrites, h⟩
  obtain ⟨hshared, hnew⟩ := hscanned.eq_rewriteAll haligned
  have hiff := lowercase_rewriteAll_iff hU hkeyed haligned
  rw [← hnew] at hiff
  refine ⟨fun hnormalizes => hiff.1 hnormalizes.lowercase, fun hfit => ⟨hiff.2 hfit, ?_⟩⟩
  by_cases hagain : isLowercaseByteAligned U newText.toList = true
  · have hsame := rewriteAll_rewriteAll hU hkeyed hfit haligned (hnew ▸ hagain)
    have hscan := scanned_rewriteAll hagain (hiff.2 hfit ▸ hshared)
    rwa [hnew, hsame, ← hnew, String.ofList_toList] at hscan
  · exact .inl ⟨scan_of_unaligned hagain, rfl⟩

/-- The tables on ASCII are lawful. -/
theorem ascii_lawful : Unicode.ascii.Lawful := by
  have halike : ∀ c d : Char, Unicode.ascii.isCaseIgnorable c = Unicode.ascii.isCaseIgnorable d →
      Unicode.ascii.isCased c = Unicode.ascii.isCased d → Alike .ascii [c] [d] := by
    intro c d hignorable hcased r
    rw [List.singleton_append, List.singleton_append, caseIgnorableThenCased_cons,
      caseIgnorableThenCased_cons, hignorable, hcased]
  have hlower : ∀ c : Char, Alike .ascii [c.toLower] [c] := by
    intro c
    by_cases hupper : c.val ≥ 'A'.val ∧ c.val ≤ 'Z'.val
    · have hall : ∀ n ∈ List.range' 65 26,
          Unicode.ascii.isCaseIgnorable (Char.ofNat n).toLower =
              Unicode.ascii.isCaseIgnorable (Char.ofNat n) ∧
            Unicode.ascii.isCased (Char.ofNat n).toLower =
              Unicode.ascii.isCased (Char.ofNat n) := by decide
      have hle : 65 ≤ c.toNat ∧ c.toNat ≤ 90 :=
        ⟨UInt32.le_iff_toNat_le.1 hupper.1, UInt32.le_iff_toNat_le.1 hupper.2⟩
      have hc := hall c.toNat (List.mem_range'_1.2 (by omega))
      rw [Char.ofNat_toNat] at hc
      exact halike _ _ hc.1 hc.2
    · have hsame : c.toLower = c := dif_neg hupper
      rw [hsame]
      exact Alike.refl [c]
  exact ⟨hlower, hlower, halike _ _ rfl rfl, halike _ _ rfl rfl⟩

/-- The catalogue of one name of the user's. -/
def oneName (name : String) : DedupCatalogue := ⟨[], [.new .ascii name "Project" "own"]⟩

/-- A catalogue of a name that is not blank may be fetched. -/
theorem oneName_fetched {name : String} (h : trimmed name ≠ "") :
    (oneName name).Fetched .ascii where
  shared _ h := absurd h List.not_mem_nil
  personal ent hent := by
    rw [List.mem_singleton.1 hent]
    exact ⟨rfl, h⟩

/-- A name is normalized at both of its places. -/
theorem rewrite_normalizes_twice : scanTextWithCatalogue .ascii (oneName "Foo") "FOO or foo" =
      some (.rewritten "Foo or Foo" (oneName "Foo").personal) ∧
    (Normalizes .ascii (oneName "Foo") "FOO or foo" "Foo or Foo" ↔
      FitIn .ascii "foo or foo".toList (oneName "Foo").personal) := by
  have hscan : scanTextWithCatalogue .ascii (oneName "Foo") "FOO or foo" =
      some (.rewritten "Foo or Foo" (oneName "Foo").personal) := by decide
  have hiff := rewrite_normalizes ascii_lawful (oneName_fetched (by decide)) hscan
  have hlower : toLowercase .ascii "FOO or foo".toList = "foo or foo".toList := by decide
  exact ⟨hscan, hlower ▸ hiff⟩

/-- A name with a blank before it makes the text longer. -/
theorem blank_not_normalized : ¬∀ (U : Unicode) (catalogue : DedupCatalogue),
    U.Lawful → catalogue.Fetched U → ∀ text newText rewrites,
      scanTextWithCatalogue U catalogue text = some (.rewritten newText rewrites) →
        Normalizes U catalogue text newText := by
  intro hall
  have hscan : scanTextWithCatalogue .ascii (oneName " Foo") "x foo" =
      some (.rewritten "x  Foo" (oneName " Foo").personal) := by decide
  have hnormalizes := hall .ascii (oneName " Foo") ascii_lawful
    (oneName_fetched (by decide)) _ _ _ hscan
  exact absurd hnormalizes.lowercase (by decide)

end Normalized

/-! ## Names that overlap -/

section Overlaps

variable (U : Unicode)

/-- The key of the entity occurs at a position of a lowercase text, and overlaps those
    of others only if they are within it. -/
def Dominant (ents : List EntityRef) (textLc : List Char) (ent : EntityRef) (i : ℕ) : Prop :=
  Spans.OccursAt (wordBounded U) ent.normalizedKey.toList textLc i ∧
    ∀ other ∈ ents, other ≠ ent → ∀ j,
      Spans.OccursAt (wordBounded U) other.normalizedKey.toList textLc j →
        j < i + ent.normalizedKey.toList.length → i < j + other.normalizedKey.toList.length →
          i ≤ j ∧ j + other.normalizedKey.toList.length ≤ i + ent.normalizedKey.toList.length

/-- Where the key of an entity is dominant in the text, it is spelled as its name. -/
def Spelled (ents : List EntityRef) (text : List Char) : Prop :=
  ∀ ent ∈ ents, ∀ i, Dominant U ents (toLowercase U text) ent i →
    Spans.span ent.normalizedKey.toList.length text i = ent.name.toList

/-- Where the key of an entity is dominant, the characters of its name are those of the
    name of the last entity that is put there, or of the text, if none is. -/
def Undamaged (ents : List EntityRef) (text : List Char) : Prop :=
  ∀ ent ∈ ents, ∀ i, Dominant U ents (lowercaseAll U ents (toLowercase U text)) ent i →
    ∀ q < ent.normalizedKey.toList.length,
      (Spans.Layer.top (layers U ents (toLowercase U text)) (i + q)).or text[i + q]? =
        ent.name.toList[q]?

variable {U}

/-- The names of regular entities are spelled as they are if and only if none is
    damaged. -/
theorem rewrite_spells (hU : U.Lawful) {catalogue : DedupCatalogue}
    (hregular : ∀ ent ∈ catalogue.personal, ent.Regular U) {text out : String}
    (h : isLowercaseByteAligned U text.toList = true) (hs : Scanned U catalogue text out) :
    Spelled U catalogue.personal out.toList ↔ Undamaged U catalogue.personal text.toList := by
  have hkept : Kept U catalogue.personal (toLowercase U text.toList) := kept_of_regular hregular _
  obtain ⟨hall, haligned, hlower, hfits⟩ := rewriteAll_layers hU hkept h
  rw [← (hs.eq_rewriteAll h).2] at hall haligned hlower
  have hlength := length_lowercase_aligned haligned
  rw [Spelled, Undamaged, hlower]
  refine forall₂_congr fun ent hent => forall₂_congr fun i hi => ?_
  have hin := hi.1.le
  rw [← hlower, hlength] at hin
  rw [Spans.span_eq_iff (hregular ent hent).length_name hin]
  refine forall₂_congr fun q hq => ?_
  rw [hall, Spans.Layer.getElem?_applyAll hfits]

/-- A name of two words, and one of them as another name. -/
def wordCatalogue : DedupCatalogue :=
  ⟨[], [.new .ascii "Foo Bar" "Project" "own", .new .ascii "bar" "Topic" "own"]⟩

theorem wordCatalogue_regular : ∀ ent ∈ wordCatalogue.personal, ent.Regular .ascii := by
  intro ent hent
  rcases List.mem_cons.1 hent with rfl | hent
  · exact ⟨rfl, by decide, by decide⟩
  · rw [List.mem_singleton.1 hent]
    exact ⟨rfl, by decide, by decide⟩

/-- The same names, the word before the name that it is in. -/
def wordFirst : DedupCatalogue := ⟨[], wordCatalogue.personal.reverse⟩

/-- The word is put in its own place only, since the longer name comes after it. -/
theorem wordFirst_undamaged :
    Undamaged .ascii wordFirst.personal "see foo BAR or BAR".toList := by
  have hplaces : ∀ ent ∈ wordFirst.personal, ∀ i ≤ 18, Spans.OccursAt (wordBounded .ascii)
        ent.normalizedKey.toList (lowercaseAll .ascii wordFirst.personal
          (toLowercase .ascii "see foo BAR or BAR".toList)) i →
      (∃ other ∈ wordFirst.personal, other ≠ ent ∧ Spans.OccursAt (wordBounded .ascii)
        other.normalizedKey.toList (lowercaseAll .ascii wordFirst.personal
          (toLowercase .ascii "see foo BAR or BAR".toList)) 4 ∧
        4 < i + ent.normalizedKey.toList.length ∧ i < 4 + other.normalizedKey.toList.length ∧
          4 < i) ∨
      ∀ q < ent.normalizedKey.toList.length,
        (Spans.Layer.top (layers .ascii wordFirst.personal
          (toLowercase .ascii "see foo BAR or BAR".toList)) (i + q)).or
            ("see foo BAR or BAR".toList)[i + q]? = ent.name.toList[q]? := by decide
  have hlen : (lowercaseAll .ascii wordFirst.personal
      (toLowercase .ascii "see foo BAR or BAR".toList)).length = 18 := by decide
  intro ent hent i hi
  rcases hplaces ent hent i (hlen ▸ hi.1.1) hi.1 with ⟨other, hother, hne, hat, hl, hr, hlt⟩ | hq
  · exact absurd (hi.2 other hother hne 4 hat hl hr).1 (not_le.2 hlt)
  · exact hq

/-- Both names are spelled as they are, the one in the other and the one alone. -/
theorem rewrite_spells_twice :
    scanTextWithCatalogue .ascii wordFirst "see foo BAR or BAR" =
      some (.rewritten "see Foo Bar or bar" wordFirst.personal) ∧
    Spelled .ascii wordFirst.personal "see Foo Bar or bar".toList := by
  have hscan : scanTextWithCatalogue .ascii wordFirst "see foo BAR or BAR" =
      some (.rewritten "see Foo Bar or bar" wordFirst.personal) := by decide
  have hregular : ∀ ent ∈ wordFirst.personal, ent.Regular .ascii := fun ent hent =>
    wordCatalogue_regular ent (List.mem_reverse.1 hent)
  exact ⟨hscan, (rewrite_spells ascii_lawful hregular (by decide)
    (.inr ⟨_, hscan⟩)).2 wordFirst_undamaged⟩

/-- The later name is seen in the earlier one. -/
theorem word_damaged : ¬∀ (U : Unicode) (catalogue : DedupCatalogue), U.Lawful →
    (∀ ent ∈ catalogue.personal, ent.Regular U) →
    (catalogue.personal.map (·.normalizedKey)).Nodup → ∀ text out,
      isLowercaseByteAligned U text.toList = true → Scanned U catalogue text out →
        Spelled U catalogue.personal out.toList := by
  intro hall
  have hscan : scanTextWithCatalogue .ascii wordCatalogue "see foo bar" =
      some (.rewritten "see Foo bar" wordCatalogue.personal) := by decide
  have hspelled := hall .ascii wordCatalogue ascii_lawful wordCatalogue_regular
    (by decide) _ _ (by decide) (.inr ⟨_, hscan⟩)
  refine absurd (hspelled _ List.mem_cons_self 4 ⟨by decide, ?_⟩) (by decide)
  intro other hother hne j hj _ _
  have hlower : toLowercase .ascii "see Foo bar".toList = "see foo bar".toList := by decide
  rw [hlower] at hj
  have hplaces : ∀ other ∈ wordCatalogue.personal, ∀ j ≤ 11,
      Spans.OccursAt (wordBounded .ascii) other.normalizedKey.toList "see foo bar".toList j →
        4 ≤ j ∧ j + other.normalizedKey.toList.length ≤ 11 := by decide
  have hlen : ("see foo bar".toList).length = 11 := by decide
  have hkey : ((EntityRef.new .ascii "Foo Bar" "Project" "own").normalizedKey.toList).length = 7 := by
    decide
  rw [hkey]
  exact hplaces other hother j (hlen ▸ hj.1) hj

end Overlaps

end LlmMemory.Vegapunk
