import LlmMemory.Lib.Selection
import LlmMemory.Vegapunk.Dedup

/-!
# The names in the prompt

The names of a catalogue are sanitized for the prompt, and capped. They are capped
before that, too (`catalogueCanonicalNames`), which leaves the prompt as it is unless
a name among the first ones is sanitized to nothing, and one after them is not
(`prompt_cap`).
-/

namespace LlmMemory.Vegapunk

open Effects Selection

/-! ## The cap -/

section Cap

/-- The names, trimmed, each one once, however many there are. -/
def allCanonicalNames (catalogue : DedupCatalogue) : List String :=
  keepFirst some [] (((catalogue.shared ++ catalogue.personal).map fun ent =>
    trimmed ent.name).filter (· ≠ ""))

/-- The sanitized names of the prompt, of all the names. -/
def allPromptNames (catalogue : DedupCatalogue) : List String :=
  (((allCanonicalNames catalogue).map sanitizeCatalogueName).filter (· ≠ "")).take
    MAX_CATALOGUE_ENTRIES

/-- No name that the early cap leaves is sanitized to nothing, or all those that it
    leaves out are. -/
def CapHarmless (catalogue : DedupCatalogue) : Prop :=
  (∀ name ∈ (allCanonicalNames catalogue).take MAX_CATALOGUE_ENTRIES,
      sanitizeCatalogueName name ≠ "") ∨
    ∀ name ∈ (allCanonicalNames catalogue).drop MAX_CATALOGUE_ENTRIES,
      sanitizeCatalogueName name = ""

/-- The loop stops at the cap. -/
theorem distinctNames_eq {cap : ℕ} {out : List String} {ents : List EntityRef}
    (hout : out.length ≤ cap) : distinctNames cap out ents =
      (out ++ keepFirst some out ((ents.map fun ent => trimmed ent.name).filter (· ≠ ""))).take
        cap := by
  induction ents generalizing out with
  | nil => simp [distinctNames, keepFirst, List.take_of_length_le hout]
  | cons ent ents ih =>
    rw [distinctNames]
    split
    · next hcap => rw [List.take_left' (Nat.le_antisymm hout hcap)]
    · next hcap =>
      rw [List.map_cons, List.filter_cons]
      by_cases hblank : trimmed ent.name = ""
      · rw [if_pos (.inl hblank), ih hout]
        simp [hblank]
      · rw [if_pos (decide_eq_true hblank), keepFirst_some rfl]
        by_cases hmem : trimmed ent.name ∈ out
        · rw [if_pos (.inr hmem), if_pos hmem, ih hout]
        · rw [if_neg (not_or.2 ⟨hblank, hmem⟩), if_neg hmem, ih (by simp; omega)]
          rw [List.append_assoc, List.singleton_append]
          congr 3
          exact keepFirst_congr fun k => by simp [or_comm]

/-- The names that the prompt is built from are the first ones. -/
theorem catalogueCanonicalNames_eq {catalogue : DedupCatalogue} :
    catalogueCanonicalNames catalogue =
      (allCanonicalNames catalogue).take MAX_CATALOGUE_ENTRIES :=
  distinctNames_eq (Nat.zero_le _)

/-- A cap before a filter, besides the one after it, makes no difference if nothing of
    what it leaves is filtered out, or all of what it leaves out is. -/
theorem take_filter_iff {α : Type} {p : α → Bool} {l : List α} {n : ℕ} :
    ((l.take n).filter p).take n = (l.filter p).take n ↔
      (∀ a ∈ l.take n, p a = true) ∨ ∀ a ∈ l.drop n, p a = false := by
  have hlen : ((l.take n).filter p).length ≤ n :=
    (List.length_filter_le _ _).trans (List.length_take_le _ _)
  have hsplit : (l.filter p).take n = (l.take n).filter p ++
      ((l.drop n).filter p).take (n - ((l.take n).filter p).length) := by
    conv_lhs => rw [← List.take_append_drop n l, List.filter_append, List.take_append]
    rw [List.take_of_length_le hlen]
  rw [hsplit, List.take_of_length_le hlen, List.self_eq_append_right, List.take_eq_nil_iff,
    Nat.sub_eq_zero_iff_le, List.filter_eq_nil_iff]
  simp only [Bool.not_eq_true]
  constructor
  · rintro (hfull | hnone)
    · -- as many are left as there can be: none is filtered out
      refine .inl (List.length_filter_eq_length_iff.1 (Nat.le_antisymm ?_ ?_))
      · exact List.length_filter_le _ _
      · exact (List.length_take_le _ _).trans hfull
    · exact .inr hnone
  · rintro (hall | hnone)
    · rcases Nat.le_total n l.length with hle | hle
      · refine .inl ?_
        rw [List.length_filter_eq_length_iff.2 hall, List.length_take_of_le hle]
      · refine .inr fun a ha => ?_
        rw [List.drop_eq_nil_of_le hle] at ha
        exact absurd ha List.not_mem_nil
    · exact .inr hnone

/-- The early cap leaves the prompt exactly if it is harmless. -/
theorem prompt_eq_iff {catalogue : DedupCatalogue} :
    sanitizeCatalogueNamesForPrompt (catalogueCanonicalNames catalogue) =
      allPromptNames catalogue ↔ CapHarmless catalogue := by
  rw [sanitizeCatalogueNamesForPrompt, allPromptNames, catalogueCanonicalNames_eq, List.map_take,
    take_filter_iff, CapHarmless]
  simp [← List.map_take, ← List.map_drop]

/-- The early cap leaves the prompt as it is exactly if it is harmless. -/
theorem prompt_cap (catalogue : DedupCatalogue) :
    sanitizeCatalogueNamesForPrompt (catalogueCanonicalNames catalogue) =
      allPromptNames catalogue ↔ CapHarmless catalogue :=
  prompt_eq_iff

/-! ### A name that is sanitized to nothing -/

/-- A control character, before two hundred others. -/
def controlChars : List Char := '\x00' :: (List.range 200).map fun i => Char.ofNat (0x4E00 + i)

/-- The names of one such character each. -/
def controlNames : List String := controlChars.map fun c => String.ofList [c]

/-- A catalogue of these names, in the shared schema. -/
def controlCatalogue : DedupCatalogue :=
  ⟨controlNames.map fun name => .new .ascii name "Project" "shared", []⟩

theorem trimmed_controlName {name : String} (h : name ∈ controlNames) :
    trimmed name = name ∧ name ≠ "" := by
  obtain ⟨c, hc, rfl⟩ := List.mem_map.1 h
  have hall : (controlChars.all fun c => !Search.isWhiteSpace c) = true := by decide
  have hspace : ∀ c ∈ controlChars, Search.isWhiteSpace c = false := fun c hc => by
    simpa using List.all_eq_true.1 hall c hc
  refine ⟨?_, fun hnil => ?_⟩
  · simp [trimmed, trim, trimStart, hspace c hc]
  · have hnil := congrArg String.toList hnil
    simp at hnil

theorem controlCatalogue_fetched : controlCatalogue.Fetched .ascii := by
  have hnil : Fetched .ascii [] := fun _ h => absurd h List.not_mem_nil
  have hblank : ∀ name ∈ controlNames, trimmed name ≠ "" := by
    intro name h
    obtain ⟨htrimmed, hname⟩ := trimmed_controlName h
    rwa [htrimmed]
  exact ⟨hnil.append hblank, hnil⟩

theorem allCanonicalNames_control : allCanonicalNames controlCatalogue = controlNames := by
  have hnodup : controlNames.Nodup := by
    have hcodes : controlChars.map Char.toNat = 0 :: List.range' 0x4E00 200 := by decide +kernel
    have hchars : (controlChars.map Char.toNat).Nodup := by
      rw [hcodes]
      exact List.nodup_cons.2 ⟨by simp, List.nodup_range'⟩
    refine (List.Nodup.of_map _ hchars).map fun c d h => ?_
    exact List.singleton_inj.1 (String.ofList_injective h)
  have hnames : (controlCatalogue.shared ++ controlCatalogue.personal).map
      (fun ent => trimmed ent.name) = controlNames := by
    rw [controlCatalogue, List.append_nil, List.map_map]
    exact (List.map_congr_left fun name h => (trimmed_controlName h).1).trans (List.map_id _)
  have hkeep : keepFirst some [] controlNames = controlNames.filter fun name => name ∉ [] :=
    @keepFirst_eq_filter String String _ (fun name => name) [] _ (by rwa [List.map_id'])
  have hne : ∀ name ∈ controlNames, decide (name ≠ "") = true := fun name h =>
    decide_eq_true (trimmed_controlName h).2
  rw [allCanonicalNames, hnames, List.filter_eq_self.2 hne, hkeep]
  simp

/-- The name after the cap would be in the prompt. -/
theorem cap_changes_prompt : ¬∀ U catalogue, DedupCatalogue.Fetched U catalogue →
    sanitizeCatalogueNamesForPrompt (catalogueCanonicalNames catalogue) =
      allPromptNames catalogue := by
  intro hall
  have heq := hall .ascii controlCatalogue controlCatalogue_fetched
  rw [prompt_eq_iff, CapHarmless, allCanonicalNames_control] at heq
  rcases heq with hnone | hlater
  · exact hnone "\x00" List.mem_cons_self (by decide)
  · have hlast := hlater (String.ofList [Char.ofNat (0x4E00 + 199)]) (by decide)
    exact absurd hlast (by decide)

end Cap

end LlmMemory.Vegapunk
