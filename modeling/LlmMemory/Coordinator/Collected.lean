import LlmMemory.Coordinator.Inputs
import LlmMemory.Lib.Alone
import LlmMemory.Lib.Selection

/-!
# The input of a synthesis

The input of a synthesis is a part of three lists of raws, one after the other: those
that the references of the page name, the new ones, and those that are found by the
name of the concept. Of each id the first raw is taken, up to the limit
(`build_alone`). The search is only done if the first two lists do not fill the input,
for twice as many raws as are missing then.
-/

namespace LlmMemory.InputBuilder

open Effects Selection

/-- The first raw of each id that is not one of `out`. -/
def fresh (out rs : List Raw) : List Raw := keepFirst (fun r => some r.id) (out.map (·.id)) rs

/-- The raws of different ids of a list, in order. -/
abbrev byId (rs : List Raw) : List Raw := fresh [] rs

variable {out rs newRaws : List Raw} {refs : List String} {r : Raw}

/-- The ids are those that are seen. -/
theorem mem_ids_iff {id : String} : id ∈ out.map (·.id) ↔ seen out id = true := by
  rw [seen_iff, List.mem_map]

theorem fresh_cons : fresh out (r :: rs) =
    if seen out r.id then fresh out rs else r :: fresh (out ++ [r]) rs := by
  rw [fresh, keepFirst_cons]
  simp only [mem_ids_iff]
  split
  · rfl
  · congr 1
    refine keepFirst_congr fun k => ?_
    simp [or_comm]

theorem byId_append : byId (out ++ rs) = byId out ++ fresh (byId out) rs := by
  rw [byId, fresh, keepFirst_append_seen]
  rw [fresh, byId, fresh, List.map_nil, List.append_nil]

theorem nodup_byId : ((byId rs).map (·.id)).Nodup := nodup_map_keepFirst

/-- Taking raws fills the input up to the limit. -/
theorem takeUnseen_eq (h : out.length < INPUT_LIMIT) :
    takeUnseen rs out = (out ++ fresh out rs).take INPUT_LIMIT := by
  induction rs generalizing out with
  | nil => rw [takeUnseen, fresh, keepFirst, List.append_nil, List.take_of_length_le h.le]
  | cons r rs ih =>
    rw [takeUnseen, fresh_cons]
    split
    · exact ih h
    · rw [List.append_cons out r (fresh (out ++ [r]) rs)]
      split
      · next hfull =>
        have hlen : (out ++ [r]).length = INPUT_LIMIT :=
          le_antisymm (by simpa using Nat.succ_le_of_lt h) hfull
        rw [List.take_append_of_le_length hlen.ge, List.take_of_length_le hlen.le]
      · next hfull => exact ih (not_le.1 hfull)

/-! ## The run of the program -/

section Run

variable {A : (o : Op) → Option o.Ans} {rows : String → Option Raw}
  {hits : Search.SearchQuery → List Raw}

/-- A program run alone, its operations answered by `A`. -/
abbrev answered {α : Type} (A : (o : Op) → Option o.Ans) (p : Rebuild α) :
    Option (List Op × Except CoordinatorError α × Unit) :=
  p.alone (fun _ _ _ => ()) (fun _ => A) ()

/-- The references load their raws up to the limit, by no other operation. -/
theorem loadRefs_alone (hget : ∀ id, A (.rawsGet id) = some (.ok (rows id)))
    (hid : ∀ id r, rows id = some r → r.id = id) (refs : List String)
    (h : out.length < INPUT_LIMIT) : ∃ os, answered A (loadRefs refs out) =
        some (os, .ok ((out ++ fresh out (refs.filterMap rows)).take INPUT_LIMIT), ()) ∧
      ∀ o ∈ os, ∃ id, o = .rawsGet id := by
  induction refs generalizing out with
  | nil =>
    refine ⟨[], ?_, nofun⟩
    rw [List.filterMap_nil, fresh, keepFirst, List.append_nil, List.take_of_length_le h.le]
    rfl
  | cons ref refs ih =>
    rw [loadRefs]
    have hcall : answered A (query (.rawsGet ref) id) =
        some ([.rawsGet ref], .ok (rows ref), ()) := Attempt.alone_call (hget ref)
    have hops : ∀ {os : List Op}, (∀ o ∈ os, ∃ id, o = .rawsGet id) →
        ∀ o ∈ [.rawsGet ref] ++ os, ∃ id, o = .rawsGet id := by
      intro os hos o ho
      rcases List.mem_append.1 ho with ho | ho
      · exact ⟨ref, List.mem_singleton.1 ho⟩
      · exact hos o ho
    by_cases hs : seen out ref = true
    · -- a row of this reference is there already
      rw [if_pos hs]
      obtain ⟨os, hos, hget'⟩ := ih h
      refine ⟨os, hos.trans ?_, hget'⟩
      cases hrow : rows ref with
      | none => rw [List.filterMap_cons_none hrow]
      | some r =>
        rw [List.filterMap_cons_some hrow, fresh_cons, if_pos (by rw [hid ref r hrow]; exact hs)]
    · rw [if_neg hs]
      cases hrow : rows ref with
      | none =>
        obtain ⟨os, hos, hget'⟩ := ih h
        rw [List.filterMap_cons_none hrow]
        rw [hrow] at hcall
        exact ⟨_, Attempt.alone_ok hcall hos, hops hget'⟩
      | some r =>
        rw [hrow] at hcall
        rw [List.filterMap_cons_some hrow, fresh_cons, if_neg (by rw [hid ref r hrow]; exact hs),
          List.append_cons out r (fresh (out ++ [r]) (refs.filterMap rows))]
        by_cases hfull : INPUT_LIMIT ≤ (out ++ [r]).length
        -- the row fills the input, and no reference after it is loaded
        · have hlen : (out ++ [r]).length = INPUT_LIMIT :=
            le_antisymm (by simpa using Nat.succ_le_of_lt h) hfull
          have hnone : ∀ o ∈ ([] : List Op), ∃ id, o = .rawsGet id := by
            intro o ho
            cases ho
          refine ⟨[.rawsGet ref] ++ [], Attempt.alone_ok hcall ?_, hops hnone⟩
          dsimp only
          rw [if_pos hfull, List.take_append_of_le_length hlen.ge, List.take_of_length_le hlen.le]
          rfl
        · obtain ⟨os, hos, hget'⟩ := ih (not_le.1 hfull)
          refine ⟨_, Attempt.alone_ok hcall ?_, hops hget'⟩
          dsimp only
          rw [if_neg hfull]
          exact hos

/-- The raws collected before the search, those the references name and the new ones. -/
def collected (rows : String → Option Raw) (refs : List String) (newRaws : List Raw) : List Raw :=
  (byId (refs.filterMap rows ++ newRaws)).take INPUT_LIMIT

/-- The search for twice as many raws as are missing, once `n` are collected. -/
def searchFor (key : OwnerKey) (concept : String) (n : ℕ) : Search.SearchQuery :=
  ⟨concept, some key.scope, some key.ownerId, (INPUT_LIMIT - n : ℕ) * 2⟩

/-- What is collected, as a prefix of the first raws of each id. -/
theorem collected_eq (rows : String → Option Raw) (refs : List String) (newRaws : List Raw) :
    collected rows refs newRaws =
      (byId (refs.filterMap rows) ++ fresh (byId (refs.filterMap rows)) newRaws).take INPUT_LIMIT := by
  rw [collected, byId_append]

/-- What is collected is all that there is, if it does not fill the input. -/
theorem collected_of_lt (h : (collected rows refs newRaws).length < INPUT_LIMIT) :
    collected rows refs newRaws = byId (refs.filterMap rows ++ newRaws) := by
  rw [collected, List.length_take] at h
  exact List.take_of_length_le ((min_lt_iff.1 h).resolve_left (lt_irrefl _)).le

/-- It is at the front of the input, and is the input if it fills it. -/
theorem collected_of_full (rs : List Raw)
    (h : INPUT_LIMIT ≤ (collected rows refs newRaws).length) :
    (byId (refs.filterMap rows ++ newRaws ++ rs)).take INPUT_LIMIT =
      collected rows refs newRaws := by
  rw [collected, List.length_take] at h
  rw [byId_append, List.take_append_of_le_length (h.trans (min_le_right _ _)), collected]

/-- The run of the program that builds the input. -/
theorem build_alone (hget : ∀ id, A (.rawsGet id) = some (.ok (rows id)))
    (hid : ∀ id r, rows id = some r → r.id = id)
    (hsearch : ∀ q, A (.searchRaws q) = some (.ok (hits q)))
    (key : OwnerKey) (concept : String) (refs : List String) (newRaws : List Raw) :
    ∃ os, answered A (build key concept refs newRaws) = some (os, .ok
        ((byId (refs.filterMap rows ++ newRaws ++
          hits (searchFor key concept (collected rows refs newRaws).length))).take INPUT_LIMIT), ()) ∧
      ∀ q, .searchRaws q ∈ os ↔ (collected rows refs newRaws).length < INPUT_LIMIT ∧
        q = searchFor key concept (collected rows refs newRaws).length := by
  obtain ⟨os, hos, hops⟩ := loadRefs_alone hget hid refs
    (show ([] : List Raw).length < INPUT_LIMIT by decide)
  have hno : ∀ q, .searchRaws q ∉ os := by
    intro q hq
    obtain ⟨id, he⟩ := hops _ hq
    cases he
  have hcoll := collected_eq rows refs newRaws
  rw [List.nil_append] at hos
  by_cases h₁ : INPUT_LIMIT ≤ (byId (refs.filterMap rows)).length
  -- the references fill the input: no new raw is taken, and nothing is searched
  · have hrefs : collected rows refs newRaws = (byId (refs.filterMap rows)).take INPUT_LIMIT := by
      rw [hcoll, List.take_append_of_le_length h₁]
    have hle : INPUT_LIMIT ≤ (collected rows refs newRaws).length := by
      rw [hrefs, List.length_take_of_le h₁]
    refine ⟨os ++ [], Attempt.alone_ok hos ?_, fun q => ⟨fun hq => ?_, fun hq => ?_⟩⟩
    · dsimp only
      rw [collected_of_full _ hle, hrefs, if_pos (List.length_take_of_le h₁).ge]
      rfl
    · rw [List.append_nil] at hq
      exact absurd hq (hno q)
    · exact absurd hle (not_le.2 hq.1)
  · have hlt := not_le.1 h₁
    have hall : (byId (refs.filterMap rows)).take INPUT_LIMIT = byId (refs.filterMap rows) :=
      List.take_of_length_le hlt.le
    have htake : takeUnseen newRaws (byId (refs.filterMap rows)) =
        collected rows refs newRaws := (takeUnseen_eq hlt).trans hcoll.symm
    by_cases h₂ : INPUT_LIMIT ≤ (collected rows refs newRaws).length
    · refine ⟨os ++ [], Attempt.alone_ok hos ?_, fun q => ⟨fun hq => ?_, fun hq => ?_⟩⟩
      · dsimp only
        rw [hall, if_neg h₁, htake, if_pos h₂, collected_of_full _ h₂]
        rfl
      · rw [List.append_nil] at hq
        exact absurd hq (hno q)
      · exact absurd h₂ (not_le.2 hq.1)
    -- some are missing, and the search is for twice as many
    · have hlt₂ := not_le.1 h₂
      have hcall : answered A (query (.searchRaws (searchFor key concept
            (collected rows refs newRaws).length)) id) =
          some ([.searchRaws (searchFor key concept (collected rows refs newRaws).length)],
            .ok (hits (searchFor key concept (collected rows refs newRaws).length)), ()) :=
        Attempt.alone_call (hsearch _)
      refine ⟨os ++ [.searchRaws (searchFor key concept (collected rows refs newRaws).length)],
        Attempt.alone_ok hos ?_, fun q => ?_⟩
      · dsimp only
        rw [hall, if_neg h₁, htake, if_neg h₂, byId_append, ← collected_of_lt hlt₂,
          ← takeUnseen_eq hlt₂]
        exact Attempt.alone_ok hcall Attempt.alone_pure
      · simp [hno q, hlt₂]

end Run

/-- The input is the first raws, up to the limit, of those of different ids among the
    raws that the references name, the new ones, and those found, in this order. The
    search is only done if fewer are collected before, for twice as many as are
    missing. -/
theorem build_input {A : (o : Op) → Option o.Ans} {rows : String → Option Raw}
    {hits : Search.SearchQuery → List Raw} (hget : ∀ id, A (.rawsGet id) = some (.ok (rows id)))
    (hid : ∀ id r, rows id = some r → r.id = id)
    (hsearch : ∀ q, A (.searchRaws q) = some (.ok (hits q)))
    (key : OwnerKey) (concept : String) (refs : List String) (newRaws : List Raw) :
    ∃ os inputs, answered A (build key concept refs newRaws) = some (os, .ok inputs, ()) ∧
      inputs = (keepFirst (fun r => some r.id) [] (refs.filterMap rows ++ newRaws ++
        hits (searchFor key concept (collected rows refs newRaws).length))).take INPUT_LIMIT ∧
      (inputs.map (·.id)).Nodup ∧ inputs.length ≤ INPUT_LIMIT ∧
      ∀ q, .searchRaws q ∈ os ↔ (collected rows refs newRaws).length < INPUT_LIMIT ∧
        q = searchFor key concept (collected rows refs newRaws).length := by
  obtain ⟨os, hos, hops⟩ := build_alone hget hid hsearch key concept refs newRaws
  refine ⟨os, _, hos, rfl, ?_, List.length_take_le _ _, hops⟩
  rw [List.map_take]
  exact nodup_byId.sublist (List.take_sublist _ _)

/-- The answers of the queries, the rows and the results of searches being given. -/
def queried (rows : String → Option Raw) (hits : Search.SearchQuery → List Raw) :
    (o : Op) → Option o.Ans
  | .rawsGet id => some (.ok (rows id))
  | .searchRaws q => some (.ok (hits q))
  | _ => none

/-- A raw of the user `u`. -/
def rawOf (id : String) : Raw := ⟨id, .personal, "u", "title", "content", "manual", none, some "u", 1⟩

theorem build_input_three : ∃ os inputs, answered
      (queried (fun id => if id = "gone" then none else some (rawOf id))
        fun _ => [rawOf "a", rawOf "c"])
      (build (.personal "u") "alpha" ["a", "gone", "a"] [rawOf "b", rawOf "a"]) =
        some (os, .ok inputs, ()) ∧ inputs.map (·.id) = ["a", "b", "c"] := by
  obtain ⟨os, inputs, hos, hin, _⟩ := build_input
    (A := queried (fun id => if id = "gone" then none else some (rawOf id))
      fun _ => [rawOf "a", rawOf "c"]) (fun _ => rfl) (fun id r h => by
      by_cases hid : id = "gone"
      · simp [hid] at h
      · simp only [hid, if_false, Option.some.injEq] at h
        exact h ▸ rfl)
    (fun _ => rfl) (.personal "u") "alpha" ["a", "gone", "a"] [rawOf "b", rawOf "a"]
  exact ⟨os, inputs, hos, hin ▸ by decide⟩

/-! ## What the search leaves out -/

section Search

variable (fts : Fts) (db : Db) (key : OwnerKey) (concept : String)

/-- The answers of the queries in a state. -/
def inState (s : Shared) (o : Op) : Option o.Ans := (perform fts .ok o s).map (·.1)

/-- The raws of the owner that match the name of the concept, the best ones first. -/
def matching : List Raw :=
  (Search.candidates fts db (searchFor key concept 0)).insertionSort fun r r' =>
    fts.bm25 (Search.fts5Escape concept) db.raws r ≤ fts.bm25 (Search.fts5Escape concept) db.raws r'

/-- The matches are the candidates, in another order. -/
theorem mem_matching : r ∈ matching fts db key concept ↔
    r ∈ Search.candidates fts db (searchFor key concept 0) :=
  (List.perm_insertionSort _ _).mem_iff

variable {fts db key concept}

/-- The search finds the best of them. -/
theorem raws_searchFor {n : ℕ} (h : n < INPUT_LIMIT) : Search.raws fts db (searchFor key concept n) =
    (matching fts db key concept).take (2 * (INPUT_LIMIT - n)) := by
  have hlimit : (Search.clampLimit (searchFor key concept n).limit).toNat =
      2 * (INPUT_LIMIT - n) := by
    simp only [Search.clampLimit, searchFor]
    unfold INPUT_LIMIT at *
    omega
  rw [Search.raws, hlimit]
  rfl

/-- The ids of the matches are distinct. -/
theorem nodup_matching (hids : (db.raws.map (·.id)).Nodup) :
    ((matching fts db key concept).map (·.id)).Nodup := by
  refine ((List.perm_insertionSort _ _).map _).nodup_iff.2 ?_
  exact hids.sublist (List.filter_sublist.map _)

/-- What is taken of the raws found, none of which is there twice. -/
theorem fresh_eq_filter (h : (rs.map (·.id)).Nodup) :
    fresh out rs = rs.filter fun r => !seen out r.id := by
  rw [fresh, keepFirst_eq_filter h]
  refine List.filter_congr fun r _ => ?_
  simp only [mem_ids_iff]
  cases seen out r.id <;> rfl

/-- With the first `n` raws of a list, all of the list are there if and only if the rest
    were before. -/
theorem seen_take_iff {M : List Raw} (hM : (M.map (·.id)).Nodup) (n : ℕ) :
    (∀ r ∈ M, seen (out ++ (M.take n).filter fun r => !seen out r.id) r.id = true) ↔
      ∀ r ∈ M.drop n, seen out r.id = true := by
  constructor
  · intro h r hr
    obtain ⟨x, hx, he⟩ := seen_iff.1 (h r (List.mem_of_mem_drop hr))
    rcases List.mem_append.1 hx with hx | hx
    · exact seen_iff.2 ⟨x, hx, he⟩
    · -- no raw of the rest has the id of one of the first
      rw [← List.take_append_drop n M, List.map_append] at hM
      have hfirst : r.id ∈ (M.take n).map (·.id) :=
        he ▸ List.mem_map_of_mem (List.mem_of_mem_filter hx)
      exact (List.disjoint_of_nodup_append hM hfirst (List.mem_map_of_mem hr)).elim
  · intro h r hr
    rw [← List.take_append_drop n M] at hr
    cases hs : seen out r.id with
    | true =>
      obtain ⟨x, hx, he⟩ := seen_iff.1 hs
      exact seen_iff.2 ⟨x, List.mem_append_left _ hx, he⟩
    | false =>
      have htake : r ∈ M.take n := (List.mem_append.1 hr).resolve_right fun hd =>
        Bool.false_ne_true (hs.symm.trans (h r hd))
      refine seen_iff.2 ⟨r, List.mem_append_right _ (List.mem_filter.2 ⟨htake, ?_⟩), rfl⟩
      rw [hs]
      rfl

/-- An input that is not full has all raws that match, unless some of them are left out:
    too few of the first `2 * (INPUT_LIMIT - n)` were new, where `n` raws were collected
    before the search, and one of the rest is new as well. -/
theorem matching_taken_iff (fts : Fts) (s : Shared) (hids : (s.db.raws.map (·.id)).Nodup)
    (key : OwnerKey) (concept : String) (refs : List String) (newRaws : List Raw) :
    ∃ os inputs, answered (inState fts s) (build key concept refs newRaws) =
        some (os, .ok inputs, ()) ∧
      ((inputs.length < INPUT_LIMIT → ∀ r ∈ Search.candidates fts s.db (searchFor key concept 0),
          seen inputs r.id = true) ↔
        (collected (Raws.get s.db) refs newRaws).length = INPUT_LIMIT ∨
        INPUT_LIMIT ≤ (collected (Raws.get s.db) refs newRaws).length +
          ((matching fts s.db key concept).take
              (2 * (INPUT_LIMIT - (collected (Raws.get s.db) refs newRaws).length))).countP
            (fun r => !seen (collected (Raws.get s.db) refs newRaws) r.id) ∨
        ∀ r ∈ (matching fts s.db key concept).drop
            (2 * (INPUT_LIMIT - (collected (Raws.get s.db) refs newRaws).length)),
          seen (collected (Raws.get s.db) refs newRaws) r.id = true) := by
  obtain ⟨os, hos, _⟩ := build_alone (A := inState fts s) (fun id => rfl)
    (fun id r h => (Raws.mem_of_get h).2) (fun q => rfl) key concept refs newRaws
  refine ⟨os, _, hos, ?_⟩
  by_cases hlt : (collected (Raws.get s.db) refs newRaws).length < INPUT_LIMIT
  · rw [raws_searchFor hlt, byId_append, ← collected_of_lt hlt]
    -- all that is used from here on is that the ids of the matches are distinct
    generalize collected (Raws.get s.db) refs newRaws = out at hlt
    have hM : ((matching fts s.db key concept).map (·.id)).Nodup := nodup_matching hids
    simp only [← mem_matching fts s.db key concept]
    generalize matching fts s.db key concept = M at hM
    generalize 2 * (INPUT_LIMIT - out.length) = n
    have hfresh : fresh out (M.take n) = (M.take n).filter fun r => !seen out r.id :=
      fresh_eq_filter (hM.sublist ((List.take_sublist _ _).map _))
    rw [hfresh, List.countP_eq_length_filter]
    by_cases hfull : INPUT_LIMIT ≤
        out.length + ((M.take n).filter fun r => !seen out r.id).length
    · -- the raws found fill the input
      refine ⟨fun _ => .inr (.inl hfull), fun _ hlen => absurd hlen (not_lt.2 ?_)⟩
      rw [List.length_take, List.length_append]
      exact le_min le_rfl hfull
    · rw [List.take_of_length_le (by rw [List.length_append]; exact (not_le.1 hfull).le),
        List.length_append, seen_take_iff hM]
      constructor
      · intro h
        exact .inr (.inr (h (not_le.1 hfull)))
      · rintro (heq | hle | h) _
        · exact absurd heq hlt.ne
        · exact absurd hle hfull
        · exact h
  · -- the input was full before
    have hle := not_lt.1 hlt
    rw [collected_of_full _ hle]
    exact ⟨fun _ => .inl (le_antisymm (List.length_take_le _ _) hle), fun _ h => absurd h hlt⟩

/-- An index where every row matches, with the same rank. -/
def allMatch : Fts := ⟨fun _ _ => true, fun _ _ _ => 0⟩

/-- Fifty raws of a user, that all match. -/
def fiftyRaws : Shared where
  now := 1
  db := ⟨[], [], (List.range 50).map fun i => rawOf (toString i), [], [], []⟩

/-- An index where two of them do not match. -/
def mostMatch : Fts := ⟨fun _ r => r.id ≠ "1" ∧ r.id ≠ "2", fun _ _ _ => 0⟩

/-- A page refers to forty-seven of them. All but one of the six raws found are among these,
    there is room for the one, and no match is left out. -/
theorem matching_taken_iff_fifty : ∃ os inputs, answered (inState mostMatch fiftyRaws)
      (build (.personal "u") "alpha" ((List.range 47).map fun i => toString (i + 3)) []) =
        some (os, .ok inputs, ()) ∧ inputs.length = 48 ∧
    ∀ r ∈ Search.candidates mostMatch fiftyRaws.db (searchFor (.personal "u") "alpha" 0),
      seen inputs r.id = true := by
  obtain ⟨os, hos, _⟩ := build_alone (A := inState mostMatch fiftyRaws) (fun id => rfl)
    (fun id r h => (Raws.mem_of_get h).2) (fun q => rfl) (.personal "u") "alpha"
    ((List.range 47).map fun i => toString (i + 3)) []
  obtain ⟨os', inputs, hos', hiff⟩ := matching_taken_iff mostMatch fiftyRaws
    (by decide) (.personal "u") "alpha" ((List.range 47).map fun i => toString (i + 3)) []
  have hlen : inputs.length = 48 := by
    cases hos.symm.trans hos'
    decide
  refine ⟨os', inputs, hos', hlen, hiff.2 (.inr (.inr (by decide))) ?_⟩
  rw [hlen]
  decide

/-- A page that refers to all but the last of them: the two raws found are there already,
    and the last one is left out of an input that is not full. -/
theorem last_left_out : ¬ ∀ (fts : Fts) (s : Shared), (s.db.raws.map (·.id)).Nodup →
    ∀ (key : OwnerKey) (concept : String) (refs : List String) (newRaws : List Raw)
      (os : List Op) (inputs : List Raw),
      answered (inState fts s) (build key concept refs newRaws) = some (os, .ok inputs, ()) →
      inputs.length < INPUT_LIMIT →
      ∀ r ∈ Search.candidates fts s.db (searchFor key concept 0), seen inputs r.id = true := by
  intro h
  have hrun : ∃ os inputs, answered (inState allMatch fiftyRaws)
      (build (.personal "u") "alpha" ((List.range 49).map toString) []) =
        some (os, .ok inputs, ()) ∧ inputs.length < INPUT_LIMIT ∧ seen inputs "49" = false := by
    obtain ⟨os, hos, _⟩ := build_alone (A := inState allMatch fiftyRaws) (fun id => rfl)
      (fun id r h => (Raws.mem_of_get h).2) (fun q => rfl) (.personal "u") "alpha"
      ((List.range 49).map toString) []
    exact ⟨os, _, hos, by decide, by decide⟩
  obtain ⟨os, inputs, hos, hlen, hseen⟩ := hrun
  have hlast := h allMatch fiftyRaws (by decide) _ _ _ _ os inputs hos hlen (rawOf "49")
    (by decide)
  exact Bool.false_ne_true (hseen.symm.trans hlast)

end Search

end LlmMemory.InputBuilder
