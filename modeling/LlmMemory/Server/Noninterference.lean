import LlmMemory.Server.Tools

/-!
# What a user reads depends on what the user may see

Two databases that agree on what a user may see (`SameView`), which is what is
shared and what is personal to the user, give the same responses to the read
tools but for `raw_search`: `bm25` ranks the rows found by all rows indexed.
-/

namespace LlmMemory

/-- What is shared, and what is personal to the user. -/
def Visible (u : String) (k : OwnerKey) : Bool := k.scope = .shared ∨ k = .personal u

/-- The databases agree on what the user may see. -/
structure SameView (u : String) (db db' : Db) : Prop where
  sharedMemories : db.sharedMemories = db'.sharedMemories
  raws : (db.raws.filter fun r => Visible u r.key) = db'.raws.filter fun r => Visible u r.key
  wikis : (db.wikis.filter fun w => Visible u w.key) = db'.wikis.filter fun w => Visible u w.key
  schemas : (db.schemas.filter fun c => Visible u c.key) = db'.schemas.filter fun c => Visible u c.key

/-- The databases rank the rows found in a scope alike. -/
def RankedAlike (fts : Fts) (q : Search.SearchQuery) (db db' : Db) : Prop :=
  let expr := Search.fts5Escape q.query
  ∀ r ∈ Search.candidates fts db q, ∀ r' ∈ Search.candidates fts db q,
    fts.bm25 expr db.raws r ≤ fts.bm25 expr db.raws r' ↔
      fts.bm25 expr db'.raws r ≤ fts.bm25 expr db'.raws r'

namespace SameView

variable {u : String} {db db' : Db} {fts : Fts}

/-- A user sees its own owner key. -/
theorem visible_personal : Visible u (.personal u) = true := by simp [Visible]

theorem visible_shared {id : String} : Visible u ⟨.shared, id⟩ = true := by simp [Visible]

/-! ## The queries -/

/-- The pages of a visible owner are the same. -/
theorem ofOwner_eq (h : SameView u db db') {k : OwnerKey} (hk : Visible u k = true) :
    Wikis.ofOwner db k = Wikis.ofOwner db' k :=
  Rows.filter_eq_of_view h.wikis fun _ hw => by rw [of_decide_eq_true hw, hk]

theorem listConcepts_eq (h : SameView u db db') {k : OwnerKey} (hk : Visible u k = true) :
    Wikis.listConcepts db k = Wikis.listConcepts db' k := by
  rw [Wikis.listConcepts, h.ofOwner_eq hk, Wikis.listConcepts]

theorem listForOwner_eq (h : SameView u db db') {k : OwnerKey} (hk : Visible u k = true) :
    Wikis.listForOwner db k = Wikis.listForOwner db' k := by
  rw [Wikis.listForOwner, h.ofOwner_eq hk, Wikis.listForOwner]

theorem wikiGet_eq (h : SameView u db db') {k : OwnerKey} (hk : Visible u k = true)
    (concept : String) : Wikis.get db k concept = Wikis.get db' k concept :=
  Rows.find?_eq_of_view h.wikis fun _ hw => by rw [(of_decide_eq_true hw).1, hk]

theorem schemaGet_eq (h : SameView u db db') {k : OwnerKey} (hk : Visible u k = true) :
    Schemas.get db k = Schemas.get db' k :=
  congrArg (Option.map _) (Rows.find?_eq_of_view h.schemas fun c hc => by
    have hc : c.key = k := of_decide_eq_true hc
    rw [hc, hk])

theorem listAll_eq (h : SameView u db db') :
    SharedMemories.listAll db = SharedMemories.listAll db' := by
  rw [SharedMemories.listAll, h.sharedMemories, SharedMemories.listAll]

/-- A page of the export is the same. -/
theorem fetch_eq (h : SameView u db db') (c : Int × String) :
    Export.fetch db u c = Export.fetch db' u c := by
  rw [Export.fetch, Export.fetch]
  exact congrArg (fun rs => (List.insertionSort _ rs).take _)
    (Rows.filter_eq_of_view h.raws fun _ hr => by rw [(of_decide_eq_true hr).1, visible_personal])

theorem candidates_eq (h : SameView u db db') (a : RawSearch.Args) (s : Scope) :
    Search.candidates fts db (a.search u s) = Search.candidates fts db' (a.search u s) := by
  refine Rows.filter_eq_of_view h.raws fun r hr => ?_
  obtain ⟨_, hscope, howner⟩ := of_decide_eq_true hr
  cases s with
  | personal =>
    have hk : r.key = .personal u := by
      rw [Raw.key, hscope _ rfl, howner _ rfl]
      rfl
    rw [hk, visible_personal]
  | shared => rw [Raw.key, hscope _ rfl, visible_shared]

/-! ## The tools -/

/-- `raw_read` gives the raw with the id, if the user may see it. -/
theorem rawRead_eq_filter (args : Json) : RawRead.call db u args = (do
    let id ← readArgs (RawRead.readId args)
    match (Raws.get db id).filter fun r => Visible u r.key with
    | none => .error (.message "not found")
    | some raw => .ok raw.toJson) := by
  refine congrArg _ (funext fun id => ?_)
  cases hr : Raws.get db id with
  | none => rfl
  | some r =>
    have hvis : Visible u r.key = true ↔ ¬ (r.scope = .personal ∧ r.ownerId ≠ u) := by
      cases hs : r.scope with
      | personal => simp [Visible, Raw.key, OwnerKey.personal, hs]
      | shared => simp [Visible, Raw.key, hs]
    by_cases hv : Visible u r.key = true
    · simp only [Option.filter_some, if_pos hv, if_neg (hvis.1 hv)]
    · simp only [Option.filter_some, if_neg hv, if_pos (not_not.1 (mt hvis.2 hv))]

theorem rawRead_eq (h : SameView u db db') (hid : (db.raws.map (·.id)).Nodup)
    (hid' : (db'.raws.map (·.id)).Nodup) (args : Json) :
    RawRead.call db u args = RawRead.call db' u args := by
  have hget : ∀ id, ((Raws.get db id).filter fun r => Visible u r.key) =
      (Raws.get db' id).filter fun r => Visible u r.key := fun id => by
    rw [Raws.get, Rows.find?_filter_of_nodup hid, h.raws, ← Rows.find?_filter_of_nodup hid', Raws.get]
  simp only [rawRead_eq_filter, hget]

theorem wikiList_eq (h : SameView u db db') (args : Json) :
    WikiList.call db u args = WikiList.call db' u args := by
  simp only [WikiList.call, h.listConcepts_eq visible_personal, h.listConcepts_eq visible_shared,
    h.listAll_eq]

theorem wikiRead_eq (h : SameView u db db') (args : Json) :
    WikiRead.call db u args = WikiRead.call db' u args := by
  simp only [WikiRead.call, h.wikiGet_eq visible_personal, h.wikiGet_eq visible_shared, h.listAll_eq]

theorem schemaRead_eq (h : SameView u db db') (args : Json) :
    SchemaRead.call db u args = SchemaRead.call db' u args := by
  refine congrArg _ (funext fun a => ?_)
  cases hk : SchemaRead.owner u a with
  | error e => rfl
  | ok key =>
    have hvis : Visible u key = true := by
      unfold SchemaRead.owner at hk
      split at hk <;> cases hk
      · exact visible_personal
      · exact visible_shared
    show Except.ok _ = Except.ok _
    rw [h.schemaGet_eq hvis]

theorem export_eq (h : SameView u db db') (now : Int) (args : Json) :
    Export.call db now u args = Export.call db' now u args := by
  simp only [Export.call, h.fetch_eq, h.listForOwner_eq visible_personal,
    h.schemaGet_eq visible_personal]

/-! ## The search -/

theorem length_raws_eq (h : SameView u db db') (a : RawSearch.Args) (s : Scope) :
    (Search.raws fts db (a.search u s)).length = (Search.raws fts db' (a.search u s)).length := by
  simp only [Search.raws, List.length_take, List.length_insertionSort, h.candidates_eq]

theorem length_results_eq (h : SameView u db db') (a : RawSearch.Args) (scope : Option Scope) :
    (RawSearch.results fts db u a scope).length = (RawSearch.results fts db' u a scope).length := by
  have hlen : ∀ s, (if wants scope s then Search.raws fts db (a.search u s) else []).length =
      (if wants scope s then Search.raws fts db' (a.search u s) else []).length := fun s => by
    split
    · exact h.length_raws_eq a s
    · rfl
  simp only [RawSearch.results, List.length_take, List.length_append, hlen]

/-- What is found matches, and is asked for. -/
theorem mem_candidates {a : RawSearch.Args} {scope : Option Scope} {r : Raw}
    (h : r ∈ RawSearch.results fts db u a scope) :
    ∃ s, wants scope s = true ∧ r ∈ Search.candidates fts db (a.search u s) := by
  have hif : ∀ s, r ∈ (if wants scope s then Search.raws fts db (a.search u s) else []) →
      wants scope s = true ∧ r ∈ Search.candidates fts db (a.search u s) := fun s hr => by
    split at hr
    · rename_i hs
      exact ⟨hs, Search.mem_of_mem_raws hr⟩
    · cases hr
  rcases List.mem_append.1 (List.mem_of_mem_take h) with hr | hr
  · exact ⟨.personal, hif _ hr⟩
  · exact ⟨.shared, hif _ hr⟩

/-- Where the ranks compare alike, the same raws are found. -/
theorem raws_eq (h : SameView u db db') (a : RawSearch.Args) (s : Scope)
    (hrank : RankedAlike fts (a.search u s) db db') :
    Search.raws fts db (a.search u s) = Search.raws fts db' (a.search u s) := by
  rw [Search.raws, Search.raws, ← h.candidates_eq]
  exact congrArg (List.take _) (Rows.insertionSort_congr hrank)

theorem results_eq (h : SameView u db db') (a : RawSearch.Args) (scope : Option Scope)
    (hrank : ∀ s, RankedAlike fts (a.search u s) db db') :
    RawSearch.results fts db u a scope = RawSearch.results fts db' u a scope := by
  simp only [RawSearch.results, h.raws_eq a _ (hrank _)]

/-- Where the ranks compare alike, `raw_search` answers the same. -/
theorem rawSearch_eq (h : SameView u db db') (args : Json)
    (hrank : ∀ a, RawSearch.Args.read args = some a → ∀ s, RankedAlike fts (a.search u s) db db') :
    RawSearch.call fts db u args = RawSearch.call fts db' u args := by
  cases ha : RawSearch.Args.read args with
  | none => simp only [RawSearch.call, ha]; rfl
  | some a =>
    have hres : ∀ scope, RawSearch.results fts db u a scope = RawSearch.results fts db' u a scope :=
      fun scope => h.results_eq a scope (hrank a ha)
    simp only [RawSearch.call, ha, readArgs, bind, Except.bind, hres]

/-- A search fails for its arguments only. -/
theorem rawSearch_error (args : Json) (e : ToolError) :
    RawSearch.call fts db u args = .error e ↔ RawSearch.call fts db' u args = .error e := by
  cases ha : RawSearch.Args.read args with
  | none => simp only [RawSearch.call, ha, readArgs, bind, Except.bind]
  | some a =>
    cases hs : parseScopeArg a.scope with
    | error e' => simp only [RawSearch.call, ha, readArgs, bind, Except.bind, hs]
    | ok scope => simp [RawSearch.call, ha, readArgs, bind, Except.bind, hs, pure, Except.pure]

end SameView

/-- Where the databases agree on what the user may see, the responses to the
    read tools are the same, but for `raw_search`. That fails alike, finds as
    many raws, each matching, asked for and visible in both; and its response
    is the same where the databases rank these alike. -/
theorem read_noninterference {fts : Fts} {now : Int} {u : String} {db db' : Db}
    (h : SameView u db db') (hid : (db.raws.map (·.id)).Nodup) (hid' : (db'.raws.map (·.id)).Nodup)
    (id : Option Json) (admitted : Bool) (args : Json) :
    (∀ t ≠ ReadTool.rawSearch,
      t.call fts now db u id admitted args = t.call fts now db' u id admitted args) ∧
    (∀ e, RawSearch.call fts db u args = .error e ↔ RawSearch.call fts db' u args = .error e) ∧
    (∀ a scope, (RawSearch.results fts db u a scope).length =
        (RawSearch.results fts db' u a scope).length ∧
      ∀ r ∈ RawSearch.results fts db u a scope, ∃ s, wants scope s = true ∧
        r ∈ Search.candidates fts db (a.search u s) ∧
        r ∈ Search.candidates fts db' (a.search u s)) ∧
    ((∀ a, RawSearch.Args.read args = some a → ∀ s, RankedAlike fts (a.search u s) db db') →
      ReadTool.rawSearch.call fts now db u id admitted args =
        ReadTool.rawSearch.call fts now db' u id admitted args) := by
  have hcall : ∀ t : ReadTool, t.run fts now db u args = t.run fts now db' u args →
      t.call fts now db u id admitted args = t.call fts now db' u id admitted args := fun t ht => by
    rw [ReadTool.call, ht, ReadTool.call]
  refine ⟨fun t ht => hcall t ?_, SameView.rawSearch_error args, fun a scope =>
    ⟨h.length_results_eq a scope, fun r hr => ?_⟩, fun hrank => hcall _ (h.rawSearch_eq args hrank)⟩
  · cases t with
    | rawRead => exact h.rawRead_eq hid hid' args
    | rawSearch => exact absurd rfl ht
    | wikiRead => exact h.wikiRead_eq args
    | wikiList => exact h.wikiList_eq args
    | schemaRead => exact h.schemaRead_eq args
    | «export» => exact h.export_eq now args
  · obtain ⟨s, hs, hr⟩ := SameView.mem_candidates hr
    exact ⟨s, hs, hr, h.candidates_eq a s ▸ hr⟩

/-! ## Ranking -/

/-- The words of the columns indexed. -/
def words (r : Raw) : List (List Char) :=
  Search.splitWhitespace [] (r.title ++ " " ++ r.content ++ " " ++ r.tags.getD "").toList

/-- The index, for expressions of a single word that at least half of the rows
    have: such a word weighs `1e-6`. The longer a row is, compared to all rows
    on average, the less the word counts in it. -/
def Fts.singleWord : Fts where
  isMatch expr r := (expr.toList.filter (· ≠ '"')) ∈ words r
  bm25 expr rows r :=
    let avgdl : ℚ := (rows.map fun r => (words r).length).sum / rows.length
    let freq : ℚ := ((words r).filter (· = expr.toList.filter (· ≠ '"'))).length
    let k1 : ℚ := 12 / 10
    let b : ℚ := 75 / 100
    let weight : ℚ := 1 / 1000000
    (-1) * (weight * (freq * (k1 + 1) / (freq + k1 * (1 - b + b * (words r).length / avgdl))))

/-- Two raws of the user `u`, and possibly one of another user. -/
def twoRaws (others : List Raw) : Db where
  users := []
  sharedMemories := []
  raws := [⟨"long", .personal, "u", "x", "x a a a a", "manual", none, some "u", 1⟩,
    ⟨"short", .personal, "u", "x", "a", "manual", none, some "u", 1⟩] ++ others
  wikis := []
  schemas := []
  tokens := []

/-- A long raw of another user. -/
def longRaw : Raw :=
  ⟨"other", .personal, "v", "b", "b b b b b b b b b b b b", "manual", none, some "v", 1⟩

/-- The raw of another user is not visible. -/
theorem twoRaws_sameView : SameView "u" (twoRaws []) (twoRaws [longRaw]) :=
  ⟨rfl, by simp [twoRaws, longRaw, Visible, Raw.key, OwnerKey.personal], rfl, rfl⟩

/-- The export is the same with the raw of another user. -/
theorem read_noninterference_twoRaws :
    (ReadTool.export.call Fts.singleWord 1 (twoRaws []) "u" none true (.obj [])) =
      ReadTool.export.call Fts.singleWord 1 (twoRaws [longRaw]) "u" none true (.obj []) :=
  (read_noninterference twoRaws_sameView (by decide) (by decide) none true (.obj [])).1 .export
    (by decide)

/-- A search for `x`, of the first raw only. -/
def searchArgs : Json := .obj [("query", .str "x"), ("limit", .int 1)]

theorem call_searchArgs (db : Db) :
    (ReadTool.rawSearch.call Fts.singleWord 1 db "u" none true searchArgs).result =
      callToolResultOk (.object [("results",
        .arr ((RawSearch.results Fts.singleWord db "u" ⟨"x", none, some 1⟩ none).map Raw.toJson))]) :=
  rfl

theorem chars_of_callToolResultOk {v v' : Json} (h : callToolResultOk v = callToolResultOk v') :
    v.chars = v'.chars := by
  have htext : v.toText = v'.toText := by
    simpa [callToolResultOk, Json.object] using h
  exact String.ofList_injective htext

/-- The raw of another user makes the other of the two raws be found first. -/
theorem search_interference : ¬ ∀ (t : ReadTool) (u : String) (args : Json) (db db' : Db),
    SameView u db db' → (db.raws.map (·.id)).Nodup → (db'.raws.map (·.id)).Nodup →
    t.call Fts.singleWord 1 db u none true args = t.call Fts.singleWord 1 db' u none true args := by
  intro hall
  have heq := congrArg (·.result) (hall .rawSearch "u" searchArgs (twoRaws []) (twoRaws [longRaw])
    twoRaws_sameView (by decide) (by decide))
  rw [call_searchArgs, call_searchArgs] at heq
  exact absurd (chars_of_callToolResultOk heq) (by decide +kernel)

end LlmMemory
