import LlmMemory.Lib.Selection
import LlmMemory.Vegapunk.Exchanges

/-!
# Merging two schemas

What a search, and a query of nodes, make of the lists of the user's schema and of
the shared one.

* `search_merged`: the results of a search are those of both lists, once each, the
  best ones first, up to the limit;
* `nodes_paged`: the pages of a query are those of one list, of the user's nodes and
  then of the others, as far as the requests for them are not cut.
-/

namespace LlmMemory.Vegapunk

open Effects Selection

/-! ## Search -/

section Search

variable (items : List SearchResultItem)

/-- The score of an item, as a place in a total order. -/
def rank (item : SearchResultItem) : Int := (scoreOf item).totalKey

/-- The key of an item with an id. -/
def itemKey (item : SearchResultItem) : Option String :=
  match item.id with
  | some id => if id = "" then none else some (item.type ++ ":" ++ id)
  | none => none

/-- The item at `i` comes before the one at `j`: it has a better score, or the same
    and it is earlier. -/
def Before (i j : ℕ) : Prop :=
  ∃ a b, items[i]? = some a ∧ items[j]? = some b ∧ (rank b < rank a ∨ rank b = rank a ∧ i < j)

/-- The items at `i` and `j` have the same type, and the same id, which is not empty. -/
def SameId (i j : ℕ) : Prop :=
  ∃ a b id, items[i]? = some a ∧ items[j]? = some b ∧ a.type = b.type ∧ a.id = some id ∧
    b.id = some id ∧ id ≠ ""

/-- The list `out` is that of the items at the positions `ps`, merged up to the
    limit. -/
structure Merged (limit : Option Int) (out : List SearchResultItem) (ps : List ℕ) : Prop where
  output : out.map some = ps.map fun i => items[i]?
  withinLimit : ∀ n, limit = some n → out.length ≤ n.toNat
  sorted : ps.Pairwise (Before items)
  distinct : ps.Pairwise fun i j => ¬SameId items i j
  /-- An item that is left out has the type and the id of an earlier one, or comes
      after as many as the limit allows. -/
  complete : ∀ j < items.length, j ∉ ps → (∃ i < j, SameId items i j) ∨
    ∃ n, limit = some n ∧ ps.length = n.toNat ∧ ∀ i ∈ ps, Before items i j

variable {items}

/-- A score that is missing, or not a number, is at the bottom. -/
theorem rank_bottom {item other : SearchResultItem}
    (h : item.score = none ∨ ∃ x, item.score = some x ∧ x.isNan = true) :
    rank item ≤ rank other := by
  have hbottom : scoreOf item = .negInfinity := by
    rcases h with h | ⟨x, h, hnan⟩
    · rw [scoreOf, h]
      rfl
    · simp [scoreOf, h, hnan]
  have hkey : F32.negInfinity.totalKey = -0x7F800000 - 1 := by decide
  have hnan : (scoreOf other).isNan = false := by
    rw [scoreOf]
    split
    · rfl
    · next hraw => simpa using hraw
  rw [rank, rank, hbottom, hkey, F32.totalKey]
  have hmagnitude : (scoreOf other).magnitude ≤ 0x7F800000 := by
    simpa [F32.isNan] using hnan
  split <;> omega

/-- The items kept are the first of their keys. -/
theorem distinctItems_eq {seen : List String} : distinctItems seen items =
    keepFirst itemKey seen items := by
  induction items generalizing seen with
  | nil => rfl
  | cons item items ih =>
    rw [distinctItems, keepFirst, itemKey]
    cases item.id with
    | none => simp only [ih]
    | some id =>
      by_cases hid : id = ""
      · simp only [hid, if_true, ih]
      · simp only [hid, if_false, ih]

/-- A text up to its first colon. -/
theorem append_colon_inj {l l' r r' : List Char} (hl : ':' ∉ l) (hl' : ':' ∉ l')
    (h : l ++ ':' :: r = l' ++ ':' :: r') : l = l' ∧ r = r' := by
  induction l generalizing l' with
  | nil =>
    cases l' with
    | nil => exact ⟨rfl, (List.cons.inj h).2⟩
    | cons c l' => exact absurd ((List.cons.inj h).1 ▸ List.mem_cons_self) hl'
  | cons c l ih =>
    cases l' with
    | nil => exact absurd ((List.cons.inj h).1 ▸ List.mem_cons_self) hl
    | cons c' l' =>
      obtain ⟨rfl, htail⟩ := List.cons.inj h
      obtain ⟨rfl, rfl⟩ := ih (fun hmem => hl (List.mem_cons_of_mem _ hmem))
        (fun hmem => hl' (List.mem_cons_of_mem _ hmem)) htail
      exact ⟨rfl, rfl⟩

/-- Two items whose types have no colon have the same key if they have the same type
    and id. -/
theorem sameId_of_key {i j : ℕ} {a b : SearchResultItem} {k : String} (hi : items[i]? = some a)
    (hj : items[j]? = some b) (ha : ':' ∉ a.type.toList) (hb : ':' ∉ b.type.toList)
    (hak : itemKey a = some k) (hbk : itemKey b = some k) : SameId items i j := by
  have hkey : ∀ {item : SearchResultItem}, itemKey item = some k →
      ∃ id, item.id = some id ∧ id ≠ "" ∧ k = item.type ++ ":" ++ id := by
    intro item h
    rw [itemKey] at h
    split at h
    · next id hid =>
      split at h
      · cases h
      · next hne => exact ⟨id, hid, hne, (Option.some.inj h).symm⟩
    · cases h
  obtain ⟨id, hid, hne, hk⟩ := hkey hak
  obtain ⟨id', hid', -, hk'⟩ := hkey hbk
  have hchars : a.type.toList ++ ':' :: id.toList = b.type.toList ++ ':' :: id'.toList := by
    have h := congrArg String.toList (hk.symm.trans hk')
    simpa using h
  -- both types end at the first colon
  obtain ⟨htype, hids⟩ := append_colon_inj ha hb hchars
  refine ⟨a, b, id, hi, hj, String.toList_injective htype, hid, ?_, hne⟩
  rw [hid', String.toList_injective hids]

/-- Two items of the same type and id have the same key. -/
theorem key_of_sameId {i j : ℕ} {a b : SearchResultItem} (hi : items[i]? = some a)
    (hj : items[j]? = some b) (h : SameId items i j) :
    ∃ k, itemKey a = some k ∧ itemKey b = some k := by
  obtain ⟨a', b', id, hi', hj', htype, ha, hb, hne⟩ := h
  cases hi.symm.trans hi'
  cases hj.symm.trans hj'
  refine ⟨a.type ++ ":" ++ id, ?_, ?_⟩
  · simp [itemKey, ha, hne]
  · simp [itemKey, hb, hne, htype]

/-- An item left out of the sorted items up to a limit comes after all of those. -/
theorem pairwise_take {α : Type} {s : α → α → Prop} {l : List α} {n : ℕ} {a : α}
    (h : l.Pairwise s) (ha : a ∈ l) (hout : a ∉ l.take n) :
    (l.take n).length = n ∧ ∀ b ∈ l.take n, s b a := by
  rw [← List.take_append_drop n l, List.pairwise_append] at h
  have hdrop : a ∈ l.drop n := by
    rw [← List.take_append_drop n l] at ha
    exact (List.mem_append.1 ha).resolve_left hout
  refine ⟨List.length_take_of_le ?_, fun b hb => h.2.2 b hb a hdrop⟩
  by_contra hlt
  rw [List.drop_eq_nil_of_le (Nat.le_of_not_le hlt)] at hdrop
  exact absurd hdrop List.not_mem_nil

/-- The first elements, as many as a limit allows. -/
def upTo {α : Type} (limit : Option Int) (l : List α) : List α :=
  match limit with
  | some n => l.take n.toNat
  | none => l

/-- The first elements are a part of the list. -/
theorem upTo_sublist {α : Type} {limit : Option Int} {l : List α} : (upTo limit l).Sublist l := by
  cases limit with
  | some n => exact List.take_sublist _ _
  | none => exact .refl _

/-- The items kept, each with its position, the best ones first. -/
def sortedPairs (items : List SearchResultItem) : List (SearchResultItem × ℕ) :=
  (keepFirst (fun x => itemKey x.1) [] items.zipIdx).insertionSort fun x y => rank y.1 ≤ rank x.1

/-- The merged list is the front of the sorted one. -/
theorem mergeResults_eq {limit : Option Int} {personal shared : List SearchResultItem} :
    mergeResults limit personal shared =
      (upTo limit (sortedPairs (personal ++ shared))).map (·.1) := by
  have hsorted : (sortedPairs (personal ++ shared)).map (·.1) =
      (distinctItems [] (personal ++ shared)).insertionSort fun a b => rank b ≤ rank a := by
    rw [sortedPairs, List.map_insertionSort (fun x y : SearchResultItem × ℕ => rank y.1 ≤ rank x.1)
      (fun a b => rank b ≤ rank a) _ _ fun _ _ _ _ => Iff.rfl, map_keepFirst, distinctItems_eq,
      List.zipIdx_map_fst]
  cases limit with
  | some n =>
    rw [upTo, List.map_take, hsorted]
    rfl
  | none =>
    rw [upTo, hsorted]
    rfl

/-- An item kept is at its position. -/
theorem mem_sortedPairs {x : SearchResultItem × ℕ} (h : x ∈ sortedPairs items) :
    items[x.2]? = some x.1 := by
  have hmem := keepFirst_sublist.mem ((List.mem_insertionSort _).1 h)
  exact List.mem_zipIdx_iff_getElem?.1 hmem

theorem zipIdx_pairwise : items.zipIdx.Pairwise fun x y => x.2 < y.2 := by
  have h : (items.zipIdx.map (·.2)).Pairwise (· < ·) := by
    rw [List.zipIdx_map_snd]
    exact List.pairwise_lt_range'
  exact List.pairwise_map.1 h

/-- The items kept are in order. -/
theorem sortedPairs_pairwise : (sortedPairs items).Pairwise fun x y => Before items x.2 y.2 := by
  have htotal : Std.Total fun x y : SearchResultItem × ℕ => rank y.1 ≤ rank x.1 :=
    ⟨fun x y => Int.le_total _ _⟩
  have htrans : IsTrans (SearchResultItem × ℕ) fun x y => rank y.1 ≤ rank x.1 :=
    ⟨fun x y z hxy hyz => hyz.trans hxy⟩
  have hkept : (keepFirst (fun x => itemKey x.1) [] items.zipIdx).Pairwise fun x y => x.2 < y.2 :=
    zipIdx_pairwise.sublist keepFirst_sublist
  have hstable := insertionSort_stable (r := fun x y => rank y.1 ≤ rank x.1) hkept
  refine hstable.imp_of_mem fun {x y} hx hy hxy => ?_
  refine ⟨x.1, y.1, mem_sortedPairs hx, mem_sortedPairs hy, ?_⟩
  rcases Int.lt_or_eq_of_le hxy.1 with hlt | heq
  · exact .inl hlt
  · exact .inr ⟨heq, hxy.2 heq.ge⟩

/-- The items merged are those of both lists, up to the limit. -/
theorem merged_pairs (limit : Option Int) (htype : ∀ item ∈ items, ':' ∉ item.type.toList) :
    Merged items limit ((upTo limit (sortedPairs items)).map (·.1))
      ((upTo limit (sortedPairs items)).map (·.2)) where
  output := by
    rw [List.map_map, List.map_map]
    exact List.map_congr_left fun x hx => (mem_sortedPairs (upTo_sublist.mem hx)).symm
  withinLimit n hn := by
    rw [hn, List.length_map]
    exact List.length_take_le _ _
  sorted := List.pairwise_map.2 (sortedPairs_pairwise.sublist upTo_sublist)
  distinct := by
    refine List.pairwise_map.2 (List.Pairwise.sublist upTo_sublist ?_)
    -- sorting the rows leaves their keys distinct
    have hkeys : (sortedPairs items).Pairwise fun x y =>
        ∀ k, itemKey x.1 = some k → itemKey y.1 ≠ some k := by
      refine (List.perm_insertionSort _ _).symm.pairwise pairwise_keepFirst ?_
      exact fun hxy k hy hx => hxy k hx hy
    refine hkeys.imp_of_mem fun {x y} hx hy hxy hsame => ?_
    obtain ⟨k, hk, hk'⟩ := key_of_sameId (mem_sortedPairs hx) (mem_sortedPairs hy) hsame
    exact hxy k hk hk'
  complete j hj hout := by
    have hmem : (items[j], j) ∈ items.zipIdx :=
      List.mem_zipIdx_iff_getElem?.2 (List.getElem?_eq_getElem hj)
    have hor : (items[j], j) ∈ keepFirst (fun x => itemKey x.1) [] items.zipIdx ∨ _ :=
      mem_keepFirst_or zipIdx_pairwise hmem
    -- an item not in the output is over the limit, or a repetition of an earlier one
    rcases hor with hkept | ⟨k, hk, hseen | ⟨x, hx, hlt, hkx⟩⟩
    · have hsorted : (items[j], j) ∈ sortedPairs items := (List.mem_insertionSort _).2 hkept
      have hnot : (items[j], j) ∉ upTo limit (sortedPairs items) := fun hmem =>
        hout (List.mem_map.2 ⟨_, hmem, rfl⟩)
      cases limit with
      | none => exact absurd hsorted hnot
      | some n =>
        obtain ⟨hlen, hbefore⟩ := pairwise_take sortedPairs_pairwise hsorted hnot
        refine .inr ⟨n, rfl, by rw [List.length_map]; exact hlen, fun i hi => ?_⟩
        obtain ⟨x, hx, rfl⟩ := List.mem_map.1 hi
        exact hbefore x hx
    · exact absurd hseen List.not_mem_nil
    · have hxi := List.mem_zipIdx_iff_getElem?.1 hx
      exact .inl ⟨x.2, hlt, sameId_of_key hxi (List.getElem?_eq_getElem hj)
        (htype _ (List.mem_of_getElem? hxi)) (htype _ (List.getElem_mem hj)) hkx hk⟩

/-- A field of the structured content of a tool. -/
def structuredField (content : Json) (field : String) : Option Json :=
  ((asObject content).bind (·.lookup "structuredContent")).bind fun v =>
    (asObject v).bind (·.lookup field)

variable {cfg : Config} {user : AuthenticatedUser}

/-- A search answers the merge of the results that it was given for its request, in
    the two schemas. -/
def Searched (cfg : Config) (user : AuthenticatedUser) (args : Json) (h : History)
    (content : Json) : Prop :=
  ∃ r p shared es, buildSearchRequest cfg.unicode user.vegapunkSchema args = .ok r ∧
    h = ⟨.search r, .ok p⟩ :: ⟨.search { r with schema := cfg.sharedSchemaName }, shared⟩ :: es ∧
    structuredField content "results" = some (.arr ((mergeResults r.topK p.results
      ((shared.toOption.map (·.results)).getD [])).map (searchResultItemJson cfg)))

/-- `search` merges what the two schemas found. -/
theorem search_searched {args : Json} :
    Logs (fun _ _ => True) (Searched cfg user args) [] (search cfg user args) := by
  refine built_then fun r hr => perf_then trivial fun personal => perf_then trivial fun shared => ?_
  refine orStatus_then ?_
  rintro p rfl
  refine does_then (recordSearch_does fun _ _ => trivial) fun personalRecorded es _ => ?_
  refine does_then (recordSharedSearch_does fun _ _ => trivial) fun sharedRecorded es' _ => ?_
  refine Logs.pure ⟨r, p, shared, es ++ es', hr, by simp, ?_⟩
  simp [successContent, structuredField, Json.object, asObject, List.insertionSort, List.lookup_cons]

end Search

/-- Whatever the results and the limit: a search merges both lists without losing an
    item, or repeating one. -/
structure SearchMerged (cfg : Config) (user : AuthenticatedUser) : Prop where
  merged : ∀ limit personal shared, (∀ item ∈ personal ++ shared, ':' ∉ item.type.toList) →
    ∃ ps, Merged (personal ++ shared) limit (mergeResults limit personal shared) ps
  bottom : ∀ item other, (item.score = none ∨ ∃ x, item.score = some x ∧ x.isNan = true) →
    rank item ≤ rank other
  searched : ∀ args, Logs (fun _ _ => True) (Searched cfg user args) [] (search cfg user args)

/-- The merge is stable, distinct and complete. -/
theorem search_merged (cfg : Config) (user : AuthenticatedUser) : SearchMerged cfg user where
  merged limit _ _ htype := ⟨_, mergeResults_eq ▸ merged_pairs limit htype⟩
  bottom _ _ := rank_bottom
  searched _ := search_searched

/-! ## Nodes -/

section Nodes

variable (personal shared : List NodeResult)

/-- The user's nodes, and the shared ones whose ids are not among theirs. -/
def union : List NodeResult :=
  personal ++ shared.filter fun n => n.nodeId ∉ personal.map (·.nodeId)

/-- The slice of `limit` nodes from `offset` on. -/
def page (offset limit : ℕ) (nodes : List NodeResult) : List NodeResult :=
  (nodes.drop offset).take limit

/-- The reply of a backend with these nodes: to a request for the first `n` of them. -/
def RepliesFrom (nodes : List NodeResult) (r : QueryNodesRequest)
    (reply : Except Status QueryNodesResponse) : Prop :=
  ∀ n, r.offset = some 0 → r.limit = some n → ∃ resp, reply = .ok resp ∧
    resp.nodes = nodes.take n.toNat

variable {personal shared}

/-- The nodes kept are the first of their ids. -/
theorem distinctNodes_eq {seen : List String} {nodes : List NodeResult} :
    distinctNodes seen nodes = keepFirst (fun n => some n.nodeId) seen nodes := by
  induction nodes generalizing seen with
  | nil => rfl
  | cons n nodes ih => rw [distinctNodes, keepFirst_cons, ih, ih]

/-- The page of the union, from as many nodes of both as it needs. -/
theorem mergeNodes_take (hpersonal : (personal.map (·.nodeId)).Nodup)
    (hshared : (shared.map (·.nodeId)).Nodup) (offset limit : ℕ) :
    mergeNodes offset (some (limit : Int)) (personal.take (offset + limit))
      (shared.take (offset + limit)) = page offset limit (union personal shared) := by
  have htake := take_keepFirst hpersonal hshared (offset + limit)
  have hslice : ∀ nodes : List NodeResult,
      (nodes.drop offset).take limit = (nodes.take (offset + limit)).drop offset := by
    intro nodes
    rw [List.drop_take, Nat.add_sub_cancel_left]
  rw [mergeNodes, page, hslice, union, ← htake, ← hslice, distinctNodes_eq]
  rfl

theorem union_nodup (hpersonal : (personal.map (·.nodeId)).Nodup)
    (hshared : (shared.map (·.nodeId)).Nodup) :
    ((union personal shared).map (·.nodeId)).Nodup := by
  rw [union, List.map_append]
  refine List.nodup_append.2 ⟨hpersonal, hshared.sublist (List.filter_sublist.map _), ?_⟩
  rintro id hid id' hid' rfl
  obtain ⟨n, hn, rfl⟩ := List.mem_map.1 hid'
  exact absurd hid (of_decide_eq_true (List.mem_filter.1 hn).2)

theorem page_append {offset limit limit' : ℕ} {nodes : List NodeResult} :
    page offset limit nodes ++ page (offset + limit) limit' nodes =
      page offset (limit + limit') nodes := by
  rw [page, page, page, ← List.drop_drop, List.take_add]

/-- The bounds of a field whose least value and default are natural numbers. -/
theorem boundedField_nat {obj : Fields} {field name : String} {min default : ℕ} {max : Int}
    {x : Option Int} (h : boundedField obj field name min max (some (default : Int)) = .ok x) :
    ∃ n : ℕ, x = some (n : Int) := by
  rw [boundedField] at h
  split at h
  · cases h
    exact ⟨default, rfl⟩
  · obtain ⟨n, -, h⟩ := bind_ok h
    split at h
    · next hn =>
      cases h
      exact ⟨n.toNat, by rw [Int.toNat_of_nonneg ((Int.natCast_nonneg min).trans hn.1)]⟩
    · cases h

/-- The offset and the limit of a request are not negative. -/
theorem buildQueryNodesRequest_nat {U : Unicode} {userSchema : String} {args : Json}
    {r : QueryNodesRequest} (h : buildQueryNodesRequest U userSchema args = .ok r) :
    ∃ offset limit : ℕ, r.offset = some (offset : Int) ∧ r.limit = some (limit : Int) := by
  obtain ⟨obj, -, h⟩ := bind_ok h
  obtain ⟨nodeType, -, h⟩ := bind_ok h
  obtain ⟨filters, -, h⟩ := bind_ok h
  obtain ⟨sortBy, -, h⟩ := bind_ok h
  obtain ⟨sortOrder, -, h⟩ := bind_ok h
  obtain ⟨limit, hlimit, h⟩ := bind_ok h
  obtain ⟨offset, hoffset, h⟩ := bind_ok h
  cases h
  obtain ⟨l, rfl⟩ : ∃ n : ℕ, limit = some (n : Int) := @boundedField_nat _ _ _ 1 50 _ _ hlimit
  obtain ⟨o, rfl⟩ : ∃ n : ℕ, offset = some (n : Int) := @boundedField_nat _ _ _ 0 0 _ _ hoffset
  exact ⟨o, l, rfl, rfl⟩

variable (cfg : Config) (user : AuthenticatedUser) (args : Json)

/-- A query answers a page of the union of the nodes that the backend has for it, in
    the two schemas, unless the requests for them are cut. -/
def Paged (h : History) (content : Json) : Prop :=
  ∃ r p s, ∃ offset limit : ℕ,
    buildQueryNodesRequest cfg.unicode user.vegapunkSchema args = .ok r ∧
    r.offset = some (offset : Int) ∧ r.limit = some (limit : Int) ∧
    h = [⟨.queryNodes (pageRequest r), p⟩,
      ⟨.queryNodes { pageRequest r with schema := cfg.sharedSchemaName }, s⟩] ∧
    (offset + limit ≤ QUERY_NODES_LIMIT_MAX → ∀ personal shared : List NodeResult,
      (personal.map (·.nodeId)).Nodup → (shared.map (·.nodeId)).Nodup →
      RepliesFrom personal (pageRequest r) p →
      RepliesFrom shared { pageRequest r with schema := cfg.sharedSchemaName } s →
      structuredField content "nodes" =
        some (.arr ((page offset limit (union personal shared)).map nodeJson)))

variable {cfg user args}

/-- `query_nodes` answers a page of the union. -/
theorem queryNodes_paged :
    Logs (fun _ _ => True) (Paged cfg user args) [] (queryNodes cfg user args) := by
  refine built_then fun r hr => perf_then trivial fun p => perf_then trivial fun s => ?_
  obtain ⟨offset, limit, hoffset, hlimit⟩ := buildQueryNodesRequest_nat hr
  refine orStatus_then ?_
  rintro resp rfl
  refine Logs.pure ⟨r, _, s, offset, limit, hr, hoffset, hlimit, rfl, ?_⟩
  intro hle personal shared hpersonal hshared hp hs
  -- the backend is asked for as many nodes as the page needs
  have hfetch : (pageRequest r).limit = some ((offset + limit : ℕ) : Int) := by
    rw [pageRequest, hoffset, hlimit]
    simp only [Option.map_some, Option.getD_some, Option.some.injEq]
    rw [QUERY_NODES_LIMIT_MAX] at hle ⊢
    omega
  obtain ⟨resp', heq, hnodes⟩ := hp _ rfl hfetch
  cases heq
  obtain ⟨sharedResp, rfl, hsharedNodes⟩ := hs _ rfl hfetch
  rw [← mergeNodes_take hpersonal hshared]
  rw [Int.toNat_natCast] at hnodes hsharedNodes
  simp [successContent, structuredField, Json.object, asObject, List.insertionSort, List.lookup_cons,
    hoffset, hlimit, hnodes, hsharedNodes, Except.toOption]

end Nodes

/-- A query of nodes answers the pages of one list: the user's nodes, and then the
    shared ones whose ids are not among theirs. Pages in a row are one page, and no
    node is in two of them. -/
structure NodesPaged (cfg : Config) (user : AuthenticatedUser) : Prop where
  paged : ∀ args, Logs (fun _ _ => True) (Paged cfg user args) [] (queryNodes cfg user args)
  consecutive : ∀ offset limit limit' nodes,
    page offset limit nodes ++ page (offset + limit) limit' nodes =
      page offset (limit + limit') nodes
  distinct : ∀ personal shared : List NodeResult, (personal.map (·.nodeId)).Nodup →
    (shared.map (·.nodeId)).Nodup → ((union personal shared).map (·.nodeId)).Nodup

end LlmMemory.Vegapunk
