import LlmMemory.Server.Endpoint

/-!
# Users are separated

What a user is answered, but for searches, depends on what concerns them only: not on
the calls of others, in flight at the same time, nor on what is written or deleted for
others (`answers_separated`). It is required that no id drawn for a raw is drawn twice,
or is one of a raw that exists.
-/

namespace LlmMemory

open Unwinding

/-! ## The databases -/

/-- The personal rows that a user may see are the user's own. -/
theorem visible_personal_iff {u v : String} : Visible u (.personal v) = true ↔ v = u := by
  simp [Visible, OwnerKey.personal]

/-- The owner of the rows that an effect writes, or whose slot it claims. -/
def Effect.owner : Effect → OwnerKey
  | .insertRaw r => r.key
  | .tryStart key _ => key
  | .upsertSchema key _ _ => key
  | .deleteUser userId => .personal userId

namespace SameView

variable {u : String} {db db' : Db}

theorem symm (h : SameView u db db') : SameView u db' db :=
  ⟨h.sharedMemories.symm, h.raws.symm, h.wikis.symm, h.schemas.symm⟩

theorem refl : SameView u db db := ⟨rfl, rfl, rfl, rfl⟩

theorem trans {db'' : Db} (h : SameView u db db') (h' : SameView u db' db'') : SameView u db db'' :=
  ⟨h.sharedMemories.trans h'.sharedMemories, h.raws.trans h'.raws, h.wikis.trans h'.wikis,
    h.schemas.trans h'.schemas⟩

/-- A raw that a user may not see is inserted. -/
theorem insert_unseen {r : Raw} (hr : Visible u r.key = false) :
    SameView u (Raws.insert db r) db := by
  refine ⟨rfl, ?_, rfl, rfl⟩
  rw [Raws.insert, List.filter_append, List.filter_cons_of_neg (by rw [hr]; decide), List.filter_nil,
    List.append_nil]

theorem insert (h : SameView u db db') (r : Raw) :
    SameView u (Raws.insert db r) (Raws.insert db' r) := by
  refine ⟨h.sharedMemories, ?_, h.wikis, h.schemas⟩
  rw [Raws.insert, Raws.insert, List.filter_append, h.raws, List.filter_append]

/-- A page that a user may not see is written. -/
theorem upsertWiki_unseen {key : OwnerKey} {concept content : String} {refs : List String} {t : Int}
    (hkey : Visible u key = false) : SameView u (Wikis.upsert db key concept content refs t) db := by
  refine ⟨rfl, rfl, Rows.filter_upsert fun w hw => ?_, rfl⟩
  have hw : w.key = key := congrArg Prod.fst hw
  rw [hw, hkey]

theorem upsertWiki (h : SameView u db db') {key : OwnerKey} {concept content : String}
    {refs : List String} {t : Int} (hkey : Visible u key = true) :
    SameView u (Wikis.upsert db key concept content refs t)
      (Wikis.upsert db' key concept content refs t) := by
  have hrow : ∀ w, Wikis.primaryKey w =
      Wikis.primaryKey ⟨key.scope, key.ownerId, concept, content, refs, t⟩ →
      Visible u w.key = true := fun w hw => by
    have hw : w.key = key := congrArg Prod.fst hw
    rw [hw, hkey]
  refine ⟨h.sharedMemories, h.raws, ?_, h.schemas⟩
  rw [Wikis.upsert, Wikis.upsert, Rows.filter_upsert_self hrow, h.wikis,
    Rows.filter_upsert_self hrow]

/-- A schema that a user may not see is written. -/
theorem upsertSchema_unseen {key : OwnerKey} {content : String} {now : Int}
    (hkey : Visible u key = false) : SameView u (Schemas.upsert db key content now) db := by
  refine ⟨rfl, rfl, rfl, Rows.filter_upsert fun c hc => ?_⟩
  have hc : c.key = key := hc
  rw [hc, hkey]

theorem upsertSchema (h : SameView u db db') {key : OwnerKey} {content : String} {now : Int}
    (hkey : Visible u key = true) :
    SameView u (Schemas.upsert db key content now) (Schemas.upsert db' key content now) := by
  have hrow : ∀ c, Schema.key c = Schema.key ⟨key.scope, key.ownerId, content, now⟩ →
      Visible u c.key = true := fun c hc => by
    have hc : c.key = key := hc
    rw [hc, hkey]
  refine ⟨h.sharedMemories, h.raws, h.wikis, ?_⟩
  rw [Schemas.upsert, Schemas.upsert, Rows.filter_upsert_self hrow, h.schemas,
    Rows.filter_upsert_self hrow]

theorem deleteCascade_unseen {v : String} (hv : v ≠ u) :
    SameView u (Users.deleteCascade db v) db := by
  have hkeep : ∀ k, Visible u k = true → k ≠ .personal v := by
    rintro k hk rfl
    exact hv (visible_personal_iff.1 hk)
  refine ⟨rfl, ?_, ?_, ?_⟩ <;> rw [Users.deleteCascade, List.filter_filter] <;>
    refine List.filter_congr fun x _ => ?_ <;>
    · cases hx : Visible u _ with
      | true => simpa using hkeep _ hx
      | false => rfl

theorem deleteCascade (h : SameView u db db') (v : String) :
    SameView u (Users.deleteCascade db v) (Users.deleteCascade db' v) := by
  refine ⟨h.sharedMemories, ?_, ?_, ?_⟩ <;> rw [Users.deleteCascade, Users.deleteCascade] <;>
    rw [List.filter_comm]
  · rw [h.raws, List.filter_comm]
  · rw [h.wikis, List.filter_comm]
  · rw [h.schemas, List.filter_comm]

end SameView

/-! ## The shared state -/

/-- What the user may see of the shared state. -/
structure SharedView (u : String) (s s' : Shared) : Prop where
  now : s.now = s'.now
  db : SameView u s.db s'.db
  slot : s.map (.personal u) = s'.map (.personal u)

/-- A request for a rebuild only writes the slot. -/
theorem Shared.tryStart_shared (s : Shared) (key : OwnerKey) (mode : RebuildMode) :
    (s.tryStart key mode).2.db = s.db ∧ (s.tryStart key mode).2.now = s.now ∧
      (s.tryStart key mode).2.map = (s.map.tryStart key mode).2 := by
  unfold Shared.tryStart
  rcases s.map.tryStart key mode with ⟨o, map⟩
  cases o <;> exact ⟨rfl, rfl, rfl⟩

/-- Whether a worker is to start is up to the entry of its owner. -/
theorem Shared.tryStart_congr {s s' : Shared} {key : OwnerKey} (h : s.map key = s'.map key)
    (mode : RebuildMode) : (s.tryStart key mode).1 = (s'.tryStart key mode).1 := by
  have hentry : s.map.entry key = s'.map.entry key := by rw [StateMap.entry, h, StateMap.entry]
  have hout : (s.map.tryStart key mode).1 = (s'.map.tryStart key mode).1 := by
    rw [StateMap.tryStart, hentry]
    rfl
  unfold Shared.tryStart
  obtain ⟨⟨o, map⟩, hs⟩ : ∃ x, s.map.tryStart key mode = x := ⟨_, rfl⟩
  obtain ⟨⟨o', map'⟩, hs'⟩ : ∃ x, s'.map.tryStart key mode = x := ⟨_, rfl⟩
  rw [hs, hs'] at hout
  obtain rfl : o = o' := hout
  rw [hs, hs']
  cases o <;> rfl

namespace SharedView

variable {u : String} {s s' s'' : Shared} {e : Effect}

theorem symm (h : SharedView u s s') : SharedView u s' s := ⟨h.now.symm, h.db.symm, h.slot.symm⟩

theorem trans (h : SharedView u s s') (h' : SharedView u s' s'') : SharedView u s s'' :=
  ⟨h.now.trans h'.now, h.db.trans h'.db, h.slot.trans h'.slot⟩

theorem refl : SharedView u s s := ⟨rfl, .refl, rfl⟩

/-- An effect for another user is not seen. -/
theorem effect_unseen {v : String} (hv : v ≠ u) (he : e.owner = .personal v) :
    SharedView u (s.effect e) s := by
  have hvis : Visible u e.owner = false := by
    rw [he, Bool.eq_false_iff, Ne, visible_personal_iff]
    exact hv
  cases e with
  | insertRaw r => exact ⟨rfl, .insert_unseen hvis, rfl⟩
  | tryStart key mode =>
    obtain ⟨hdb, hnow, hmap⟩ := s.tryStart_shared key mode
    have hkey : key = .personal v := he
    have hne : OwnerKey.personal u ≠ key := by
      rw [hkey]
      exact fun h => hv (OwnerKey.mk.inj h).2.symm
    refine ⟨hnow, ?_, ?_⟩
    · rw [Shared.effect, hdb]
      exact .refl
    · rw [Shared.effect, hmap, StateMap.tryStart_of_ne hne]
  | upsertSchema key content now => exact ⟨rfl, .upsertSchema_unseen hvis, rfl⟩
  | deleteUser userId =>
    have hu : userId = v := (OwnerKey.mk.inj he).2
    exact ⟨rfl, .deleteCascade_unseen (hu ▸ hv), rfl⟩

/-- An effect for the user is the same where the same is seen. -/
theorem effect (h : SharedView u s s') (he : e.owner = .personal u) :
    SharedView u (s.effect e) (s'.effect e) := by
  cases e with
  | insertRaw r => exact ⟨h.now, h.db.insert r, h.slot⟩
  | tryStart key mode =>
    obtain ⟨hdb, hnow, hmap⟩ := s.tryStart_shared key mode
    obtain ⟨hdb', hnow', hmap'⟩ := s'.tryStart_shared key mode
    have hkey : key = .personal u := he
    refine ⟨?_, ?_, ?_⟩
    · rw [Shared.effect, hnow, Shared.effect, hnow', h.now]
    · rw [Shared.effect, hdb, Shared.effect, hdb']
      exact h.db
    · rw [Shared.effect, hmap, Shared.effect, hmap', hkey, StateMap.tryStart, StateMap.tryStart,
        StateMap.entry, h.slot, ← StateMap.entry]
      simp
  | upsertSchema key content now =>
    have hkey : key = .personal u := he
    exact ⟨h.now, h.db.upsertSchema (hkey ▸ visible_personal_iff.2 rfl), h.slot⟩
  | deleteUser userId => exact ⟨h.now, h.db.deleteCascade userId, h.slot⟩

/-- The effects of another user's call are not seen. -/
theorem effects_unseen {v : String} {es : List Effect} (hv : v ≠ u)
    (hes : ∀ e ∈ es, e.owner = .personal v) : SharedView u (es.foldl Shared.effect s) s := by
  induction es generalizing s with
  | nil => exact .refl
  | cons e es ih =>
    exact (ih fun e' he' => hes e' (List.mem_cons_of_mem _ he')).trans
      (effect_unseen hv (hes e List.mem_cons_self))

/-- The effects of the user's own call are seen alike. -/
theorem effects {es : List Effect} (h : SharedView u s s') (hes : ∀ e ∈ es, e.owner = .personal u) :
    SharedView u (es.foldl Shared.effect s) (es.foldl Shared.effect s') := by
  induction es generalizing s s' with
  | nil => exact h
  | cons e es ih =>
    exact ih (h.effect (hes e List.mem_cons_self)) fun e' he' => hes e' (List.mem_cons_of_mem _ he')

end SharedView

/-- A call has effects for its user only, where the raw that it inserts is theirs. -/
theorem WriteCall.next_owner {userId : String} {s : Shared} {ok : Bool} {w : WriteCall}
    (h : ∀ r, w = .insertRaw r → r.key = .personal userId) :
    ∀ e ∈ (w.next userId s ok).2, e.owner = .personal userId := by
  intro e he
  cases w with
  | insertRaw r =>
    rw [WriteCall.next] at he
    split at he
    · rw [List.mem_singleton.1 he]
      exact h r rfl
    · cases he
  | notifyAppend rawId => rw [List.mem_singleton.1 he]; rfl
  | upsertSchema content now =>
    rw [WriteCall.next] at he
    split at he
    · rw [List.mem_singleton.1 he]
      rfl
    · cases he
  | requestManual concept => rw [List.mem_singleton.1 he]; rfl

/-- A call goes on in the same way where the same is seen. -/
theorem WriteCall.next_congr {u : String} {s s' : Shared} {ok : Bool} {w : WriteCall}
    (h : SharedView u s s') (hid : ∀ r, w = .insertRaw r → Raws.get s.db r.id = none)
    (hid' : ∀ r, w = .insertRaw r → Raws.get s'.db r.id = none) :
    w.next u s ok = w.next u s' ok := by
  cases w with
  | insertRaw r =>
    rw [WriteCall.next, WriteCall.next, hid r rfl, hid' r rfl]
  | notifyAppend rawId => rw [WriteCall.next, WriteCall.next, Shared.tryStart_congr h.slot]
  | upsertSchema content now => rfl
  | requestManual concept => rw [WriteCall.next, WriteCall.next, Shared.tryStart_congr h.slot]

/-- A call that reads, other than a search, goes on in the same way where the same is seen. -/
theorem ReadCall.next_congr {fts : Fts} {u : String} {s s' : Shared} {ok : Bool} {w : ReadCall}
    (h : SharedView u s s') (hid : (s.db.raws.map (·.id)).Nodup)
    (hid' : (s'.db.raws.map (·.id)).Nodup) (hw : ¬w.Searches) :
    w.next fts u s ok = w.next fts u s' ok := by
  have hpersonal := SameView.visible_personal (u := u)
  have hshared : ∀ id, Visible u ⟨.shared, id⟩ = true := fun _ => SameView.visible_shared
  have hfound : w.found fts u s.db = w.found fts u s'.db := by
    cases w with
    | getRaw id =>
      exact congrArg Sum.inr (h.db.rawRead_eq hid hid' (.obj [("id", .str id)]))
    | searchPersonal a scope => exact absurd trivial hw
    | searchShared a found => exact absurd trivial hw
    | getWiki concept scope => rw [found, h.db.wikiGet_eq hpersonal, found]
    | memoriesOfRead concept personal => rw [found, h.db.listAll_eq, found]
    | getSharedWiki concept personal sm rest shared =>
      rw [found, h.db.wikiGet_eq (hshared sm.id), found]
    | listConcepts scope => rw [found, h.db.listConcepts_eq hpersonal, found]
    | memoriesOfList personal => rw [found, h.db.listAll_eq, found]
    | listSharedConcepts personal sm rest listed =>
      rw [found, h.db.listConcepts_eq (hshared sm.id), found]
    | getSchema => rw [found, h.db.schemaGet_eq hpersonal, found]
    | getSharedSchema id => rw [found, h.db.schemaGet_eq (hshared id), found]
    | fetchRaws cursor => rw [found, h.db.fetch_eq, found]
    | exportWikis page nextCursor => rw [found, h.db.listForOwner_eq hpersonal, found]
    | exportSchema page nextCursor wikis => rw [found, h.db.schemaGet_eq hpersonal, found]
    | exported page nextCursor wikis schema => rfl
  cases w with
  | exported page nextCursor wikis schema => rw [next, h.now, next]
  | _ =>
    show (if ok then _ else _) = if ok then _ else _
    rw [hfound]

/-! ## The ids drawn -/

/-- The ids drawn by the events. -/
def draws (es : List EndpointEvent) : List String := es.filterMap EndpointEvent.ulid?

/-- The call `k` waits for the insertion of `r`. -/
def Endpoint.Inserting (s : Endpoint) (k : String × ℕ) (r : Raw) : Prop :=
  ∃ p, s.pending k = some p ∧ p.work = .write (.insertRaw r)

/-- The ids of the raws, of those being inserted, and those that will be drawn all differ. -/
structure Fresh (es : List EndpointEvent) (s : Endpoint) : Prop where
  raws : (s.shared.db.raws.map (·.id)).Nodup
  distinct : (draws es).Nodup
  unused : ∀ id ∈ draws es, ∀ r ∈ s.shared.db.raws, r.id ≠ id
  owner : ∀ {k r}, s.Inserting k r → r.key = .personal k.1
  undrawn : ∀ {k r}, s.Inserting k r → r.id ∉ draws es
  uninserted : ∀ {k r}, s.Inserting k r → ∀ r' ∈ s.shared.db.raws, r'.id ≠ r.id
  single : ∀ {k r k' r'}, s.Inserting k r → s.Inserting k' r' → r'.id = r.id → k' = k

namespace Fresh

variable {s s' : Endpoint} {e : EndpointEvent} {es : List EndpointEvent}

theorem of_draws {es' : List EndpointEvent} (h : Fresh es s)
    (hes : (draws es').Sublist (draws es)) : Fresh es' s :=
  ⟨h.raws, h.distinct.sublist hes, fun id hid => h.unused id (hes.subset hid), h.owner,
    fun hk hid => h.undrawn hk (hes.subset hid), h.uninserted, h.single⟩

theorem tail (h : Fresh (e :: es) s) : Fresh es s :=
  h.of_draws ((List.sublist_cons_self e es).filterMap _)

/-- Rows may go, and calls may end. -/
theorem of_sublist (h : Fresh es s) (hraws : s'.shared.db.raws.Sublist s.shared.db.raws)
    (hins : ∀ k r, s'.Inserting k r → s.Inserting k r) : Fresh es s' :=
  ⟨h.raws.sublist (hraws.map _), h.distinct, fun id hid r hr => h.unused id hid r (hraws.subset hr),
    fun hk => h.owner (hins _ _ hk), fun hk => h.undrawn (hins _ _ hk),
    fun hk r' hr' => h.uninserted (hins _ _ hk) r' (hraws.subset hr'),
    fun hk hk' => h.single (hins _ _ hk) (hins _ _ hk')⟩

/-- An id that is being inserted is not there yet. -/
theorem get_eq_none (h : Fresh es s) {k : String × ℕ} {r : Raw} (hk : s.Inserting k r) :
    Raws.get s.shared.db r.id = none :=
  List.find?_eq_none.2 fun r' hr' => by simpa using h.uninserted hk r' hr'

end Fresh

/-- A call that waits for an insertion is the one that was set, or waited before. -/
theorem inserting_setPending {s : Endpoint} {k k' : String × ℕ} {p : Option Pending} {r : Raw}
    (h : (s.setPending k p).Inserting k' r) :
    (k' = k ∧ ∃ q, p = some q ∧ q.work = .write (.insertRaw r)) ∨ (k' ≠ k ∧ s.Inserting k' r) := by
  obtain ⟨q, hq, hw⟩ := h
  by_cases hk : k' = k
  · subst hk
    rw [Endpoint.setPending_self] at hq
    exact .inl ⟨rfl, q, hq, hw⟩
  · rw [Endpoint.setPending_of_ne hk] at hq
    exact .inr ⟨hk, q, hq, hw⟩

/-- A call that waits to insert a raw was given its id, and is of its owner. -/
theorem WriteTool.start_insertRaw {userId ulid : String} {now : Int} {args : Json} {t : WriteTool}
    {r : Raw} (h : t.start userId ulid now args = .ok (.insertRaw r)) :
    r.id = ulid ∧ r.key = .personal userId := by
  cases t with
  | rawAppend =>
    obtain ⟨a, -, h⟩ := bind_ok h
    split at h
    · cases h
    · split at h <;> cases h
      exact ⟨rfl, rfl⟩
  | schemaUpdate =>
    obtain ⟨content, -, h⟩ := bind_ok h
    cases h
  | wikiRebuild =>
    obtain ⟨concept, -, h⟩ := bind_ok h
    split at h
    · split at h <;> cases h
    · cases h

/-- A call that begins with an insertion has the id drawn, and the user as owner. -/
theorem startWork_insertRaw {userId ulid name : String} {now : Int} {args : Json} {r : Raw}
    (h : startWork userId ulid now name args = .ok (.write (.insertRaw r))) :
    r.id = ulid ∧ r.key = .personal userId := by
  rcases startWork_ok h with ⟨t, w, -, -, he⟩ | ⟨t, w, hstart, -, he⟩
  · cases he
  · cases he
    exact WriteTool.start_insertRaw hstart

/-! ## The rate limiter -/

/-- A check of one user leaves the buckets of the others. -/
theorem RateLimiter.check_of_ne {now : ℚ} {userId v tier : String} {t : Tier}
    {b : TokenBucket.Buckets ℚ (String × String)} (hv : v ≠ userId) :
    (check now userId t b).2 (v, tier) = b (v, tier) := by
  have hne : (v, tier) ≠ (userId, t.name) := fun h => hv (Prod.mk.inj h).1
  unfold check
  dsimp only
  split <;> exact Function.update_of_ne hne ..

theorem RateLimiter.check_congr (now : ℚ) {u : String} (t : Tier)
    {b b' : TokenBucket.Buckets ℚ (String × String)} (h : ∀ tier, b (u, tier) = b' (u, tier)) :
    (check now u t b).1 = (check now u t b').1 ∧
      ∀ tier, (check now u t b).2 (u, tier) = (check now u t b').2 (u, tier) := by
  have hupdate : ∀ (x : Option (TokenBucket.Bucket ℚ)) (tier : String),
      Function.update b (u, t.name) x (u, tier) = Function.update b' (u, t.name) x (u, tier) :=
    fun x tier => by
      by_cases ht : tier = t.name
      · rw [ht, Function.update_self, Function.update_self]
      · have hne : (u, tier) ≠ (u, t.name) := fun he => ht (Prod.mk.inj he).2
        rw [Function.update_of_ne hne, Function.update_of_ne hne, h]
  unfold check
  dsimp only
  rw [h]
  split
  · exact ⟨rfl, hupdate _⟩
  · exact ⟨rfl, hupdate _⟩

/-- A call of one user leaves the buckets of the others. -/
theorem RateLimiter.call_of_ne {r : Request} {v tier : String}
    {b : TokenBucket.Buckets ℚ (String × String)} (hv : v ≠ r.userId) :
    (call r b).2 (v, tier) = b (v, tier) := by
  rw [call_buckets]
  split
  · exact check_of_ne hv
  · rfl

/-- What becomes of a call is up to the buckets of its user. -/
theorem RateLimiter.call_congr {r : Request} {b b' : TokenBucket.Buckets ℚ (String × String)}
    (h : ∀ tier, b (r.userId, tier) = b' (r.userId, tier)) :
    (call r b).1 = (call r b').1 ∧
      ∀ tier, (call r b).2 (r.userId, tier) = (call r b').2 (r.userId, tier) := by
  obtain ⟨hallowed, hbuckets⟩ := check_congr r.now (tierOf r.tool) h
  constructor
  · unfold call
    split
    · rfl
    · dsimp only
      rw [hallowed]
      split <;> rfl
  · intro tier
    rw [call_buckets, call_buckets]
    split
    · exact hbuckets tier
    · exact h tier

/-! ## Steps -/

/-- What a user sees of the endpoint. -/
structure EndpointView (u : String) (s s' : Endpoint) : Prop where
  shared : SharedView u s.shared s'.shared
  secs : s.secs = s'.secs
  buckets : ∀ tier, s.buckets (u, tier) = s'.buckets (u, tier)
  pending : ∀ n, s.pending (u, n) = s'.pending (u, n)

/-- The answer is for the user. -/
def Answer.isFor (u : String) (a : Answer) : Bool := a.userId = u

/-- A call comes in: it is answered at once, or waits. -/
theorem Endpoint.call_cases (s : Endpoint) (userId : String) (n : ℕ) (rpcId : Option Json)
    (params : Json) (ulid : String) :
    let buckets := (RateLimiter.call ⟨s.secs, userId, calledTool params⟩ s.buckets).2
    (∃ response, s.call userId n rpcId params ulid =
      ({ s with buckets := buckets }, [⟨userId, n, response⟩])) ∨
    ∃ args work, startWork userId ulid s.shared.now (calledTool params) args = .ok work ∧
      s.call userId n rpcId params ulid =
        ({ s with buckets := buckets }.setPending (userId, n)
          (some ⟨rpcId, calledTool params, work⟩), []) := by
  unfold Endpoint.call
  dsimp only
  rcases RateLimiter.call ⟨s.secs, userId, calledTool params⟩ s.buckets with ⟨adm, buckets⟩
  cases adm with
  | unknownTool code message => exact .inl ⟨_, rfl⟩
  | rateLimited result => exact .inl ⟨_, rfl⟩
  | admitted =>
    dsimp only
    split
    · next work hwork => exact .inr ⟨_, work, hwork, rfl⟩
    · exact .inl ⟨_, rfl⟩

/-- A call in flight waits for what it waited for before its step, one query later. -/
def Work.Continues (fts : Fts) (userId : String) (s : Shared) (ok : Bool) : Work → Work → Prop
  | .read w, .read w' => w.next fts userId s ok = .inl w'
  | .write w, .write w' => ∃ es, w.next userId s ok = (.inl w', es)
  | _, _ => False

/-- A call goes on to what it waits for next, or is answered; only what it writes has
    effects. -/
theorem Endpoint.go_cases (fts : Fts) (s : Endpoint) (userId : String) (n : ℕ) (ok : Bool)
    (p : Pending) : ∃ es p' answers,
    go fts s userId n ok p =
      ({ s with shared := es.foldl Shared.effect s.shared }.setPending (userId, n) p', answers) ∧
    (∀ a ∈ answers, a.userId = userId) ∧
    (∀ q ∈ p', p.work.Continues fts userId s.shared ok q.work) ∧
    (es = [] ∨ ∃ w, p.work = .write w ∧ es = (w.next userId s.shared ok).2) := by
  unfold Endpoint.go
  cases p.work with
  | read w =>
    dsimp only
    obtain ⟨r, hnext⟩ : ∃ r, w.next fts userId s.shared ok = r := ⟨_, rfl⟩
    rw [hnext]
    cases r with
    | inl w' => exact ⟨[], some _, [], rfl, nofun, fun q hq => by cases hq; exact hnext, .inl rfl⟩
    | inr result =>
      exact ⟨[], none, _, rfl, fun a ha => by rw [List.mem_singleton.1 ha], nofun, .inl rfl⟩
  | write w =>
    dsimp only
    obtain ⟨⟨r, es⟩, hnext⟩ : ∃ x, w.next userId s.shared ok = x := ⟨_, rfl⟩
    rw [hnext]
    cases r with
    | inl w' =>
      exact ⟨es, some _, [], rfl, nofun, fun q hq => by cases hq; exact ⟨es, hnext⟩,
        .inr ⟨w, rfl, by rw [hnext]⟩⟩
    | inr result =>
      exact ⟨es, none, _, rfl, fun a ha => by rw [List.mem_singleton.1 ha], nofun,
        .inr ⟨w, rfl, by rw [hnext]⟩⟩

/-- What a call goes on with is no insertion. -/
theorem Work.Continues.ne_insertRaw {fts : Fts} {userId : String} {s : Shared} {ok : Bool}
    {work work' : Work} (h : work.Continues fts userId s ok work') (r : Raw) :
    work' ≠ .write (.insertRaw r) := by
  rintro rfl
  cases work with
  | read w => exact h
  | write w =>
    obtain ⟨es, hnext⟩ := h
    cases w with
    | insertRaw r =>
      rw [WriteCall.next] at hnext
      split at hnext <;> cases hnext
    | notifyAppend rawId => cases hnext
    | upsertSchema content now =>
      rw [WriteCall.next] at hnext
      split at hnext <;> cases hnext
    | requestManual concept => cases hnext

/-- A step of a call inserts the raw that it waits to insert, or none. -/
theorem WriteCall.next_raws (userId : String) (s : Shared) (ok : Bool) (w : WriteCall) :
    ((w.next userId s ok).2.foldl Shared.effect s).db.raws = s.db.raws ∨
      ∃ r, w = .insertRaw r ∧
        ((w.next userId s ok).2.foldl Shared.effect s).db.raws = s.db.raws ++ [r] := by
  cases w with
  | insertRaw r =>
    rw [WriteCall.next]
    split
    · exact .inr ⟨r, rfl, rfl⟩
    · exact .inl rfl
  | notifyAppend rawId => exact .inl (congrArg Db.raws (Shared.tryStart_shared ..).1)
  | upsertSchema content now => cases ok <;> exact .inl rfl
  | requestManual concept => exact .inl (congrArg Db.raws (Shared.tryStart_shared ..).1)

/-- A raw that a call waited to insert is inserted, and the call goes on. -/
theorem Fresh.insert {s s' : Endpoint} {es : List EndpointEvent} {k : String × ℕ} {r : Raw}
    (h : Fresh es s) (hk : s.Inserting k r)
    (hraws : s'.shared.db.raws = s.shared.db.raws ++ [r])
    (hins : ∀ k' r', s'.Inserting k' r' → k' ≠ k ∧ s.Inserting k' r') : Fresh es s' := by
  refine ⟨?_, h.distinct, fun id hid r' hr' => ?_, fun hk' => h.owner (hins _ _ hk').2,
    fun hk' => h.undrawn (hins _ _ hk').2, fun {k' r'} hk' r'' hr'' => ?_,
    fun hk' hk'' => h.single (hins _ _ hk').2 (hins _ _ hk'').2⟩
  · rw [hraws, List.map_append]
    refine List.nodup_append.2 ⟨h.raws, List.nodup_singleton _, fun id hid id' hid' => ?_⟩
    obtain ⟨r', hr', rfl⟩ := List.mem_map.1 hid
    rw [List.mem_singleton.1 hid']
    exact h.uninserted hk r' hr'
  · rw [hraws] at hr'
    rcases List.mem_append.1 hr' with hr' | hr'
    · exact h.unused id hid r' hr'
    · rw [List.mem_singleton.1 hr']
      rintro rfl
      exact h.undrawn hk hid
  · obtain ⟨hne, hk'⟩ := hins _ _ hk'
    rw [hraws] at hr''
    rcases List.mem_append.1 hr'' with hr'' | hr''
    · exact h.uninserted hk' r'' hr''
    · rw [List.mem_singleton.1 hr'']
      exact fun hid => hne (h.single hk' hk hid).symm

/-- A call begins to wait. -/
theorem Fresh.start {s : Endpoint} (s' : Endpoint) {es : List EndpointEvent} {userId : String} {n : ℕ}
    {rpcId : Option Json} {params : Json} {ulid : String} {p : Pending}
    (h : Fresh (.call userId n rpcId params ulid :: es) s)
    (hraws : s'.shared.db.raws = s.shared.db.raws) (hpending : s'.pending = s.pending)
    (hp : ∀ r, p.work = .write (.insertRaw r) → r.id = ulid ∧ r.key = .personal userId) :
    Fresh es (s'.setPending (userId, n) (some p)) := by
  have hdraws : draws (.call userId n rpcId params ulid :: es) = ulid :: draws es := rfl
  have hold : ∀ {k r}, s'.Inserting k r → s.Inserting k r := fun {k r} ⟨q, hq, hw⟩ =>
    ⟨q, hpending ▸ hq, hw⟩
  have hcase : ∀ {k r}, (s'.setPending (userId, n) (some p)).Inserting k r →
      (k = (userId, n) ∧ r.id = ulid ∧ r.key = .personal userId) ∨
        (k ≠ (userId, n) ∧ s.Inserting k r) := fun {k r} hk => by
    rcases inserting_setPending hk with ⟨rfl, q, hq, hw⟩ | ⟨hne, hk⟩
    · cases hq
      exact .inl ⟨rfl, hp r hw⟩
    · exact .inr ⟨hne, hold hk⟩
  have hulid : ulid ∉ draws es := by
    have := h.distinct
    rw [hdraws] at this
    exact (List.nodup_cons.1 this).1
  have hnew : ∀ {k r}, s.Inserting k r → r.id ≠ ulid := fun hk he =>
    h.undrawn hk (by rw [hdraws, he]; exact List.mem_cons_self)
  refine ⟨?_, h.tail.distinct, fun id hid r hr => ?_, fun {k r} hk => ?_, fun {k r} hk => ?_,
    fun {k r} hk r' hr' => ?_, fun {k r k' r'} hk hk' hid => ?_⟩
  · show (s'.shared.db.raws.map (·.id)).Nodup
    rw [hraws]
    exact h.raws
  · exact h.tail.unused id hid r (hraws ▸ hr)
  · rcases hcase hk with ⟨rfl, -, hkey⟩ | ⟨-, hk⟩
    · exact hkey
    · exact h.owner hk
  · rcases hcase hk with ⟨-, hid, -⟩ | ⟨-, hk⟩
    · rw [hid]
      exact hulid
    · exact h.tail.undrawn hk
  · have hr' : r' ∈ s.shared.db.raws := hraws ▸ hr'
    rcases hcase hk with ⟨-, hid, -⟩ | ⟨-, hk⟩
    · rw [hid]
      exact h.unused ulid (by rw [hdraws]; exact List.mem_cons_self) r' hr'
    · exact h.uninserted hk r' hr'
  · rcases hcase hk with ⟨rfl, hr, -⟩ | ⟨-, hk⟩ <;> rcases hcase hk' with ⟨rfl, hr', -⟩ | ⟨-, hk'⟩
    · rfl
    · exact absurd (hid.trans hr) (hnew hk')
    · exact absurd (hid.symm.trans hr') (hnew hk)
    · exact h.single hk hk' hid

/-- Every step keeps the ids fresh. -/
theorem fresh_step {fts : Fts} {s : Endpoint} {e : EndpointEvent} {es : List EndpointEvent}
    (h : Fresh (e :: es) s) : Fresh es (s.step fts e).1 := by
  cases e with
  | call userId n rpcId params ulid =>
    rw [Endpoint.step]
    split
    · exact h.tail
    · rcases s.call_cases userId n rpcId params ulid with ⟨response, hcall⟩ | ⟨args, work, hwork, hcall⟩
      · rw [hcall]
        exact h.tail.of_sublist (.refl _) fun _ _ hk => hk
      · rw [hcall]
        refine h.start { s with buckets := _ } rfl rfl fun r hr => ?_
        have hr : work = .write (.insertRaw r) := hr
        exact startWork_insertRaw (hr ▸ hwork)
  | go userId n ok =>
    rw [Endpoint.step]
    split
    · next p hp =>
      obtain ⟨es', p', answers, hgo, -, hcont, hes⟩ := Endpoint.go_cases fts s userId n ok p
      rw [hgo]
      have hins : ∀ k r, ({ s with shared := es'.foldl Shared.effect s.shared }.setPending
          (userId, n) p').Inserting k r → k ≠ (userId, n) ∧ s.Inserting k r := fun k r hk => by
        rcases inserting_setPending hk with ⟨rfl, q, hq, hw⟩ | ⟨hne, hk⟩
        · exact absurd hw ((hcont q hq).ne_insertRaw r)
        · exact ⟨hne, hk⟩
      rcases hes with rfl | ⟨w, hw, rfl⟩
      · exact h.tail.of_sublist (.refl _) fun k r hk => (hins k r hk).2
      · rcases WriteCall.next_raws userId s.shared ok w with
          hraws | ⟨r, rfl, hraws⟩
        · refine h.tail.of_sublist ?_ fun k r hk => (hins k r hk).2
          show List.Sublist _ _
          rw [Endpoint.setPending, hraws]
        · exact h.tail.insert ⟨p, hp, hw⟩ hraws hins
    · exact h.tail
  | deleteMe userId =>
    exact h.tail.of_sublist List.filter_sublist fun _ _ hk => hk
  | page key concept content refs t => exact h.tail.of_sublist (.refl _) fun _ _ hk => hk
  | slot key entry => exact h.tail.of_sublist (.refl _) fun _ _ hk => hk
  | tick dt secs => exact h.tail.of_sublist (.refl _) fun _ _ hk => hk

/-! ## Searches -/

/-- The user calls the search. -/
def EndpointEvent.searches (u : String) : EndpointEvent → Bool
  | .call userId _ _ params _ => userId = u && calledTool params = "raw_search"
  | _ => false

/-- The call in flight searches. -/
def Work.Searches : Work → Prop
  | .read w => w.Searches
  | .write _ => False

/-- The user does not search, and is not searching. -/
structure Quiet (u : String) (es : List EndpointEvent) (s : Endpoint) : Prop where
  events : ∀ e ∈ es, e.searches u = false
  pending : ∀ {n p}, s.pending (u, n) = some p → ¬p.work.Searches

/-- Only the search begins with one. -/
theorem ReadTool.start_searches {userId : String} {args : Json} {t : ReadTool} {w : ReadCall}
    (h : t.start userId args = .ok w) (hw : w.Searches) : t = .rawSearch := by
  cases t with
  | rawSearch => rfl
  | rawRead =>
    obtain ⟨id, -, h⟩ := bind_ok h
    cases h
    exact hw.elim
  | wikiRead =>
    obtain ⟨⟨concept, scope⟩, -, h⟩ := bind_ok h
    obtain ⟨scope, -, h⟩ := bind_ok h
    rcases scope with _ | _ | _ <;> cases h <;> exact hw.elim
  | wikiList =>
    obtain ⟨a, -, h⟩ := bind_ok h
    obtain ⟨scope, -, h⟩ := bind_ok h
    rcases scope with _ | _ | _ <;> cases h <;> exact hw.elim
  | schemaRead =>
    obtain ⟨a, -, h⟩ := bind_ok h
    obtain ⟨⟨_ | _, id⟩, -, h⟩ := bind_ok h <;> cases h <;> exact hw.elim
  | «export» =>
    obtain ⟨a, -, h⟩ := bind_ok h
    obtain ⟨cursor, -, h⟩ := bind_ok h
    cases h
    exact hw.elim

theorem startWork_searches {userId ulid name : String} {now : Int} {args : Json} {work : Work}
    (h : startWork userId ulid now name args = .ok work) (hw : work.Searches) :
    name = "raw_search" := by
  rcases startWork_ok h with ⟨t, w, hstart, hname, rfl⟩ | ⟨t, w, -, -, rfl⟩
  · rw [hname, ReadTool.start_searches hstart hw]
    rfl
  · exact hw.elim

/-- A call that goes on searches only if it was searching. -/
theorem ReadCall.next_searches {fts : Fts} {userId : String} {s : Shared} {ok : Bool}
    {w w' : ReadCall} (h : w.next fts userId s ok = .inl w') (hw : w'.Searches) : w.Searches := by
  have hread : ∀ {concept personal found sms},
      readShared concept personal found sms = .inl w' → ¬w'.Searches := fun {_ _ _ sms} h => by
    cases sms <;> cases h
    exact id
  have hlist : ∀ {personal listed sms}, listShared personal listed sms = .inl w' → ¬w'.Searches :=
    fun {_ _ sms} h => by
      cases sms <;> cases h
      exact id
  cases w with
  | searchPersonal a scope => trivial
  | searchShared a found => trivial
  | exported page nextCursor wikis schema => cases h
  | getRaw id => cases ok <;> cases h
  | getSchema => cases ok <;> cases h
  | getSharedSchema id => cases ok <;> cases h
  | memoriesOfRead concept personal =>
    cases ok
    · cases h
    · exact absurd hw (hread h)
  | getSharedWiki concept personal sm rest found =>
    cases ok
    · cases h
    · exact absurd hw (hread h)
  | memoriesOfList personal =>
    cases ok
    · cases h
    · exact absurd hw (hlist h)
  | listSharedConcepts personal sm rest listed =>
    cases ok
    · cases h
    · exact absurd hw (hlist h)
  | getWiki concept scope =>
    cases ok
    · cases h
    · change (if _ then _ else _) = _ at h
      split at h <;> cases h
      exact hw
  | listConcepts scope =>
    cases ok
    · cases h
    · change (if _ then _ else _) = _ at h
      split at h <;> cases h
      exact hw
  | fetchRaws cursor =>
    cases ok
    · cases h
    · change (if _ then _ else _) = _ at h
      split at h <;> cases h <;> exact hw
  | exportWikis page nextCursor =>
    cases ok <;> cases h
    exact hw
  | exportSchema page nextCursor wikis =>
    cases ok <;> cases h
    exact hw

/-- A call that goes on with a search was one before. -/
theorem Work.Continues.searches {fts : Fts} {userId : String} {s : Shared} {ok : Bool}
    {work work' : Work} (h : work.Continues fts userId s ok work') (hw : work'.Searches) :
    work.Searches := by
  cases work with
  | read w =>
    cases work' with
    | read w' => exact ReadCall.next_searches h hw
    | write w' => exact hw.elim
  | write w =>
    cases work' with
    | read w' => exact h.elim
    | write w' => exact hw.elim

/-- Every step keeps the user from searching. -/
theorem quiet_step {fts : Fts} {u : String} {s : Endpoint} {e : EndpointEvent}
    {es : List EndpointEvent} (h : Quiet u (e :: es) s) : Quiet u es (s.step fts e).1 := by
  have hevents : ∀ e ∈ es, e.searches u = false := fun e he => h.events e (List.mem_cons_of_mem _ he)
  cases e with
  | call userId n rpcId params ulid =>
    rw [Endpoint.step]
    split
    · exact ⟨hevents, h.pending⟩
    · rcases s.call_cases userId n rpcId params ulid with ⟨response, hcall⟩ | ⟨args, work, hwork, hcall⟩
      · rw [hcall]
        exact ⟨hevents, h.pending⟩
      · rw [hcall]
        refine ⟨hevents, fun {n' p} hp hsearch => ?_⟩
        by_cases hk : (u, n') = (userId, n)
        · obtain ⟨rfl, rfl⟩ := Prod.mk.inj hk
          rw [Endpoint.setPending_self] at hp
          cases hp
          have hquiet := h.events _ List.mem_cons_self
          rw [EndpointEvent.searches, startWork_searches hwork hsearch] at hquiet
          simp at hquiet
        · rw [Endpoint.setPending_of_ne hk] at hp
          exact h.pending hp hsearch
  | go userId n ok =>
    rw [Endpoint.step]
    split
    · next p hp =>
      obtain ⟨es', p', answers, hgo, -, hcont, -⟩ := Endpoint.go_cases fts s userId n ok p
      rw [hgo]
      refine ⟨hevents, fun {n' q} hq hsearch => ?_⟩
      by_cases hk : (u, n') = (userId, n)
      · obtain ⟨rfl, rfl⟩ := Prod.mk.inj hk
        rw [Endpoint.setPending_self] at hq
        exact h.pending hp ((hcont q hq).searches hsearch)
      · rw [Endpoint.setPending_of_ne hk] at hq
        exact h.pending hq hsearch
    · exact ⟨hevents, h.pending⟩
  | deleteMe userId => exact ⟨hevents, h.pending⟩
  | page key concept content refs t => exact ⟨hevents, h.pending⟩
  | slot key entry => exact ⟨hevents, h.pending⟩
  | tick dt secs => exact ⟨hevents, h.pending⟩

/-! ## What a step shows -/

/-- The answers to others are not for the user. -/
theorem answers_unseen {u v : String} (hv : v ≠ u) {answers : List Answer}
    (h : ∀ a ∈ answers, a.userId = v) : answers.filter (·.isFor u) = [] := by
  refine List.filter_eq_nil_iff.2 fun a ha => ?_
  rw [Answer.isFor, h a ha]
  simpa using hv

/-- What does not concern a user is not seen by them. -/
theorem view_unseen {fts : Fts} {u : String} {s s' : Endpoint} {e : EndpointEvent}
    {es : List EndpointEvent} (hfresh : Fresh (e :: es) s) (h : EndpointView u s s')
    (hc : e.concerns u = false) : EndpointView u (s.step fts e).1 s' ∧
      (s.step fts e).2.filter (·.isFor u) = [] := by
  cases e with
  | call userId n rpcId params ulid =>
    have hu : userId ≠ u := of_decide_eq_false hc
    rw [Endpoint.step]
    split
    · exact ⟨h, rfl⟩
    · have hbuckets : ∀ tier, (RateLimiter.call ⟨s.secs, userId, calledTool params⟩ s.buckets).2
          (u, tier) = s'.buckets (u, tier) := fun tier => by
        rw [RateLimiter.call_of_ne hu.symm, h.buckets]
      rcases s.call_cases userId n rpcId params ulid with ⟨response, hcall⟩ | ⟨args, work, -, hcall⟩
      · rw [hcall]
        exact ⟨⟨h.shared, h.secs, hbuckets, h.pending⟩,
          answers_unseen hu fun a ha => by rw [List.mem_singleton.1 ha]⟩
      · rw [hcall]
        refine ⟨⟨h.shared, h.secs, hbuckets, fun n' => ?_⟩, rfl⟩
        rw [Endpoint.setPending_of_ne fun hk => hu (Prod.mk.inj hk).1.symm]
        exact h.pending n'
  | go userId n ok =>
    have hu : userId ≠ u := of_decide_eq_false hc
    rw [Endpoint.step]
    split
    · next p hp =>
      obtain ⟨es', p', answers, hgo, hans, -, hes⟩ := Endpoint.go_cases fts s userId n ok p
      have howner : ∀ e ∈ es', e.owner = .personal userId := by
        rcases hes with rfl | ⟨w, hw, rfl⟩
        · exact fun _ he => nomatch he
        · exact WriteCall.next_owner fun r hr => hfresh.owner ⟨p, hp, by rw [hw, hr]⟩
      rw [hgo]
      refine ⟨⟨(SharedView.effects_unseen hu howner).trans h.shared, h.secs, h.buckets, fun n' => ?_⟩,
        answers_unseen hu hans⟩
      rw [Endpoint.setPending_of_ne fun hk => hu (Prod.mk.inj hk).1.symm]
      exact h.pending n'
    · exact ⟨h, rfl⟩
  | deleteMe userId =>
    have hu : userId ≠ u := of_decide_eq_false hc
    have hunseen : SharedView u (s.shared.effect (.deleteUser userId)) s.shared :=
      SharedView.effect_unseen hu rfl
    exact ⟨⟨hunseen.trans h.shared, h.secs, h.buckets, h.pending⟩, rfl⟩
  | page key concept content refs t =>
    exact ⟨⟨⟨h.shared.now, (SameView.upsertWiki_unseen hc).trans h.shared.db, h.shared.slot⟩, h.secs,
      h.buckets, h.pending⟩, rfl⟩
  | slot key entry =>
    have hkey : key ≠ .personal u := of_decide_eq_false hc
    refine ⟨⟨⟨h.shared.now, h.shared.db, ?_⟩, h.secs, h.buckets, h.pending⟩, rfl⟩
    rw [Endpoint.step]
    exact (Function.update_of_ne hkey.symm ..).trans h.shared.slot
  | tick dt secs => cases hc

theorem EndpointView.setPending {u : String} {s s' : Endpoint} (h : EndpointView u s s') (n : ℕ)
    (p : Option Pending) : EndpointView u (s.setPending (u, n) p) (s'.setPending (u, n) p) := by
  refine ⟨h.shared, h.secs, h.buckets, fun n' => ?_⟩
  by_cases hn : n' = n
  · rw [hn, Endpoint.setPending_self, Endpoint.setPending_self]
  · have hne : (u, n') ≠ (u, n) := fun hk => hn (Prod.mk.inj hk).2
    rw [Endpoint.setPending_of_ne hne, Endpoint.setPending_of_ne hne, h.pending]

/-- A call of the user comes in, and is seen alike. -/
theorem call_seen {u : String} {s s' : Endpoint} (h : EndpointView u s s') (n : ℕ)
    (rpcId : Option Json) (params : Json) (ulid : String) :
    EndpointView u (s.call u n rpcId params ulid).1 (s'.call u n rpcId params ulid).1 ∧
      (s.call u n rpcId params ulid).2 = (s'.call u n rpcId params ulid).2 := by
  obtain ⟨hadm, hbuckets⟩ :=
    RateLimiter.call_congr (r := ⟨s.secs, u, calledTool params⟩) h.buckets
  unfold Endpoint.call
  dsimp only
  rw [← h.secs, ← h.shared.now]
  obtain ⟨⟨adm, b⟩, hcall⟩ : ∃ x, RateLimiter.call ⟨s.secs, u, calledTool params⟩ s.buckets = x :=
    ⟨_, rfl⟩
  obtain ⟨⟨adm', b'⟩, hcall'⟩ :
      ∃ x, RateLimiter.call ⟨s.secs, u, calledTool params⟩ s'.buckets = x := ⟨_, rfl⟩
  rw [hcall, hcall'] at hadm hbuckets
  rw [hcall, hcall']
  obtain rfl : adm = adm' := hadm
  have hview : EndpointView u { s with buckets := b }
      { s' with secs := s.secs, buckets := b' } :=
    ⟨h.shared, rfl, hbuckets, h.pending⟩
  cases adm with
  | unknownTool code message => exact ⟨hview, rfl⟩
  | rateLimited result => exact ⟨hview, rfl⟩
  | admitted =>
    dsimp only
    split
    · exact ⟨hview.setPending n _, rfl⟩
    · exact ⟨hview, rfl⟩

/-- A call of the user goes on, and is seen alike. -/
theorem go_seen {fts : Fts} {u : String} {s s' : Endpoint} {n : ℕ} {ok : Bool} {p : Pending}
    (h : EndpointView u s s') {es es' : List EndpointEvent} (hs : Fresh es s) (hs' : Fresh es' s')
    (hp : s.pending (u, n) = some p) (hp' : s'.pending (u, n) = some p)
    (hquiet : ¬p.work.Searches) :
    EndpointView u (s.go fts u n ok p).1 (s'.go fts u n ok p).1 ∧
      (s.go fts u n ok p).2 = (s'.go fts u n ok p).2 := by
  unfold Endpoint.go
  cases hwork : p.work with
  | read w =>
    rw [hwork] at hquiet
    have hnext : w.next fts u s.shared ok = w.next fts u s'.shared ok :=
      ReadCall.next_congr h.shared hs.raws hs'.raws hquiet
    dsimp only
    rw [hnext]
    cases w.next fts u s'.shared ok with
    | inl w' => exact ⟨h.setPending n _, rfl⟩
    | inr result => exact ⟨h.setPending n none, rfl⟩
  | write w =>
    have hnext : w.next u s.shared ok = w.next u s'.shared ok :=
      WriteCall.next_congr h.shared (fun r hr => hs.get_eq_none ⟨p, hp, by rw [hwork, hr]⟩)
        fun r hr => hs'.get_eq_none ⟨p, hp', by rw [hwork, hr]⟩
    have howner : ∀ e ∈ (w.next u s'.shared ok).2, e.owner = .personal u :=
      WriteCall.next_owner fun r hr => hs.owner ⟨p, hp, by rw [hwork, hr]⟩
    dsimp only
    rw [hnext]
    obtain ⟨⟨r, effects⟩, hr⟩ : ∃ x, w.next u s'.shared ok = x := ⟨_, rfl⟩
    rw [hr] at howner
    rw [hr]
    have hview : EndpointView u { s with shared := effects.foldl Shared.effect s.shared }
        { s' with shared := effects.foldl Shared.effect s'.shared } :=
      ⟨h.shared.effects howner, h.secs, h.buckets, h.pending⟩
    cases r with
    | inl w' => exact ⟨hview.setPending n _, rfl⟩
    | inr result => exact ⟨hview.setPending n none, rfl⟩

/-- What concerns a user is the same to them where the same is seen. -/
theorem view_seen {fts : Fts} {u : String} {s s' : Endpoint} {e : EndpointEvent}
    {es es' : List EndpointEvent} (hs : Fresh (e :: es) s) (hs' : Fresh (e :: es') s')
    (hquiet : Quiet u (e :: es) s) (h : EndpointView u s s') (hc : e.concerns u = true) :
    EndpointView u (s.step fts e).1 (s'.step fts e).1 ∧ (s.step fts e).2 = (s'.step fts e).2 := by
  cases e with
  | call userId n rpcId params ulid =>
    obtain rfl : userId = u := of_decide_eq_true hc
    rw [Endpoint.step, Endpoint.step, h.pending]
    split
    · exact ⟨h, rfl⟩
    · exact call_seen h n rpcId params ulid
  | go userId n ok =>
    obtain rfl : userId = u := of_decide_eq_true hc
    rw [Endpoint.step, Endpoint.step, h.pending]
    split
    · next p hp =>
      have hp' : s.pending (userId, n) = some p := (h.pending n).trans hp
      exact go_seen h hs hs' hp' hp (hquiet.pending hp')
    · exact ⟨h, rfl⟩
  | deleteMe userId =>
    obtain rfl : userId = u := of_decide_eq_true hc
    have hview : SharedView userId (s.shared.effect (.deleteUser userId))
        (s'.shared.effect (.deleteUser userId)) := h.shared.effect rfl
    exact ⟨⟨hview, h.secs, h.buckets, h.pending⟩, rfl⟩
  | page key concept content refs t =>
    exact ⟨⟨⟨h.shared.now, h.shared.db.upsertWiki hc, h.shared.slot⟩, h.secs, h.buckets, h.pending⟩,
      rfl⟩
  | slot key entry =>
    obtain rfl : key = .personal u := of_decide_eq_true hc
    refine ⟨⟨⟨h.shared.now, h.shared.db, ?_⟩, h.secs, h.buckets, h.pending⟩, rfl⟩
    show Function.update s.shared.map _ entry _ = Function.update s'.shared.map _ entry _
    rw [Function.update_self, Function.update_self]
  | tick dt secs =>
    refine ⟨⟨⟨?_, h.shared.db, h.shared.slot⟩, ?_, h.buckets, h.pending⟩, rfl⟩
    · rw [Endpoint.step, Endpoint.step, Shared.tick, Shared.tick, h.shared.now]
    · rw [Endpoint.step, Endpoint.step, h.secs]

theorem EndpointView.symm {u : String} {s s' : Endpoint} (h : EndpointView u s s') :
    EndpointView u s' s :=
  ⟨h.shared.symm, h.secs.symm, fun tier => (h.buckets tier).symm, fun n => (h.pending n).symm⟩

/-- The endpoint unwinds: what does not concern the user is not seen, and what does is seen
    alike. -/
theorem unwinds (fts : Fts) (u : String) : Unwinds (Endpoint.step fts) (·.concerns u) (·.isFor u)
    (fun es s => Fresh es s ∧ Quiet u es s) (EndpointView u) where
  symm := EndpointView.symm
  inv_step h := ⟨fresh_step h.1, quiet_step h.2⟩
  unseen h hview hc := view_unseen h.1 hview hc
  seen h h' hview hc :=
    let ⟨hview, hout⟩ := view_seen h.1 h'.1 h.2 hview hc
    ⟨hview, congrArg (List.filter _) hout⟩

/-- The states agree on what the endpoint has of them. -/
structure SameStore (s s' : Shared) : Prop where
  now : s.now = s'.now
  db : s.db = s'.db
  map : s.map = s'.map

/-- The event is one of a worker. -/
def EndpointEvent.OfWorker : EndpointEvent → Prop
  | .page _ _ _ _ _ => True
  | .slot _ _ => True
  | _ => False

/-- An operation of a worker writes a page, or nothing that the endpoint has. -/
theorem Op.Writes.events {o : Op} {s s' : Shared} (h : o.Writes s s') :
    SameStore s' s ∨ ∃ key concept content refs t, s' = s.upsertWiki key concept content refs t := by
  cases h with
  | wikiUpsert => exact .inr ⟨_, _, _, _, _, rfl⟩
  | _ => exact .inl ⟨rfl, rfl, rfl⟩

/-- A step of a worker is, to the endpoint, a page written, an entry changed, or nothing. -/
theorem Worker.Moves.events {fts : Fts} {e : Event} {w : Worker} {s s' : Shared} {p : Phase}
    (h : w.Moves fts e s p s') : ∃ es : List EndpointEvent, (∀ e ∈ es, e.OfWorker) ∧
      ∀ t : Endpoint, SameStore t.shared s → SameStore (run (Endpoint.step fts) t es).1.shared s' := by
  have hnothing : SameStore s' s → ∃ es : List EndpointEvent, (∀ e ∈ es, e.OfWorker) ∧
      ∀ t : Endpoint, SameStore t.shared s →
        SameStore (run (Endpoint.step fts) t es).1.shared s' := fun hs =>
    ⟨[], fun _ he => (nomatch he), fun t ht =>
      ⟨ht.now.trans hs.now.symm, ht.db.trans hs.db.symm, ht.map.trans hs.map.symm⟩⟩
  have hslot : ∀ key x, s'.now = s.now → s'.db = s.db → s'.map = Function.update s.map key x →
      ∃ es : List EndpointEvent, (∀ e ∈ es, e.OfWorker) ∧ ∀ t : Endpoint, SameStore t.shared s →
        SameStore (run (Endpoint.step fts) t es).1.shared s' := fun key x hnow hdb hmap =>
    ⟨[.slot key x], fun e he => by rw [List.mem_singleton.1 he]; trivial, fun t ht => by
      have hupdate : Function.update t.shared.map key x = s'.map := by rw [ht.map, hmap]
      exact ⟨ht.now.trans hnow.symm, ht.db.trans hdb.symm, hupdate⟩⟩
  cases h with
  | spawn hp => exact hnothing ⟨rfl, rfl, rfl⟩
  | again hp => exact hnothing ⟨rfl, rfl, rfl⟩
  | err hp => exact hnothing ⟨rfl, rfl, rfl⟩
  | abort hp hr he => exact hnothing ⟨rfl, rfl, rfl⟩
  | observe hp => exact hnothing ⟨rfl, rfl, rfl⟩
  | release hp =>
    rename_i r
    cases r with
    | ok => exact hnothing ⟨rfl, rfl, rfl⟩
    | _ => exact hslot w.key _ rfl rfl rfl
  | proceed hp hm =>
    obtain ⟨e', rfl, -⟩ := Shared.markIdleOrContinue_some hm
    exact hslot w.key _ rfl rfl rfl
  | idle hp hm =>
    obtain ⟨-, -, rfl⟩ := Shared.markIdleOrContinue_none hm
    exact hslot w.key _ rfl rfl rfl
  | thread hp he hstep =>
    rcases Effects.Thread.step_state hstep with rfl | ⟨o, r, -, hr⟩
    · exact hnothing ⟨rfl, rfl, rfl⟩
    · rcases perform_state hr with rfl | hw
      · exact hnothing ⟨rfl, rfl, rfl⟩
      · rcases hw.events with hsame | ⟨key, concept, content, refs, t, rfl⟩
        · exact hnothing hsame
        · refine ⟨[.page key concept content refs t],
            fun e he => by rw [List.mem_singleton.1 he]; trivial, fun t' ht => ⟨ht.now, ?_, ht.map⟩⟩
          show Wikis.upsert t'.shared.db key concept content refs t = _
          rw [ht.db]
          rfl

/-! ## A run -/

/-- The endpoint when no call is in flight. -/
def Endpoint.idle (db : Db) : Endpoint where
  shared := { now := 1, db := db }
  secs := 0
  buckets := RateLimiter.new
  pending := fun _ => none

/-- An endpoint without calls in flight has fresh ids. -/
theorem fresh_idle {db : Db} {es : List EndpointEvent} (hraws : (db.raws.map (·.id)).Nodup)
    (hdraws : (draws es).Nodup) (hunused : ∀ id ∈ draws es, ∀ r ∈ db.raws, r.id ≠ id) :
    Fresh es (.idle db) :=
  ⟨hraws, hdraws, hunused, fun ⟨_, hp, _⟩ => (nomatch hp), fun ⟨_, hp, _⟩ => (nomatch hp),
    fun ⟨_, hp, _⟩ => (nomatch hp), fun ⟨_, hp, _⟩ => (nomatch hp)⟩

theorem quiet_idle {u : String} {db : Db} {es : List EndpointEvent}
    (h : ∀ e ∈ es, e.searches u = false) : Quiet u es (.idle db) :=
  ⟨h, fun hp => nomatch hp⟩

/-- The user `u` exports, while a raw of `v` is appended between the queries. -/
def exportWhileAppending : List EndpointEvent :=
  [.call "v" 0 (some (.int 0)) (.object [("name", .str "raw_append"), ("arguments", .object
      [("title", .str "x"), ("content", .str "x"), ("source", .str "manual")])]) "new",
    .call "u" 0 (some (.int 1)) (.object [("name", .str "export")]) "unused",
    .go "u" 0 true, .go "v" 0 true, .go "u" 0 true, .go "u" 0 true, .go "v" 0 true,
    .go "u" 0 true]

end LlmMemory
