import LlmMemory.System.Contract

/-!
# The deletion of an account

Once the account of a user is deleted, none of the personal rows of the user
should remain (`NoRows`). The deletion is a single transaction, and a request is
only let in while the user exists; but the requests and the worker in flight
at that time go on to write. So the deletion is final exactly as long as they
write while the user still exists (`WritesAlive`).
-/

namespace LlmMemory

open Effects Runs

/-- The database has no personal rows of the user. -/
structure NoRows (u : String) (db : Db) : Prop where
  raws : ∀ r ∈ db.raws, r.key ≠ .personal u
  wikis : ∀ w ∈ db.wikis, w.key ≠ .personal u
  schemas : ∀ c ∈ db.schemas, c.key ≠ .personal u

/-- The owner of the row that an effect writes. -/
def Effect.writesTo : Effect → Option OwnerKey
  | .insertRaw r => some r.key
  | .upsertSchema key _ _ => some key
  | _ => none

/-- The owner of the page that an operation writes, unless it fails. -/
def Op.writesTo : Op → Input → Option OwnerKey
  | .wikiUpsert key _ _ _ _, .ok => some key
  | _, _ => none

/-- The owners of the rows that a step writes. -/
def Sys.writesTo (s : Sys) (l : Step) : List OwnerKey :=
  match l.event with
  | .worker i m input =>
    match s.workers[i]? with
    | some ⟨_, .running th⟩ => ((th.nextOp m).bind (·.writesTo input)).toList
    | _ => []
  | e => match (s.tick l.dt).effects e with
    | some (es, _) => es.filterMap (·.writesTo)
    | none => []

/-- A row of the user is only written while the user exists. -/
def WritesAlive (u : String) (s : Sys) (l : Step) : Prop :=
  .personal u ∈ s.writesTo l → (Users.findById s.shared.db u).isSome

instance {u : String} {s : Sys} {l : Step} : Decidable (WritesAlive u s l) :=
  inferInstanceAs (Decidable (_ → _))

/-- What a step writes to, from its effects. -/
theorem Sys.writesTo_effects {s : Sys} {l : Step} {es : List Effect} {calls : List Call}
    (h : (s.tick l.dt).effects l.event = some (es, calls)) :
    s.writesTo l = es.filterMap (·.writesTo) := by
  obtain ⟨dt, e⟩ := l
  cases e with
  | worker i m input => cases h
  | request u req => simp only [Sys.writesTo, h]
  | call i id ok => simp only [Sys.writesTo, h]
  | rawAppend u a id => simp only [Sys.writesTo, h]
  | panic i => cases h
  | cancel i => cases h

namespace Deletion

variable {fts : Fts} {u : String} {s s' : Sys}

/-- What every run keeps: once deleted, the user is gone, with all rows. -/
def Kept (u : String) (s : Shared) : Prop :=
  u ∈ s.hist.deleted → Users.findById s.db u = none ∧ NoRows u s.db

/-- A user who is not there is not there after a deletion. -/
theorem findById_deleteCascade {db : Db} {u' : String} (h : Users.findById db u = none) :
    Users.findById (Users.deleteCascade db u') u = none := by
  simp only [Users.findById, List.find?_eq_none, decide_eq_true_eq] at h ⊢
  exact fun x hx => h x (List.mem_of_mem_filter hx)

/-- A user who is deleted is not there. -/
theorem findById_deleteCascade_self {db : Db} :
    Users.findById (Users.deleteCascade db u) u = none := by
  simp [Users.findById, Users.deleteCascade, List.find?_eq_none]

/-- Where a user has no rows, a deletion leaves none. -/
theorem noRows_deleteCascade {db : Db} {u' : String} (h : NoRows u db) :
    NoRows u (Users.deleteCascade db u') :=
  ⟨fun r hr => h.raws r (List.mem_of_mem_filter hr),
    fun w hw => h.wikis w (List.mem_of_mem_filter hw),
    fun c hc => h.schemas c (List.mem_of_mem_filter hc)⟩

/-- A deletion leaves no rows of its user. -/
theorem noRows_deleteCascade_self {db : Db} : NoRows u (Users.deleteCascade db u) :=
  ⟨fun _ hr => of_decide_eq_true (List.mem_filter.1 hr).2,
    fun _ hw => of_decide_eq_true (List.mem_filter.1 hw).2,
    fun _ hc => of_decide_eq_true (List.mem_filter.1 hc).2⟩

/-- A request for a rebuild leaves the tables. -/
theorem tryStart_db {s : Shared} {key : OwnerKey} {mode : RebuildMode} :
    (s.tryStart key mode).2.db = s.db ∧ (s.tryStart key mode).2.hist.deleted = s.hist.deleted := by
  unfold Shared.tryStart
  split <;> exact ⟨rfl, rfl⟩

/-- An effect that writes no row of the user, once deleted. -/
theorem kept_effect (h : Kept u s.shared) {e : Effect}
    (hw : u ∈ s.shared.hist.deleted → e.writesTo ≠ some (.personal u)) :
    Kept u (s.effect e).shared := by
  cases e with
  | insertRaw r =>
    intro hdel
    obtain ⟨hu, hn⟩ := h hdel
    refine ⟨hu, fun r' hr' => ?_, hn.wikis, hn.schemas⟩
    rcases List.mem_append.1 hr' with hr' | hr'
    · exact hn.raws r' hr'
    · rw [List.mem_singleton.1 hr']
      exact fun hk => hw hdel (congrArg some hk)
  | upsertSchema key content now =>
    intro hdel
    obtain ⟨hu, hn⟩ := h hdel
    refine ⟨hu, hn.raws, hn.wikis, fun c hc => ?_⟩
    rcases Rows.mem_or_eq_of_mem_upsert hc with rfl | hc
    · exact fun hk => hw hdel (congrArg some hk)
    · exact hn.schemas c hc
  | tryStart key mode =>
    intro hdel
    rw [Sys.effect_tryStart_shared] at hdel ⊢
    rw [tryStart_db.1]
    exact h (tryStart_db.2 ▸ hdel)
  | deleteUser u' =>
    intro hdel
    by_cases hu' : u' = u
    · subst hu'
      exact ⟨findById_deleteCascade_self, noRows_deleteCascade_self⟩
    -- another user is deleted, of whom no row is in question
    · have hdel' : u ∈ s.shared.hist.deleted :=
        (List.mem_append.1 hdel).resolve_right fun h => hu' (List.mem_singleton.1 h).symm
      obtain ⟨hu, hn⟩ := h hdel'
      exact ⟨findById_deleteCascade hu, noRows_deleteCascade hn⟩

/-- The effects of an event that writes no row of the user, once deleted. -/
theorem kept_effects (h : Kept u s.shared) {e : Event} {es : List Effect} {calls : List Call}
    (he : s.effects e = some (es, calls))
    (hw : u ∈ s.shared.hist.deleted → ∀ e ∈ es, e.writesTo ≠ some (.personal u)) :
    Kept u (es.foldl Sys.effect { s with calls := calls }).shared := by
  rcases Sys.effects_cases he with rfl | ⟨x, rfl, _, _⟩ | ⟨_, _, _, r, _, _, _, rfl⟩
  · exact h
  · exact kept_effect (s := { s with calls := calls }) h fun hdel => hw hdel x (.head _)
  · have hins : Kept u (({ s with calls := calls } : Sys).effect (.insertRaw r)).shared :=
      kept_effect (s := { s with calls := calls }) h fun hdel => hw hdel _ (.head _)
    exact kept_effect (e := .tryStart _ _) hins fun _ => by simp [Effect.writesTo]

/-- An operation that writes no page of the user, once deleted. -/
theorem kept_perform {sh sh' : Shared} (h : Kept u sh) {input : Input} {o : Op} {r : o.Ans}
    (hp : perform fts input o sh = some (r, sh'))
    (hw : u ∈ sh.hist.deleted → o.writesTo input ≠ some (.personal u)) : Kept u sh' := by
  rcases perform_state hp with rfl | hwrites
  · exact h
  · cases hwrites with
    | startSession => exact h
    | listSince _ => exact h
    | built => exact h
    | prompt => exact h
    | extracted => exact h
    | wikiUpsert =>
      cases input with
      | ok =>
        intro hdel
        obtain ⟨hu, hn⟩ := h hdel
        refine ⟨hu, hn.raws, fun w hmem => ?_, hn.schemas⟩
        rcases Rows.mem_or_eq_of_mem_upsert hmem with rfl | hmem
        · exact fun hk => hw hdel (congrArg some hk)
        · exact hn.wikis w hmem
      | fail => exact (Prod.mk.inj (Option.some.inj hp)).2 ▸ h
      | affected a => cases hp
      | synth w => cases hp

/-- A move of a worker that writes no page of the user, once deleted. -/
theorem kept_moves {sh : Shared} (h : Kept u s.shared) {i : ℕ} {w : Worker} {p : Phase} {l : Step}
    (hl : l.event.worker? = some i) (hi : s.workers[i]? = some w)
    (hm : w.Moves fts l.event (s.shared.tick l.dt) p sh)
    (hw : u ∈ s.shared.hist.deleted → .personal u ∉ s.writesTo l) : Kept u sh := by
  cases hm with
  | spawn _ => exact h
  | @thread th th' m input _ hp he ht =>
    obtain ⟨j, he⟩ := he
    obtain rfl : j = i := by rw [he] at hl; exact Option.some.inj hl
    rcases Thread.step_state ht with rfl | ⟨o, r, ho, hr⟩
    · exact h
    · have htick : Kept u (s.shared.tick l.dt) := h
      refine kept_perform htick hr fun hdel hk => hw hdel ?_
      obtain ⟨key, phase⟩ := w
      obtain rfl : phase = .running th := hp
      simp [Sys.writesTo, he, hi, ho, hk]
  | again _ => exact h
  | proceed _ hmark =>
    obtain ⟨e', rfl, _⟩ := Shared.markIdleOrContinue_some hmark
    exact h
  | idle _ hmark =>
    obtain ⟨_, _, rfl⟩ := Shared.markIdleOrContinue_none hmark
    exact h
  | err _ => exact h
  | abort _ _ _ => exact h
  | observe _ => exact h
  | @release r _ => cases r <;> exact h

/-- A step that writes no row of the user, once deleted. -/
theorem kept_step {l : Step} (h : Kept u s.shared) (hst : s.step fts l = some s')
    (hw : u ∈ s.shared.hist.deleted → .personal u ∉ s.writesTo l) : Kept u s'.shared := by
  rcases Sys.step_cases hst with ⟨es, calls, he, rfl⟩ | ⟨i, w, p, sh, hl, hi, hm, rfl⟩
  · refine kept_effects (s := s.tick l.dt) h he fun hdel e hmem hk => hw hdel ?_
    rw [Sys.writesTo_effects he]
    exact List.mem_filterMap.2 ⟨e, hmem, hk⟩
  · exact kept_moves h hl hi hm hw

/-- A deletion stays recorded. -/
theorem deleted_step {l : Step} (h : u ∈ s.shared.hist.deleted) (hst : s.step fts l = some s') :
    u ∈ s'.shared.hist.deleted := by
  rcases Sys.step_cases hst with ⟨es, calls, _, rfl⟩ | ⟨i, w, p, sh, _, _, hm, rfl⟩
  · have hfold : ∀ (es : List Effect) (s : Sys), u ∈ s.shared.hist.deleted →
        u ∈ (es.foldl Sys.effect s).shared.hist.deleted := fun es => by
      induction es with
      | nil => exact fun _ h => h
      | cons e es ih =>
        refine fun s h => ih _ ?_
        cases e with
        | insertRaw r => exact h
        | tryStart key mode => rw [Sys.effect_tryStart_shared, tryStart_db.2]; exact h
        | upsertSchema key content now => exact h
        | deleteUser u' => exact List.mem_append_left _ h
    exact hfold es _ h
  · cases hm with
    | thread _ _ ht =>
      rcases Thread.step_state ht with rfl | ⟨o, r, _, hr⟩
      · exact h
      · rcases perform_state hr with rfl | hw
        · exact h
        · cases hw <;> exact h
    | proceed _ hmark =>
      obtain ⟨e', rfl, _⟩ := Shared.markIdleOrContinue_some hmark
      exact h
    | idle _ hmark =>
      obtain ⟨_, _, rfl⟩ := Shared.markIdleOrContinue_none hmark
      exact h
    | @release r _ => cases r <;> exact h
    | spawn _ | again _ | err _ | abort _ _ _ | observe _ => exact h

/-- The effects of an event that writes a row of the user leave it there. -/
theorem effects_written {e : Event} {es : List Effect} {calls : List Call}
    (he : s.effects e = some (es, calls)) (hw : .personal u ∈ es.filterMap (·.writesTo)) :
    ¬ NoRows u (es.foldl Sys.effect { s with calls := calls }).shared.db := by
  intro hn
  obtain ⟨x, hx, hk⟩ := List.mem_filterMap.1 hw
  rcases Sys.effects_cases he with rfl | ⟨y, rfl, _, _⟩ | ⟨_, _, _, r, _, _, _, rfl⟩
  · cases hx
  · obtain rfl := List.mem_singleton.1 hx
    cases x with
    | insertRaw r =>
      exact hn.raws r (List.mem_append_right _ (List.mem_singleton_self r)) (Option.some.inj hk)
    | tryStart key mode => cases hk
    | upsertSchema key content now =>
      exact hn.schemas _ Rows.mem_upsert_self (Option.some.inj hk)
    | deleteUser u' => cases hk
  · have hr : r.key = .personal u := by
      rcases List.mem_cons.1 hx with rfl | hx
      · exact Option.some.inj hk
      · obtain rfl := List.mem_singleton.1 hx
        cases hk
    refine hn.raws r ?_ hr
    rw [List.foldl_cons, List.foldl_cons, List.foldl_nil, Sys.effect_tryStart_shared, tryStart_db.1]
    exact List.mem_append_right _ (List.mem_singleton_self r)

/-- A worker that writes a page of the user leaves it there. -/
theorem moves_written {sh : Shared} {i : ℕ} {w : Worker} {p : Phase} {l : Step}
    (hl : l.event.worker? = some i) (hi : s.workers[i]? = some w)
    (hm : w.Moves fts l.event (s.shared.tick l.dt) p sh) (hw : .personal u ∈ s.writesTo l) :
    ¬ NoRows u sh.db := by
  intro hn
  obtain ⟨dt, e⟩ := l
  cases e with
  | worker j m input =>
    obtain rfl : j = i := Option.some.inj hl
    simp only [Sys.writesTo, hi] at hw
    split at hw
    · rename_i key th hrun
      obtain rfl : w = ⟨key, .running th⟩ := Option.some.inj hrun
      obtain ⟨o, ho, hk⟩ := Option.bind_eq_some_iff.1 (Option.mem_toList.1 hw)
      cases hm with
      -- of the operations only the upsert of a page writes a row
      | @thread _ th' m' input' _ hp he ht =>
        cases hp
        obtain ⟨_, he⟩ := he
        cases he
        obtain ⟨r, hr⟩ := Thread.step_of_nextOp ho ht
        simp only [Op.writesTo] at hk
        split at hk
        · cases hr
          cases hk
          exact hn.wikis _ Rows.mem_upsert_self rfl
        · cases hk
      | spawn hp => cases hp
      | again hp => cases hp; simp [Thread.nextOp_ret] at ho
      | proceed hp _ => cases hp; simp [Thread.nextOp_ret] at ho
      | idle hp _ => cases hp; simp [Thread.nextOp_ret] at ho
      | err hp => cases hp; simp [Thread.nextOp_ret] at ho
      | abort _ _ he =>
        obtain ⟨_, he | he⟩ := he <;> cases he
      | observe hp => cases hp
      | release hp => cases hp
    · cases hw
  | request u' req => cases hl
  | call j id ok => cases hl
  | rawAppend u' a id => cases hl
  | panic j => simp [Sys.writesTo, Sys.effects] at hw
  | cancel j => simp [Sys.writesTo, Sys.effects] at hw

end Deletion

/-- In every run where the rows of the user are only written while the user
    exists, no row of the user remains once the account is deleted. After that
    a step that writes one leaves it there. -/
theorem deletion_final {fts : Fts} {u : String} {s : Sys}
    (h : Reach (fun s => Boot s ∧ u ∉ s.shared.hist.deleted) (Sys.step fts) (WritesAlive u) s)
    (hdel : u ∈ s.shared.hist.deleted) :
    NoRows u s.shared.db ∧
      ∀ l s', s.step fts l = some s' → (NoRows u s'.shared.db ↔ WritesAlive u s l) := by
  have hkept : Deletion.Kept u s.shared := h.invariant (P := fun s => Deletion.Kept u s.shared)
    (fun s hs hdel => absurd hdel hs.2) fun s l s' _ hP hok hst =>
      Deletion.kept_step hP hst fun hdel hw => by simpa [(hP hdel).1] using hok hw
  obtain ⟨hu, hn⟩ := hkept hdel
  have halive : ∀ l, WritesAlive u s l ↔ .personal u ∉ s.writesTo l := fun l => by
    simp [WritesAlive, hu]
  refine ⟨hn, fun l s' hst => ?_⟩
  rw [halive]
  refine ⟨fun hn' hw => ?_, fun hw => ?_⟩
  · rcases Sys.step_cases hst with ⟨es, calls, he, rfl⟩ | ⟨i, w, p, sh, hl, hi, hm, rfl⟩
    · exact Deletion.effects_written he (Sys.writesTo_effects he ▸ hw) hn'
    · exact Deletion.moves_written hl hi hm hw hn'
  · exact ((Deletion.kept_step hkept hst fun _ => hw) (Deletion.deleted_step hdel hst)).2

instance {u : String} {db : Db} : Decidable (NoRows u db) :=
  decidable_of_iff ((∀ r ∈ db.raws, r.key ≠ .personal u) ∧ (∀ w ∈ db.wikis, w.key ≠ .personal u) ∧
    ∀ c ∈ db.schemas, c.key ≠ .personal u) ⟨fun h => ⟨h.1, h.2.1, h.2.2⟩, fun h => ⟨h.1, h.2, h.3⟩⟩

theorem deletion_final_after_rebuild : ∃ s : Sys, s.shared.hist.written.length = 1 ∧
    NoRows "u" s.shared.db ∧ ∀ l s', s.step Fts.nothing l = some s' →
      (NoRows "u" s'.shared.db ↔ WritesAlive "u" s l) := by
  obtain ⟨s, hs, h⟩ : ∃ s, exec (Sys.step Fts.nothing) (fun s l => WritesAlive "u" s l)
      (.fresh "u" 1) (firstRebuild ++ [⟨1, .request "u" .deleteMe⟩, ⟨1, .call 0 "" true⟩]) = some s ∧
      decide (s.shared.hist.written.length = 1 ∧ s.shared.hist.deleted = ["u"]) = true :=
    Option.map_eq_some_iff.1 (by decide)
  obtain ⟨hw, hdel⟩ := of_decide_eq_true h
  exact ⟨s, hw, deletion_final (.exec (fun _ _ => of_decide_eq_true)
    (.init ⟨Sys.fresh_boot _ _, List.not_mem_nil⟩) hs) (hdel ▸ List.mem_singleton_self "u")⟩

/-- A run where the account is deleted before a worker writes the page it
    synthesized, and before a raw stamped is inserted. -/
def lateWritesRun : List Step :=
  firstRebuild.dropLast ++
  ([.request "u" (.rawAppend ⟨"title", "content", "manual", none⟩), .call 0 "r2" true,
    .request "u" .deleteMe, .call 1 "" true, .call 0 "" true,
    .worker 0 (.task 0) .ok].map fun e => ⟨1, e⟩)

/-- The page and the raw remain. -/
theorem late_writes_remain : ¬ ∀ s, Reach (fun s => Boot s ∧ "u" ∉ s.shared.hist.deleted)
    (Sys.step Fts.nothing) (fun _ _ => True) s →
    "u" ∈ s.shared.hist.deleted → NoRows "u" s.shared.db := by
  intro hall
  obtain ⟨s, hs, h⟩ : ∃ s, exec (Sys.step Fts.nothing) (fun _ _ => true) (.fresh "u" 1)
      lateWritesRun = some s ∧
      decide ("u" ∈ s.shared.hist.deleted ∧ ¬ NoRows "u" s.shared.db) = true :=
    Option.map_eq_some_iff.1 (by decide)
  obtain ⟨hdel, hn⟩ := of_decide_eq_true h
  exact hn (hall s (.exec (fun _ _ _ => trivial)
    (.init ⟨Sys.fresh_boot _ _, List.not_mem_nil⟩) hs) hdel)

end LlmMemory
