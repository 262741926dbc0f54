import LlmMemory.Vegapunk.Guard

/-!
# Ownership of ids

The table `tool_ownership` says who may ask about an id: the first user who recorded
it (`firstRecorder`), however the calls interleave, and whatever statements fail
(`ownership_first`). The owner of an id never changes, and requests by an id alone
are made for its owner only.
-/

namespace LlmMemory.Vegapunk

open Effects Runs Serving

/-! ## The table -/

section Table

variable {users : List String} {rows rows' new : List OwnershipRow} {row : OwnershipRow}
  {kind : OwnershipKind} {foreignId : String}

theorem ownerOf_append : ownerOf (rows ++ new) kind foreignId =
    (ownerOf rows kind foreignId).or (ownerOf new kind foreignId) := by
  rw [ownerOf, List.find?_append, Option.map_or, ownerOf, ownerOf]

theorem ownerOf_cons : ownerOf (row :: rows) kind foreignId =
    (ownerOf [row] kind foreignId).or (ownerOf rows kind foreignId) :=
  @ownerOf_append [row] rows kind foreignId

/-- An id that a row is about has an owner. -/
theorem ownerOf_isSome (h : row ∈ rows) : (ownerOf rows row.kind row.foreignId).isSome := by
  rw [ownerOf, Option.isSome_map, List.find?_isSome]
  exact ⟨row, h, decide_eq_true ⟨rfl, rfl⟩⟩

theorem ownerOf_singleton (h : ¬(row.kind = kind ∧ row.foreignId = foreignId)) :
    ownerOf [row] kind foreignId = none := by
  rw [ownerOf, List.find?_singleton, if_neg (by simpa using h), Option.map_none]

/-- An insert gives an id that has no owner the one of the row. -/
theorem ownerOf_insertOrIgnore {b : Bool} (h : insertOrIgnore users rows row = some (b, rows')) :
    ownerOf rows' kind foreignId =
      (ownerOf rows kind foreignId).or (ownerOf [row] kind foreignId) := by
  rw [insertOrIgnore] at h
  split at h
  · next hsome =>
    cases h
    by_cases hrow : row.kind = kind ∧ row.foreignId = foreignId
    · obtain ⟨rfl, rfl⟩ := hrow
      rw [Option.or_of_isSome hsome]
    · rw [ownerOf_singleton hrow, Option.or_none]
  · split at h
    · cases h
      exact ownerOf_append
    · cases h

/-- All new rows are inserted, the owners there first. -/
theorem ownerOf_insertAll (h : insertAll users rows new = some rows') :
    ownerOf rows' kind foreignId =
      (ownerOf rows kind foreignId).or (ownerOf new kind foreignId) := by
  induction new generalizing rows with
  | nil =>
    cases h
    exact Option.or_none.symm
  | cons row new ih =>
    obtain ⟨⟨b, rows₁⟩, hrow, h⟩ := Option.bind_eq_some_iff.1 h
    calc ownerOf rows' kind foreignId
        = (ownerOf rows₁ kind foreignId).or (ownerOf new kind foreignId) := ih h
      _ = ((ownerOf rows kind foreignId).or (ownerOf [row] kind foreignId)).or
            (ownerOf new kind foreignId) := by rw [ownerOf_insertOrIgnore hrow]
      _ = (ownerOf rows kind foreignId).or (ownerOf (row :: new) kind foreignId) := by
        rw [Option.or_assoc, ← ownerOf_cons]

/-- After an insert, the id has an owner. -/
theorem isSome_insertOrIgnore {b : Bool} (h : insertOrIgnore users rows row = some (b, rows')) :
    (ownerOf rows' row.kind row.foreignId).isSome := by
  rw [ownerOf_insertOrIgnore h, Option.isSome_or, ownerOf_isSome (List.mem_singleton_self row),
    Bool.or_true]

theorem isSome_insertAll (h : insertAll users rows new = some rows') (hmem : row ∈ new) :
    (ownerOf rows' row.kind row.foreignId).isSome := by
  rw [ownerOf_insertAll h, Option.isSome_or, ownerOf_isSome hmem, Bool.or_true]

/-- A row that was inserted is of the owner. -/
theorem ownerOf_inserted (h : insertOrIgnore users rows row = some (true, rows')) :
    ownerOf rows' row.kind row.foreignId = some row.userId := by
  rw [ownerOf_insertOrIgnore h]
  rw [insertOrIgnore] at h
  split at h
  · cases h
  · next hnone =>
    rw [Option.not_isSome_iff_eq_none.1 hnone, Option.none_or]
    simp [ownerOf]

end Table

/-! ## First recorders -/

/-- The user for whom an event records the id. -/
def recorder (kind : OwnershipKind) (foreignId : String) : Done → Option String
  | .did _ _ (.insertOwner row) (.ok _) => ownerOf [row] kind foreignId
  | .did _ _ (.insertOwners rows) (.ok _) => ownerOf rows kind foreignId
  | _ => none

/-- The first user who recorded the id: its owner at the start, or else the one of
    the first statement on it that was committed. -/
def firstRecorder (rows : List OwnershipRow) (t : List Done) (kind : OwnershipKind)
    (foreignId : String) : Option String :=
  (ownerOf rows kind foreignId).or (t.findSome? (recorder kind foreignId))

section Recorders

variable {rows : List OwnershipRow} {t t' : List Done} {e : Done} {kind : OwnershipKind}
  {foreignId u : String}

theorem firstRecorder_nil : firstRecorder rows [] kind foreignId = ownerOf rows kind foreignId :=
  Option.or_none

theorem firstRecorder_concat : firstRecorder rows (t ++ [e]) kind foreignId =
    (firstRecorder rows t kind foreignId).or (recorder kind foreignId e) := by
  rw [firstRecorder, List.findSome?_append, ← Option.or_assoc, ← firstRecorder]
  congr 1
  rw [List.findSome?_singleton]

/-- The first recorder stays the same. -/
theorem firstRecorder_mono (h : firstRecorder rows t kind foreignId = some u) (ht : t <+: t') :
    firstRecorder rows t' kind foreignId = some u := by
  obtain ⟨t₂, rfl⟩ := ht
  rw [firstRecorder, List.findSome?_append, ← Option.or_assoc, ← firstRecorder, h, Option.some_or]

end Recorders

/-! ## Statements -/

section Statements

variable {n m : ℕ} {req : Request} {input : Input} {s : State} {kind : OwnershipKind}
  {foreignId : String}

theorem recorder_eq_none {o : Op} {r : o.Ans} (hone : ∀ row, o = .insertOwner row → False)
    (hmany : ∀ rows, o = .insertOwners rows → False) :
    recorder kind foreignId (.did m req o r) = none := by
  cases o with
  | insertOwner row => exact (hone row rfl).elim
  | insertOwners rows => exact (hmany rows rfl).elim
  | _ => rfl

/-- An operation changes the owners as its event records. -/
theorem perform_owner {o : Op} {x : o.Ans × State} (h : perform n input o s = some x) :
    ownerOf x.2.ownership kind foreignId =
      (ownerOf s.ownership kind foreignId).or (recorder kind foreignId (.did m req o x.1)) := by
  -- only the two inserts record an owner, and a failure of theirs records none
  unfold perform at h
  split at h
  · split at h
    · split at h
      · next hins =>
        cases h
        exact ownerOf_insertOrIgnore hins
      · cases h
        exact Option.or_none.symm
    · cases h
      exact Option.or_none.symm
    · cases h
  · split at h
    · split at h
      · next hins =>
        cases h
        exact ownerOf_insertAll hins
      · cases h
        exact Option.or_none.symm
    · cases h
      exact Option.or_none.symm
    · cases h
  · split at h
    · cases h
      exact Option.or_none.symm
    · cases h
      exact Option.or_none.symm
    · cases h
  · cases h
    rw [show recorder _ _ _ = none from rfl, Option.or_none, State.lockFor]
    split <;> rfl
  · split at h
    · cases h
    · cases h
      exact Option.or_none.symm
  · cases h
    exact Option.or_none.symm
  · next hone hmany _ _ _ _ =>
    split at h
    · obtain ⟨a, -, rfl⟩ := Option.map_eq_some_iff.1 h
      rw [recorder_eq_none hone hmany, Option.or_none]
    · cases h

/-- A look-up finds the owner. -/
theorem perform_selectOwner {r : Except StorageError (Option String)} {s' : State}
    (h : perform n input (.selectOwner kind foreignId) s = some (r, s')) :
    s' = s ∧ ∀ owner, r = .ok owner → owner = ownerOf s.ownership kind foreignId := by
  cases input with
  | ok =>
    cases h
    refine ⟨rfl, fun owner ho => ?_⟩
    cases ho
    rfl
  | fail =>
    cases h
    refine ⟨rfl, fun owner ho => ?_⟩
    cases ho
  | answer f => cases h

/-- A statement on one row that is committed. -/
theorem perform_insertOwner {row : OwnershipRow} {b : Bool} {s' : State}
    (h : perform n input (.insertOwner row) s = some (.ok b, s')) :
    insertOrIgnore s.users s.ownership row = some (b, s'.ownership) := by
  cases input with
  | ok =>
    simp only [perform] at h
    split at h
    · next hins =>
      cases h
      exact hins
    · cases h
  | fail => cases h
  | answer f => cases h

/-- A statement on many rows that is committed. -/
theorem perform_insertOwners {new : List OwnershipRow} {r : Unit} {s' : State}
    (h : perform n input (.insertOwners new) s = some (.ok r, s')) :
    insertAll s.users s.ownership new = some s'.ownership := by
  cases input with
  | ok =>
    simp only [perform] at h
    split at h
    · next hins =>
      cases h
      exact hins
    · cases h
  | fail => cases h
  | answer f => cases h

/-- A transaction that fails leaves the table as it was. -/
theorem perform_insertOwners_error {new : List OwnershipRow} {e : StorageError} {s' : State}
    (h : perform n input (.insertOwners new) s = some (.error e, s')) : s' = s := by
  cases input with
  | ok =>
    simp only [perform] at h
    split at h
    · cases h
    · cases h
      rfl
  | fail =>
    cases h
    rfl
  | answer f => cases h

end Statements

/-! ## The protocol -/

/-- Owners stay the same. -/
def OwnersStay (s s' : State) : Prop :=
  ∀ kind foreignId u, ownerOf s.ownership kind foreignId = some u →
    ownerOf s'.ownership kind foreignId = some u

/-- The answer is whether the user is the first recorder of all of the ids, which have
    been recorded if not. -/
def Decides (rows : List OwnershipRow) (l : List Done) (kind : OwnershipKind)
    (foreignIds : List String) (u : String) : Bool → Prop
  | true => ∀ foreignId ∈ foreignIds, firstRecorder rows l kind foreignId = some u
  | false => ∃ foreignId ∈ foreignIds, ∃ u' ≠ u, firstRecorder rows l kind foreignId = some u'

/-- What an event stands on, where `rows` is the table at the start: a look-up finds
    the first recorder; a request by an id alone is for its first recorder; and a
    function on the table answers who that is. -/
def OwnerGrounds (rows : List OwnershipRow) (l : List Done) : Done → Prop
  | .did _ _ (.selectOwner kind foreignId) (.ok owner) =>
    owner = firstRecorder rows l kind foreignId
  | .did _ (.tool user _) (.feedback r) _ =>
    firstRecorder rows l .search r.searchId = some user.userId
  | .did _ (.tool user _) (.getJobStatus msgId) _ =>
    firstRecorder rows l .msg msgId = some user.userId
  | .answered _ (.record kind foreignId userId) (.ok (.flag (.ok b))) =>
    Decides rows l kind [foreignId] userId b
  | .answered _ (.recordMany kind foreignIds userId) (.ok (.flag (.ok b))) =>
    Decides rows l kind foreignIds userId b
  | .answered n (.verify kind foreignId userId) (.ok (.flag (.ok b))) =>
    ∃ owner l₁ l₂, l = l₁ ++ .did n (.verify kind foreignId userId)
        (.selectOwner kind foreignId) (.ok owner) :: l₂ ∧
      (b = true ↔ firstRecorder rows l₁ kind foreignId = some userId)
  | _ => True

/-- The table says who the first recorders are, and the trace is grounded. -/
structure OwnersInv (rows : List OwnershipRow) (c : Conf) : Prop where
  owners : ∀ kind foreignId,
    ownerOf c.state.ownership kind foreignId = firstRecorder rows c.trace kind foreignId
  grounded : Logs.Grounded (OwnerGrounds rows) c.trace

/-- The protocol of the table: owners stay the same. -/
def owning (cfg : Config) (rows : List OwnershipRow) :
    Protocol ToolSig Request (Except Exit Reply) Input World State where
  server := server cfg
  inv := OwnersInv rows
  keeps := OwnersStay

section Handlers

variable {cfg : Config} {rows : List OwnershipRow} {n : ℕ} {req : Request} {input : Input}
  {c : Conf} {s : State}

/-- Whoever does an operation, owners stay, and are the first recorders. -/
theorem owning_evolves {o : Op} {r : o.Ans} (hp : perform n input o c.state = some (r, s))
    (hg : OwnersInv rows c → OwnerGrounds rows c.trace (.did n req o r)) :
    (owning cfg rows).Evolves c (c.next s (.did n req o r)) := by
  have howner : ∀ kind foreignId, ownerOf s.ownership kind foreignId =
      (ownerOf c.state.ownership kind foreignId).or (recorder kind foreignId (.did n req o r)) :=
    fun _ _ => perform_owner hp
  refine ⟨⟨[_], rfl⟩, fun kind foreignId u hu => ?_, fun h => ⟨fun kind foreignId => ?_, ?_⟩⟩
  · rw [Conf.next_state, howner, hu, Option.some_or]
  · rw [Conf.next_state, howner, h.owners, Conf.next_trace, firstRecorder_concat]
  · exact h.grounded.snoc (hg h)

/-- An operation that does not go by an id alone has its grounds. -/
theorem ownerGrounds_of_keyed {o : Op} {r : o.Ans} (ho : o.Keyed)
    (hp : perform n input o c.state = some (r, s)) (h : OwnersInv rows c) :
    OwnerGrounds rows c.trace (.did n req o r) := by
  cases o with
  | selectOwner kind foreignId =>
    cases r with
    | ok owner =>
      have howner := (perform_selectOwner hp).2 owner rfl
      exact howner.trans (h.owners kind foreignId)
    | error e => trivial
  | feedback r => exact ho.elim
  | getJobStatus msgId => exact ho.elim
  | _ => trivial

theorem owning_free {o : Op} (ho : o.Keyed) : (owning cfg rows).Free o :=
  fun _ _ _ _ _ _ _ _ hp => owning_evolves hp (ownerGrounds_of_keyed ho hp)

theorem OwnersStay.trans {s₁ s₂ s₃ : State} (h : OwnersStay s₁ s₂) (h' : OwnersStay s₂ s₃) :
    OwnersStay s₁ s₃ :=
  fun kind foreignId u hu => h' kind foreignId u (h kind foreignId u hu)

/-! ### Facts -/

/-- The owner of the id is `u`. -/
def owns (cfg : Config) (rows : List OwnershipRow) (kind : OwnershipKind) (foreignId u : String) :
    Lasting (owning cfg rows) :=
  ⟨fun c => ownerOf c.state.ownership kind foreignId = some u, fun _ hk h => hk _ _ _ h⟩

/-- The ids have owners. -/
def recorded (cfg : Config) (rows : List OwnershipRow) (kind : OwnershipKind)
    (foreignIds : List String) : Lasting (owning cfg rows) :=
  ⟨fun c => ∀ foreignId ∈ foreignIds, ∃ u, (owns cfg rows kind foreignId u).holds c,
    fun ht hk h foreignId hmem => (h foreignId hmem).imp fun u => (owns _ _ _ _ u).lasts ht hk⟩

/-- A request, for which `P` held, looked up the owner of the id. -/
def lookedUp (P : Lasting (owning cfg rows)) (n : ℕ) (req : Request) (kind : OwnershipKind)
    (foreignId : String) (owner : Option String) : Lasting (owning cfg rows) :=
  ⟨fun c => ∃ c₀ : Conf, Holding (owning cfg rows) P c₀ ∧
      c₀.trace ++ [.did n req (.selectOwner kind foreignId) (.ok owner)] <+: c.trace ∧
      OwnersStay c₀.state c.state ∧ owner = ownerOf c₀.state.ownership kind foreignId,
    fun ht hk h => h.imp fun _ h => ⟨h.1, h.2.1.trans ht, h.2.2.1.trans hk, h.2.2.2⟩⟩

/-- What was answered about the owner of the id stands on a look-up. -/
def verified (P : Lasting (owning cfg rows)) (n : ℕ) (req : Request) (kind : OwnershipKind)
    (foreignId u : String) (x : Except StorageError Bool) : Lasting (owning cfg rows) :=
  ⟨fun c => ∀ b, x = .ok b → ∃ owner, (lookedUp P n req kind foreignId owner).holds c ∧
      b = (owner == some u),
    fun ht hk h b hb => (h b hb).imp fun _ h => ⟨(lookedUp _ _ _ _ _ _).lasts ht hk h.1, h.2⟩⟩

/-- It was answered whether the user owns all of the ids. -/
def decided (cfg : Config) (rows : List OwnershipRow) (kind : OwnershipKind)
    (foreignIds : List String) (u : String) (x : Except StorageError Bool) :
    Lasting (owning cfg rows) :=
  ⟨fun c => (x = .ok true → ∀ foreignId ∈ foreignIds, (owns cfg rows kind foreignId u).holds c) ∧
      (x = .ok false → ∃ foreignId ∈ foreignIds, ∃ u' ≠ u,
        (owns cfg rows kind foreignId u').holds c),
    fun ht hk h => ⟨fun hx id hmem => (owns _ _ _ _ _).lasts ht hk (h.1 hx id hmem), fun hx =>
      (h.2 hx).imp fun _ h => ⟨h.1, h.2.imp fun _ h => ⟨h.1, (owns _ _ _ _ _).lasts ht hk h.2⟩⟩⟩⟩

section Facts

variable {P : Lasting (owning cfg rows)} {kind : OwnershipKind} {foreignId u : String}
  {owner : Option String}

/-- An owner that was found stays the owner. -/
theorem owns_of_lookedUp (h : (lookedUp P n req kind foreignId owner).holds c)
    (hu : owner = some u) : (owns cfg rows kind foreignId u).holds c := by
  obtain ⟨c₀, -, -, hstay, howner⟩ := h
  exact hstay kind foreignId u (howner.symm.trans hu)

/-- It was answered that the user owns the id. -/
theorem owns_of_verified (h : (verified P n req kind foreignId u (.ok true)).holds c) :
    (owns cfg rows kind foreignId u).holds c := by
  obtain ⟨owner, hlook, hb⟩ := h true rfl
  exact owns_of_lookedUp hlook (eq_of_beq hb.symm)

/-- It was answered that the user does not own the id, which has an owner. -/
theorem other_of_verified (h : (verified P n req kind foreignId u (.ok false)).holds c)
    (hP : ∀ c, P.holds c → ∃ u', (owns cfg rows kind foreignId u').holds c) :
    ∃ u' ≠ u, (owns cfg rows kind foreignId u').holds c := by
  obtain ⟨owner, hlook, hb⟩ := h false rfl
  obtain ⟨c₀, hc₀, htrace, hstay, howner⟩ := hlook
  obtain ⟨u', hu'⟩ := hP c₀ hc₀.2
  have hsome : owner = some u' := howner.trans hu'
  refine ⟨u', ?_, hstay kind foreignId u' hu'⟩
  rintro rfl
  rw [hsome, beq_self_eq_true] at hb
  cases hb

theorem decided_true {foreignIds : List String}
    (h : ∀ foreignId ∈ foreignIds, (owns cfg rows kind foreignId u).holds c) :
    (decided cfg rows kind foreignIds u (.ok true)).holds c :=
  ⟨fun _ => h, fun hx => by cases hx⟩

theorem decided_false {foreignIds : List String} {foreignId u' : String}
    (hmem : foreignId ∈ foreignIds) (hne : u' ≠ u)
    (h : (owns cfg rows kind foreignId u').holds c) :
    (decided cfg rows kind foreignIds u (.ok false)).holds c :=
  ⟨fun hx => (by cases hx), fun _ => ⟨foreignId, hmem, u', hne, h⟩⟩

theorem decided_error {foreignIds : List String} {e : StorageError} :
    (decided cfg rows kind foreignIds u (.error e)).holds c :=
  ⟨fun hx => (by cases hx), fun hx => by cases hx⟩

end Facts

/-! ### Functions on the table -/

section Functions

variable {P : Lasting (owning cfg rows)} {kind : OwnershipKind} {foreignId u : String}

theorem perf_keeps {o : Op} (ho : o.Keyed) :
    Obeys (owning cfg rows) n req P (perf o) fun _ => P :=
  Obeys.free (.call (owning_free ho))

/-- `verify` answers by a look-up. -/
theorem verify_obeys : Obeys (owning cfg rows) n req P (verify kind foreignId u) fun x =>
    P.and (verified P n req kind foreignId u x) := by
  refine Obeys.bind (C := fun y : Except StorageError (Option String) => P.and
    ⟨fun c => ∀ owner, y = .ok owner → (lookedUp P n req kind foreignId owner).holds c,
      fun ht hk h owner hy => (lookedUp _ _ _ _ _ _).lasts ht hk (h owner hy)⟩)
    (Obeys.call fun c r s input hc _ hp => ?_) fun y => ?_
  · have hp' : perform n input (.selectOwner kind foreignId) c.state = some (r, s) := hp
    have hev :=
      owning_free (o := .selectOwner kind foreignId) trivial n req input c r s hc.1 trivial hp
    refine ⟨hev, fun y hy => ⟨P.lasts hev.trace hev.keeps hc.2, fun owner ho => ?_⟩⟩
    cases hy
    obtain rfl : r = .ok owner := ho
    exact ⟨c, hc, List.prefix_rfl, hev.keeps, (perform_selectOwner hp').2 owner rfl⟩
  · cases y with
    | ok owner =>
      refine Obeys.pure fun c h => ⟨h.1, fun b hb => ⟨owner, h.2 owner rfl, ?_⟩⟩
      cases hb
      rfl
    | error e => exact Obeys.pure fun c h => ⟨h.1, fun b hb => by cases hb⟩

/-- An insert that was done leaves the id with an owner, the user if it was new. -/
theorem insertOwner_obeys {row : OwnershipRow} : Obeys (owning cfg rows) n req P
    (perf (.insertOwner row)) fun x : Except StorageError Bool =>
      ⟨fun c => (x = .ok true → (owns cfg rows row.kind row.foreignId row.userId).holds c) ∧
          (x = .ok false → ∃ u, (owns cfg rows row.kind row.foreignId u).holds c),
        fun ht hk h => ⟨fun hx => (owns _ _ _ _ _).lasts ht hk (h.1 hx), fun hx =>
          (h.2 hx).imp fun u => (owns _ _ _ _ u).lasts ht hk⟩⟩ := by
  refine Obeys.call fun c r s input hc _ hp => ?_
  have hp' : perform n input (.insertOwner row) c.state = some (r, s) := hp
  refine ⟨owning_free (o := .insertOwner row) trivial n req input c r s hc.1 trivial hp,
    fun x hx => ?_⟩
  cases hx
  refine ⟨fun hr => ?_, fun hr => ?_⟩
  · subst hr
    exact ownerOf_inserted (perform_insertOwner hp')
  · subst hr
    exact Option.isSome_iff_exists.1 (isSome_insertOrIgnore (perform_insertOwner hp'))

/-- A transaction that was committed leaves the ids with owners. -/
theorem insertOwners_obeys {new : List OwnershipRow} : Obeys (owning cfg rows) n req P
    (perf (.insertOwners new)) fun x : Except StorageError Unit =>
      ⟨fun c => x = .ok () → ∀ row ∈ new, ∃ u, (owns cfg rows row.kind row.foreignId u).holds c,
        fun ht hk h hx row hmem => (h hx row hmem).imp fun u =>
          (owns _ _ _ _ u).lasts ht hk⟩ := by
  refine Obeys.call fun c r s input hc _ hp => ?_
  have hp' : perform n input (.insertOwners new) c.state = some (r, s) := hp
  refine ⟨owning_free (o := .insertOwners new) trivial n req input c r s hc.1 trivial hp,
    fun x hx => ?_⟩
  cases hx
  intro hr row hmem
  subst hr
  exact Option.isSome_iff_exists.1 (isSome_insertAll (perform_insertOwners hp') hmem)

/-- `record` answers who the first recorder is. -/
theorem record_obeys : Obeys (owning cfg rows) n req P (record kind foreignId u)
    (decided cfg rows kind [foreignId] u) := by
  refine Obeys.bind (perf_keeps trivial) fun now => Obeys.bind insertOwner_obeys fun x => ?_
  match x with
  | .ok true =>
    refine Obeys.pure fun c h => decided_true fun id hmem => ?_
    rw [List.mem_singleton.1 hmem]
    exact h.1 rfl
  | .ok false =>
    refine Obeys.post verify_obeys fun x c h => ?_
    match x, h with
    | .ok true, h =>
      refine decided_true fun id hmem => ?_
      rw [List.mem_singleton.1 hmem]
      exact owns_of_verified h.2
    | .ok false, h =>
      obtain ⟨u', hne, hu'⟩ := other_of_verified h.2 fun c h => h.2 rfl
      exact decided_false (List.mem_singleton_self _) hne hu'
    | .error e, h => exact decided_error
  | .error e => exact Obeys.pure fun c h => decided_error

/-- The induction is on the ids that are left; those before are of the user. -/
theorem verifyAll_obeys {foreignIds : List String}
    (hP : ∀ c, P.holds c → (recorded cfg rows kind foreignIds).holds c) :
    Obeys (owning cfg rows) n req P (verifyAll kind u foreignIds) fun x =>
      P.and (decided cfg rows kind foreignIds u x) := by
  induction foreignIds generalizing P with
  | nil =>
    exact Obeys.pure fun c h => ⟨h, decided_true fun id hmem => absurd hmem List.not_mem_nil⟩
  | cons id ids ih =>
    refine Obeys.bind verify_obeys fun x => ?_
    match x with
    | .ok true =>
      refine Obeys.post (ih fun c h id' hmem => hP c h.1 id' (List.mem_cons_of_mem _ hmem))
        fun x c h => ⟨h.1.1, fun hx id' hmem => ?_, fun hx => ?_⟩
      · rcases List.mem_cons.1 hmem with rfl | hmem
        · exact owns_of_verified h.1.2
        · exact h.2.1 hx id' hmem
      · obtain ⟨id', hmem, hother⟩ := h.2.2 hx
        exact ⟨id', List.mem_cons_of_mem _ hmem, hother⟩
    | .ok false =>
      refine Obeys.pure fun c h => ⟨h.1, ?_⟩
      obtain ⟨u', hne, hu'⟩ := other_of_verified h.2 fun c h => hP c h id List.mem_cons_self
      exact decided_false List.mem_cons_self hne hu'
    | .error e => exact Obeys.pure fun c h => ⟨h.1, decided_error⟩

theorem recordMany_obeys {foreignIds : List String} :
    Obeys (owning cfg rows) n req P (recordMany kind foreignIds u)
      (decided cfg rows kind foreignIds u) := by
  rw [recordMany]
  split
  · next hnil =>
    refine Obeys.pure fun c h => decided_true fun id hmem => ?_
    exact absurd (hnil ▸ hmem) List.not_mem_nil
  · refine Obeys.bind (perf_keeps trivial) fun now => Obeys.bind insertOwners_obeys fun x => ?_
    cases x with
    | ok r =>
      refine Obeys.post (verifyAll_obeys fun c h id hmem => ?_) fun x c h => h.2
      exact h rfl ⟨kind, id, u, now⟩ (List.mem_map.2 ⟨id, hmem, rfl⟩)
    | error e => exact Obeys.pure fun c h => decided_error

end Functions

/-! ### Tools -/

section Tools

variable {P : Lasting (owning cfg rows)} {user : AuthenticatedUser} {params args : Json}

/-- A check that does nothing but end the call, or not. -/
theorem built_obeys {α : Type} {method : String} {x : Except String α} :
    Obeys (owning cfg rows) n req P (built method x) fun _ => P :=
  Obeys.free (built_does (Q := fun _ => True) fun _ _ => trivial).only

/-- A result, or its status, keeps what holds. -/
theorem orStatus_obeys {α : Type} {method : String} {x : Except Status α} :
    Obeys (owning cfg rows) n req P (orStatus method x) fun _ => P :=
  Obeys.free orStatus_does.only

/-- The call goes on for the owner of the id only. -/
theorem checkOwner_obeys {tool foreignId : String} {kind : OwnershipKind} :
    Obeys (owning cfg rows) n req P (checkOwner user tool kind foreignId) fun _ =>
      owns cfg rows kind foreignId user.userId := by
  refine Obeys.bind verify_obeys fun x => ?_
  match x with
  | .ok true => exact Obeys.pure fun c h => owns_of_verified h.2
  | .ok false => exact Obeys.fail
  | .error e => exact Obeys.fail

/-- A request by an id alone, of its owner. -/
theorem request_obeys {o : Op} {kind : OwnershipKind} {foreignId : String}
    (ho : ∀ (l : List Done) r, firstRecorder rows l kind foreignId = some user.userId →
      OwnerGrounds rows l (.did n req o r)) :
    Obeys (owning cfg rows) n req (owns cfg rows kind foreignId user.userId) (perf o)
      fun _ => .none :=
  Obeys.call fun c r _ _ hc _ hp =>
    ⟨owning_evolves hp fun h => ho c.trace r (h.owners kind foreignId ▸ hc.2), fun _ _ => trivial⟩

/-- `feedback` asks for the first recorder only. -/
theorem feedback_obeys : Obeys (owning cfg rows) n (.tool user params) P (feedback user args)
    fun _ => .none := by
  refine Obeys.bind built_obeys fun r => Obeys.bind checkOwner_obeys fun _ => ?_
  refine Obeys.bind (request_obeys fun l x h => h) fun resp => ?_
  exact Obeys.bind orStatus_obeys fun _ => Obeys.pure fun _ _ => trivial

theorem getJobStatus_obeys : Obeys (owning cfg rows) n (.tool user params) P
    (getJobStatus user args) fun _ => .none := by
  refine Obeys.bind built_obeys fun msgId => Obeys.bind checkOwner_obeys fun _ => ?_
  refine Obeys.bind (request_obeys fun l x h => h) fun resp => ?_
  exact Obeys.bind orStatus_obeys fun _ => Obeys.pure fun _ _ => trivial

theorem runTool_obeys {tool : ToolName} : Obeys (owning cfg rows) n (.tool user params) .none
    (runTool cfg user args tool) fun _ => .none := by
  by_cases hid : tool.byId = true
  · cases tool with
    | feedback => exact feedback_obeys
    | getJobStatus => exact getJobStatus_obeys
    | _ => cases hid
  · refine Obeys.free ((runTool_does.imp fun o h => ?_).only)
    exact owning_free (h.keyed (Bool.eq_false_iff.2 hid))

theorem call_obeys : Obeys (owning cfg rows) n (.tool user params) .none (call cfg user params)
    fun _ => .none :=
  Obeys.ret_bind fun _ _ => Obeys.bind runTool_obeys fun _ => Obeys.pure fun _ _ => trivial

end Tools

/-! ### Answers -/

/-- What is known of an answer. -/
def answers (cfg : Config) (rows : List OwnershipRow) (n : ℕ) :
    Request → Reply → Lasting (owning cfg rows)
  | .record kind foreignId u, .flag x => decided cfg rows kind [foreignId] u x
  | .recordMany kind foreignIds u, .flag x => decided cfg rows kind foreignIds u x
  | .verify kind foreignId u, .flag x =>
    verified .none n (.verify kind foreignId u) kind foreignId u x
  | _, _ => .none

/-- Every request is answered as the table says. -/
theorem handle_obeys :
    Obeys (owning cfg rows) n req .none (handle cfg req) (answers cfg rows n req) := by
  cases req with
  | tool user params => exact Obeys.post call_obeys fun reply c _ => by cases reply <;> trivial
  | record kind foreignId u =>
    exact Obeys.bind record_obeys fun x => Obeys.pure fun c h => h
  | recordMany kind foreignIds u =>
    exact Obeys.bind recordMany_obeys fun x => Obeys.pure fun c h => h
  | verify kind foreignId u =>
    exact Obeys.bind verify_obeys fun x => Obeys.pure fun c h => h.2

/-- What was decided is what the trace says. -/
theorem decides_of_decided {kind : OwnershipKind} {foreignIds : List String} {u : String}
    {b : Bool} (hinv : OwnersInv rows c)
    (h : (decided cfg rows kind foreignIds u (.ok b)).holds c) :
    Decides rows c.trace kind foreignIds u b := by
  cases b with
  | true =>
    intro foreignId hmem
    rw [← hinv.owners]
    exact h.1 rfl foreignId hmem
  | false =>
    obtain ⟨foreignId, hmem, u', hne, hu'⟩ := h.2 rfl
    exact ⟨foreignId, hmem, u', hne, (hinv.owners kind foreignId).symm.trans hu'⟩

/-- An answer stands on what the request found. -/
theorem ownerGrounds_of_answers {reply : Reply} (hinv : OwnersInv rows c)
    (h : (answers cfg rows n req reply).holds c) :
    OwnerGrounds rows c.trace (.answered n req (.ok reply)) := by
  cases reply with
  | flag x =>
    cases x with
    | ok b =>
      cases req with
      | tool user params => trivial
      | record kind foreignId u => exact decides_of_decided hinv h
      | recordMany kind foreignIds u => exact decides_of_decided hinv h
      | verify kind foreignId u =>
        obtain ⟨owner, ⟨c₀, hc₀, ⟨l₂, htrace⟩, -, howner⟩, hb⟩ := h b rfl
        refine ⟨owner, c₀.trace, l₂, ?_, ?_⟩
        · rw [← htrace, List.append_assoc]
          rfl
        · rw [hb, beq_iff_eq, howner, hc₀.1.owners]
    | error e => cases req <;> trivial
  | _ => cases req <;> trivial

/-- A change that is not an operation. -/
theorem owning_evolves_of_eq {e : Done} (hs : s.ownership = c.state.ownership)
    (he : ∀ n req o r, e ≠ .did n req o r) (hg : OwnersInv rows c → OwnerGrounds rows c.trace e) :
    (owning cfg rows).Evolves c (c.next s e) := by
  have hnone : ∀ kind foreignId, recorder kind foreignId e = none := by
    intro kind foreignId
    cases e with
    | did n req o r => exact absurd rfl (he n req o r)
    | _ => rfl
  refine ⟨⟨[_], rfl⟩, fun kind foreignId u hu => ?_, fun h => ⟨fun kind foreignId => ?_, ?_⟩⟩
  · rw [Conf.next_state, hs, hu]
  · rw [Conf.next_state, hs, h.owners, Conf.next_trace, firstRecorder_concat, hnone,
      Option.or_none]
  · exact h.grounded.snoc (hg h)

/-- The server keeps the protocol. -/
theorem owning_meets : (owning cfg rows).Meets fun n req a c =>
    OwnerGrounds rows c.trace (.answered n req a) where
  handle n req c h := Triple.post handle_obeys (fun x c hc => by
    cases x with
    | ok reply => exact ownerGrounds_of_answers hc.1 hc.2
    | error e => cases req <;> trivial) c ⟨h, trivial⟩
  finish n req a c _ hpost :=
    owning_evolves_of_eq rfl (fun _ _ _ _ he => by cases he) fun _ => hpost
  world w c s _ _ hw := by
    cases hw
    exact owning_evolves_of_eq rfl (fun _ _ _ _ he => by cases he) fun _ => trivial
  dropped n req c _ := .inr ⟨List.prefix_rfl, fun _ _ _ h => h, fun h => ⟨h.owners, h.grounded⟩⟩

end Handlers

/-! ## Runs -/

section Runs

variable {cfg : Config} {ok : Sys → Serving.Move Request Input World → Prop} {st : State} {s : Sys}

theorem owning_allows {rows : List OwnershipRow} (s : Sys)
    (m : Serving.Move Request Input World) : (owning cfg rows).Allows s m := by
  cases m with
  | handling i input => exact fun _ _ _ _ _ => trivial
  | _ => trivial

/-- Every system reached is sound. -/
theorem owning_sound (h : Reach (· = Serving.Sys.start st) (server cfg).step ok s) :
    (owning cfg st.ownership).Sound (fun n req a c =>
      OwnerGrounds st.ownership c.trace (.answered n req a)) s := by
  have hfrom : Reach (fun s => ∃ st', st' = st ∧ s = Serving.Sys.start st') (server cfg).step ok s :=
    Reach.append (.init ⟨st, rfl, rfl⟩) h
  refine owning_meets.sound (fun st' hst => ?_) (fun s m _ => owning_allows s m) hfrom
  subst hst
  exact ⟨fun _ _ => firstRecorder_nil.symm, Logs.Grounded.nil⟩

/-- In the run from a table `rows`, which goes on by steps that are `ok`, the owner
    of an id is its first recorder, and stays it; what the functions on the table
    answer, if they do not fail, is whether the user is; a transaction that fails
    changes nothing; and requests by an id alone are for its first recorder. -/
structure Owned (cfg : Config) (ok : Sys → Serving.Move Request Input World → Prop)
    (rows : List OwnershipRow) (s : Sys) : Prop where
  owner : ∀ kind foreignId, ownerOf s.conf.state.ownership kind foreignId =
    firstRecorder rows s.conf.trace kind foreignId
  lasting : ∀ s', Reach (· = s) (server cfg).step ok s' →
    OwnersStay s.conf.state s'.conf.state
  record : ∀ n kind foreignId u b,
    .answered n (.record kind foreignId u) (.ok (.flag (.ok b))) ∈ s.conf.trace →
    (b = true ↔ ownerOf s.conf.state.ownership kind foreignId = some u)
  recordMany : ∀ n kind foreignIds u b,
    .answered n (.recordMany kind foreignIds u) (.ok (.flag (.ok b))) ∈ s.conf.trace →
    (b = true ↔ ∀ foreignId ∈ foreignIds,
      ownerOf s.conf.state.ownership kind foreignId = some u)
  verify : ∀ n kind foreignId u b,
    .answered n (.verify kind foreignId u) (.ok (.flag (.ok b))) ∈ s.conf.trace →
    ∃ owner l₁ l₂, s.conf.trace = l₁ ++ .did n (.verify kind foreignId u)
        (.selectOwner kind foreignId) (.ok owner) :: l₂ ∧
      (b = true ↔ firstRecorder rows l₁ kind foreignId = some u)
  failed : ∀ m s' n req new e, (server cfg).step s m = some s' →
    s'.conf.trace = s.conf.trace ++ [.did n req (.insertOwners new) (.error e)] →
    s'.conf.state.ownership = s.conf.state.ownership
  feedback : ∀ l₁ l₂ n user params r x,
    s.conf.trace = l₁ ++ .did n (.tool user params) (.feedback r) x :: l₂ →
    firstRecorder rows l₁ .search r.searchId = some user.userId
  getJobStatus : ∀ l₁ l₂ n user params msgId x,
    s.conf.trace = l₁ ++ .did n (.tool user params) (.getJobStatus msgId) x :: l₂ →
    firstRecorder rows l₁ .msg msgId = some user.userId

/-- What was answered stays true. -/
theorem Decides.later {rows : List OwnershipRow} {l t : List Done} {kind : OwnershipKind}
    {foreignIds : List String} {u : String} {b : Bool} (h : Decides rows l kind foreignIds u b)
    (hl : l <+: t) :
    b = true ↔ ∀ foreignId ∈ foreignIds, firstRecorder rows t kind foreignId = some u := by
  cases b with
  | true => exact iff_of_true rfl fun foreignId hmem => firstRecorder_mono (h foreignId hmem) hl
  | false =>
    refine iff_of_false Bool.false_ne_true fun hall => ?_
    obtain ⟨foreignId, hmem, u', hne, hu'⟩ := h
    have hsame := (firstRecorder_mono hu' hl).symm.trans (hall foreignId hmem)
    exact hne (Option.some.inj hsame)

/-- An event that happened has its grounds. -/
theorem OwnersInv.before {rows : List OwnershipRow} {c : Conf} {e : Done} (h : OwnersInv rows c)
    (he : e ∈ c.trace) : ∃ l₁ l₂, c.trace = l₁ ++ e :: l₂ ∧ OwnerGrounds rows l₁ e := by
  obtain ⟨l₁, l₂, htrace⟩ := List.append_of_mem he
  exact ⟨l₁, l₂, htrace, h.grounded l₁ e l₂ htrace⟩

/-- A step that ends with a failed transaction leaves the table as it was. -/
theorem step_failed {s s' : Sys} {m : Serving.Move Request Input World} {n : ℕ} {req : Request}
    {new : List OwnershipRow} {e : StorageError} (hst : (server cfg).step s m = some s')
    (ht : s'.conf.trace = s.conf.trace ++ [.did n req (.insertOwners new) (.error e)]) :
    s'.conf.state.ownership = s.conf.state.ownership := by
  cases m with
  | request r =>
    cases hst
    rfl
  | drop i =>
    rcases Server.step_drop hst with rfl | ⟨hd, -, rfl⟩ <;> rfl
  | world w =>
    cases hst
    cases List.append_cancel_left ht
  | handling i input =>
    rcases Server.step_handling hst with ⟨n', r, a, -, rfl⟩ | ⟨n', r, o, k, x, st', -, hp, rfl⟩
    · cases List.append_cancel_left ht
    · cases List.append_cancel_left ht
      have hp' : perform n input (.insertOwners new) s.conf.state = some (.error e, st') := hp
      exact congrArg State.ownership (perform_insertOwners_error hp')

/-- The first user who records an id owns it, in every run, and requests by the id
    alone are made for that user only. -/
theorem ownership_first (h : Reach (· = Serving.Sys.start st) (server cfg).step ok s) :
    Owned cfg ok st.ownership s := by
  have hinv := (owning_sound h).inv
  refine ⟨hinv.owners, fun s' hs' => ?_, fun n kind foreignId u b he => ?_,
    fun n kind foreignIds u b he => ?_, fun n kind foreignId u b he => ?_,
    fun m s' n req new e hst ht => step_failed hst ht,
    fun l₁ l₂ n user params r x ht => hinv.grounded l₁ _ l₂ ht,
    fun l₁ l₂ n user params msgId x ht => hinv.grounded l₁ _ l₂ ht⟩
  · exact owning_meets.keeps (K := owning cfg st.ownership) (fun s m _ => owning_allows s m)
      (fun _ _ _ _ hu => hu) (fun hab hbc => hab.trans hbc) (owning_sound h) hs'
  · obtain ⟨l₁, l₂, ht, hdecides⟩ := hinv.before he
    rw [hdecides.later ⟨_, ht.symm⟩, List.forall_mem_singleton, hinv.owners]
  · obtain ⟨l₁, l₂, ht, hdecides⟩ := hinv.before he
    rw [hdecides.later ⟨_, ht.symm⟩]
    simp only [hinv.owners]
  · obtain ⟨l, l', ht, owner, l₁, l₂, hl, hb⟩ := hinv.before he
    refine ⟨owner, l₁, l₂ ++ .answered n (.verify kind foreignId u) (.ok (.flag (.ok b))) :: l',
      ?_, hb⟩
    rw [ht, hl, List.append_assoc, List.cons_append]

end Runs

/-! ### Two users record an id -/

/-- The time is read. -/
def answerNow (now : Int) : Input :=
  .answer fun
    | .nowMs => some now
    | _ => none

/-- The service answers to feedback. -/
def answerFeedback (r : Except Status Unit) : Input :=
  .answer fun
    | .feedback _ => some r
    | _ => none

/-- The second of two users records the id first, and asks for feedback on it. -/
def twoRecorders : List (Serving.Move Request Input World) :=
  [.request (.record .search "sid" "u1"), .request (.record .search "sid" "u2"),
    .handling 0 (answerNow 5), .handling 1 (answerNow 6), .handling 1 .ok, .handling 0 .ok,
    .handling 0 .ok, .handling 0 .ok, .handling 0 .ok,
    .request (.tool ⟨"u2", "c2", "user_2"⟩
      (sampleCall "feedback" [("search_id", .str " sid "), ("rating", .int 5)])),
    .handling 0 .ok, .handling 0 (answerFeedback (.ok ())), .handling 0 .ok]

/-- The answer of a function on the table that an event is. -/
def answeredFlag : Done → Option (ℕ × Except StorageError Bool)
  | .answered n _ (.ok (.flag x)) => some (n, x)
  | _ => none

/-- The id that an event asks for feedback on. -/
def feedbackOn : Done → Option String
  | .did _ _ (.feedback r) _ => some r.searchId
  | _ => none

/-- The second user, who was first, owns the id. -/
theorem ownership_first_two :
    ∃ s, Reach (· = Serving.Sys.start sampleStart) (server .sample).step (fun _ _ => True) s ∧
      s.conf.trace.filterMap answeredFlag = [(0, .ok false), (1, .ok true)] ∧
      s.conf.trace.filterMap feedbackOn = ["sid"] ∧
      Owned .sample (fun _ _ => True) sampleStart.ownership s := by
  obtain ⟨s, hs, hx⟩ : ∃ s, exec (server .sample).step (fun _ _ => true)
      (.start sampleStart) twoRecorders = some s ∧
      (s.conf.trace.filterMap answeredFlag, s.conf.trace.filterMap feedbackOn) =
        ([(0, .ok false), (1, .ok true)], ["sid"]) :=
    Option.map_eq_some_iff.1 (by decide)
  obtain ⟨hflags, hfeedback⟩ := Prod.ext_iff.1 hx
  have hr : Reach (· = Serving.Sys.start sampleStart) (server .sample).step (fun _ _ => True) s :=
    .exec (fun _ _ _ => trivial) (.init rfl) hs
  exact ⟨s, hr, hflags, hfeedback, ownership_first hr⟩

/-! ### A statement that fails for the owner -/

/-- The user records the id again, but the insert fails. -/
def recordedAgain : List (Serving.Move Request Input World) :=
  [.request (.record .search "sid" "u1"), .handling 0 (answerNow 5), .handling 0 .ok,
    .handling 0 .ok, .request (.record .search "sid" "u1"), .handling 0 (answerNow 6),
    .handling 0 .fail, .handling 0 .ok]

/-- The event is a failed answer to the record of an id. -/
def failedRecord (foreignId u : String) : Done → Bool
  | .answered _ (.record .search id' u') (.ok (.flag (.error .sqlx))) => id' = foreignId ∧ u' = u
  | _ => false

/-- Where an insert fails, the owner is answered with an error. -/
theorem record_fails_for_owner :
    ¬∀ s, Reach (· = Serving.Sys.start sampleStart) (server .sample).step (fun _ _ => True) s →
      ∀ n kind foreignId u x,
        .answered n (.record kind foreignId u) (.ok (.flag x)) ∈ s.conf.trace →
        (x = .ok true ↔ ownerOf s.conf.state.ownership kind foreignId = some u) := by
  intro hall
  obtain ⟨s, hs, hx⟩ : ∃ s, exec (server .sample).step (fun _ _ => true)
      (.start sampleStart) recordedAgain = some s ∧
      (s.conf.trace.any (failedRecord "sid" "u1"),
        ownerOf s.conf.state.ownership .search "sid") = (true, some "u1") :=
    Option.map_eq_some_iff.1 (by decide)
  obtain ⟨hfailed, howner⟩ := Prod.ext_iff.1 hx
  have hr : Reach (· = Serving.Sys.start sampleStart) (server .sample).step (fun _ _ => True) s :=
    .exec (fun _ _ _ => trivial) (.init rfl) hs
  obtain ⟨e, he, hrecord⟩ := List.any_eq_true.1 hfailed
  unfold failedRecord at hrecord
  split at hrecord
  · obtain ⟨rfl, rfl⟩ := of_decide_eq_true hrecord
    cases (hall s hr _ _ _ _ _ he).2 howner
  · cases hrecord

end LlmMemory.Vegapunk
