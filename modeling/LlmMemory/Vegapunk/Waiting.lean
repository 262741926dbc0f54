import Mathlib.Data.List.Dedup
import LlmMemory.Vegapunk.Clock

/-!
# Waiting for messages

`await_msg_ids_complete` reports what it was answered about the ids
(`await_msg_ids`): an id is *settled* when a terminal status of it was received,
and those that are not settled are pending, at any moment of the wait (`Awaiting`).
-/

namespace LlmMemory.Vegapunk

open Effects

/-- A reply with this status was received about the id. -/
def Replied (h : History) (msgId status : String) : Prop :=
  ∃ chunk timeoutMs, ∃ reply : String → Option (Except Status GetJobStatusResponse),
    (⟨.pollJobStatus chunk timeoutMs, reply⟩ : Exchange ToolSig) ∈ h ∧ msgId ∈ chunk ∧
      ∃ r, reply msgId = some (.ok r) ∧ r.overallStatus = status

/-- A reply with a terminal status was received about the id. -/
def Settled (h : History) (msgId : String) : Prop :=
  ∃ status ∈ GET_JOB_STATUS_TERMINAL, Replied h msgId status

/-- Only the states of listed ids that are not settled are asked for. -/
def Polling (msgIds : List String) (h : History) (o : Op) : Prop :=
  ∀ chunk timeoutMs, o = .pollJobStatus chunk timeoutMs →
    ∀ msgId ∈ chunk, msgId ∈ msgIds ∧ ¬Settled h msgId

/-- The results have a reply with this status about the id. -/
def Received (results : List (String × Except Status GetJobStatusResponse))
    (msgId status : String) : Prop :=
  ∃ r, (msgId, .ok r) ∈ results ∧ r.overallStatus = status

section Replies

variable {h es : History} {msgIds : List String} {msgId msgId' status : String}

theorem replied_append : Replied (h ++ es) msgId status ↔
    Replied h msgId status ∨ Replied es msgId status := by
  constructor
  · rintro ⟨chunk, timeoutMs, reply, hmem, hreply⟩
    exact (List.mem_append.1 hmem).imp (fun hm => ⟨chunk, timeoutMs, reply, hm, hreply⟩)
      fun hm => ⟨chunk, timeoutMs, reply, hm, hreply⟩
  · rintro (⟨chunk, timeoutMs, reply, hmem, hreply⟩ | ⟨chunk, timeoutMs, reply, hmem, hreply⟩)
    · exact ⟨chunk, timeoutMs, reply, List.mem_append_left _ hmem, hreply⟩
    · exact ⟨chunk, timeoutMs, reply, List.mem_append_right _ hmem, hreply⟩

theorem settled_append : Settled (h ++ es) msgId ↔ Settled h msgId ∨ Settled es msgId := by
  simp only [Settled, replied_append, and_or_left, exists_or]

theorem Pausing.not_replied (hes : Pausing es) : ¬Replied es msgId status := by
  rintro ⟨chunk, timeoutMs, reply, hmem, -⟩
  rcases hes _ hmem with he | ⟨ms, he⟩ <;> cases he

theorem Pausing.not_settled (hes : Pausing es) : ¬Settled es msgId :=
  fun ⟨_, _, hr⟩ => hes.not_replied hr

/-- The replies to the requests about a chunk. -/
theorem replied_poll {chunk : List String} {timeoutMs : Int}
    {reply : String → Option (Except Status GetJobStatusResponse)} :
    Replied [⟨.pollJobStatus chunk timeoutMs, reply⟩] msgId status ↔
      Received (chunk.filterMap fun id => (reply id).map fun r => (id, r)) msgId status := by
  constructor
  · rintro ⟨chunk', timeoutMs', reply', hmem, hchunk, r, hr, hs⟩
    cases List.mem_singleton.1 hmem
    exact ⟨r, List.mem_filterMap.2 ⟨msgId, hchunk, by rw [hr]; rfl⟩, hs⟩
  · rintro ⟨r, hr, hs⟩
    obtain ⟨id, hid, he⟩ := List.mem_filterMap.1 hr
    obtain ⟨x, hx, hpair⟩ := Option.map_eq_some_iff.1 he
    cases hpair
    exact ⟨chunk, timeoutMs, reply, List.mem_singleton_self _, hid, r, hx, hs⟩

/-- A reply is about an id of the chunk. -/
theorem mem_of_replied_poll {chunk : List String} {timeoutMs : Int}
    {reply : String → Option (Except Status GetJobStatusResponse)}
    (hr : Replied [⟨.pollJobStatus chunk timeoutMs, reply⟩] msgId status) : msgId ∈ chunk := by
  obtain ⟨chunk', timeoutMs', reply', hmem, hchunk, -⟩ := hr
  cases List.mem_singleton.1 hmem
  exact hchunk

theorem received_append {results more : List (String × Except Status GetJobStatusResponse)} :
    Received (results ++ more) msgId status ↔
      Received results msgId status ∨ Received more msgId status := by
  simp only [Received, List.mem_append, or_and_right, exists_or]

/-- Polling the chunks asks for the states of their ids, each one once at most, and
    gives what was received. -/
theorem pollChunks_returns {deadline : Int} {chunks : List (List String)}
    (hdistinct : chunks.flatten.Nodup)
    (hids : ∀ msgId ∈ chunks.flatten, msgId ∈ msgIds ∧ ¬Settled h msgId) :
    Returns (Polling msgIds) (fun h' results => ∃ es, h' = h ++ es ∧
      (∀ msgId status, Replied es msgId status ↔ Received results msgId status) ∧
      ∀ msgId status, Replied es msgId status → msgId ∈ msgIds) h
      (pollChunks deadline chunks) := by
  induction chunks generalizing h with
  | nil =>
    have hno : ∀ msgId status, ¬Replied [] msgId status :=
      fun _ _ ⟨_, _, _, hm, _⟩ => absurd hm List.not_mem_nil
    refine Returns.pure ⟨[], (List.append_nil h).symm, fun msgId status => ?_,
      fun msgId status hr => absurd hr (hno msgId status)⟩
    exact ⟨fun hr => absurd hr (hno msgId status), fun ⟨_, hm, _⟩ => absurd hm List.not_mem_nil⟩
  | cons chunk chunks ih =>
    obtain ⟨-, hrest, hdisjoint⟩ := List.nodup_append.1 hdistinct
    refine perf_returns_then (fun _ _ ho => by cases ho) fun (now : Int) => ?_
    refine ite_returns (fun _ => Returns.pure ⟨_, rfl, fun msgId status => ?_,
      fun _ _ hr => absurd hr pausing_instant.not_replied⟩) fun _ => ?_
    · exact ⟨fun hr => absurd hr pausing_instant.not_replied, fun ⟨_, hm, _⟩ =>
        absurd hm List.not_mem_nil⟩
    · refine perf_returns_then ?_ fun reply => ?_
      · intro chunk' timeoutMs ho msgId hmem
        cases ho
        obtain ⟨hid, hno⟩ := hids msgId (List.mem_append_left _ hmem)
        exact ⟨hid, fun hs => (settled_append.1 hs).elim hno pausing_instant.not_settled⟩
      · -- The ids of the other chunks are not in this one, so they are not settled by it.
        refine Returns.bind (ih hrest fun msgId hmem => ?_) ?_
        · obtain ⟨hid, hno⟩ := hids msgId (List.mem_append_right _ hmem)
          refine ⟨hid, fun hs => ?_⟩
          rcases settled_append.1 hs with hs | ⟨status, -, hr⟩
          · exact (settled_append.1 hs).elim hno pausing_instant.not_settled
          · exact hdisjoint msgId (mem_of_replied_poll hr) msgId hmem rfl
        · rintro h' more ⟨es, rfl, hes, hlisted⟩
          refine Returns.pure ⟨_, (List.append_assoc _ _ _).trans (List.append_assoc _ _ _),
            fun msgId status => ?_, fun msgId status hr => ?_⟩
          · refine (replied_append.trans (or_iff_right pausing_instant.not_replied)).trans ?_
            refine (replied_append.trans (or_congr replied_poll (hes msgId status))).trans ?_
            exact received_append.symm
          · rcases replied_append.1 ((replied_append.1 hr).resolve_left
              pausing_instant.not_replied) with hr | hr
            · exact (hids msgId (List.mem_append_left _ (mem_of_replied_poll hr))).1
            · exact hlisted msgId status hr

/-! ## Settling -/

variable {pending : List String} {sawNonOk : Bool}
  {results : List (String × Except Status GetJobStatusResponse)}

theorem received_cons_ok {s : GetJobStatusResponse} :
    Received ((msgId', .ok s) :: results) msgId status ↔
      (msgId = msgId' ∧ s.overallStatus = status) ∨ Received results msgId status := by
  constructor
  · rintro ⟨r, hr, hs⟩
    rcases List.mem_cons.1 hr with he | hr
    · cases he
      exact .inl ⟨rfl, hs⟩
    · exact .inr ⟨r, hr, hs⟩
  · rintro (⟨rfl, hs⟩ | ⟨r, hr, hs⟩)
    · exact ⟨s, List.mem_cons_self, hs⟩
    · exact ⟨r, List.mem_cons_of_mem _ hr, hs⟩

theorem received_cons_error {e : Status} :
    Received ((msgId', .error e) :: results) msgId status ↔ Received results msgId status := by
  constructor
  · rintro ⟨r, hr, hs⟩
    rcases List.mem_cons.1 hr with he | hr
    · cases he
    · exact ⟨r, hr, hs⟩
  · rintro ⟨r, hr, hs⟩
    exact ⟨r, List.mem_cons_of_mem _ hr, hs⟩

/-- The ids that are pending stay distinct. -/
theorem nodup_settle (h : pending.Nodup) : (settle pending sawNonOk results).1.Nodup := by
  induction results generalizing pending sawNonOk with
  | nil => exact h
  | cons x results ih =>
    match x with
    | (msgId', .ok s) =>
      rw [settle]
      split
      · exact ih (h.filter _)
      · exact ih h
    | (msgId', .error e) => exact ih h

/-- The ids that are pending after the results: those not received as terminal. -/
theorem mem_settle : msgId ∈ (settle pending sawNonOk results).1 ↔
    msgId ∈ pending ∧ ∀ status ∈ GET_JOB_STATUS_TERMINAL, ¬Received results msgId status := by
  induction results generalizing pending sawNonOk with
  | nil =>
    refine (and_iff_left fun status _ hr => ?_).symm
    obtain ⟨r, hm, -⟩ := hr
    exact absurd hm List.not_mem_nil
  | cons x results ih =>
    match x with
    | (msgId', .ok s) =>
      rw [settle]
      split
      · next hs =>
        rw [ih, List.mem_filter, decide_eq_true_iff, and_assoc]
        refine and_congr_right fun _ => ⟨fun ⟨hne, hno⟩ st hst hr => ?_, fun hno => ⟨?_, ?_⟩⟩
        · exact (received_cons_ok.1 hr).elim (fun he => hne he.1) (hno st hst)
        · exact fun he => hno _ hs (received_cons_ok.2 (.inl ⟨he, rfl⟩))
        · exact fun st hst hr => hno st hst (received_cons_ok.2 (.inr hr))
      · next hs =>
        rw [ih]
        refine and_congr_right fun _ => forall₂_congr fun st hst => not_congr ?_
        rw [received_cons_ok]
        exact (or_iff_right fun ⟨_, he⟩ => hs (he ▸ hst)).symm
    | (msgId', .error e) =>
      simp only [received_cons_error]
      exact ih

/-- A result that was not completed is seen. -/
theorem saw_settle : (settle pending sawNonOk results).2 = true ↔
    sawNonOk = true ∨ ∃ msgId, Received results msgId JOB_STATUS_FAILED := by
  induction results generalizing pending sawNonOk with
  | nil =>
    refine (or_iff_left ?_).symm
    rintro ⟨msgId, r, hm, -⟩
    exact absurd hm List.not_mem_nil
  | cons x results ih =>
    match x with
    | (msgId', .ok s) =>
      simp only [received_cons_ok, exists_or]
      rw [settle]
      split
      · next hs =>
        have hfailed : (s.overallStatus != JOB_STATUS_OK) = true ↔
            ∃ msgId, msgId = msgId' ∧ s.overallStatus = JOB_STATUS_FAILED := by
          rw [exists_eq_left, bne_iff_ne]
          rcases List.mem_pair.1 hs with he | he
          · rw [he]
            decide
          · rw [he]
            decide
        rw [ih, Bool.or_eq_true, hfailed, or_assoc]
      -- the state is none of the two that settle, so neither side changes
      · next hs =>
        rw [ih]
        refine or_congr_right (or_iff_right ?_).symm
        rintro ⟨msgId, -, he⟩
        exact hs (he ▸ List.mem_pair.2 (.inr rfl))
    | (msgId', .error e) =>
      simp only [received_cons_error]
      exact ih

/-! ## Rounds -/

/-- The ids that are pending are those not settled, and it was seen whether one was
    not completed. -/
structure Awaiting (msgIds : List String) (h : History) (pending : List String)
    (sawNonOk : Bool) : Prop where
  nodup : pending.Nodup
  mem : ∀ msgId, msgId ∈ pending ↔ msgId ∈ msgIds ∧ ¬Settled h msgId
  listed : ∀ msgId status, Replied h msgId status → msgId ∈ msgIds
  saw : sawNonOk = true ↔ ∃ msgId, Replied h msgId JOB_STATUS_FAILED

theorem Awaiting.pause (ha : Awaiting msgIds h pending sawNonOk) (hes : Pausing es) :
    Awaiting msgIds (h ++ es) pending sawNonOk := by
  have hreplied : ∀ msgId status, Replied (h ++ es) msgId status ↔ Replied h msgId status :=
    fun msgId status => replied_append.trans (or_iff_left hes.not_replied)
  refine ⟨ha.nodup, fun msgId => ?_, fun msgId status hr => ?_, ?_⟩
  · rw [ha.mem, settled_append, or_iff_left hes.not_settled]
  · exact ha.listed msgId status ((hreplied msgId status).1 hr)
  · simp only [hreplied]
    exact ha.saw

/-- What is received settles its ids. -/
theorem Awaiting.settle (ha : Awaiting msgIds h pending sawNonOk)
    (hes : ∀ msgId status, Replied es msgId status ↔ Received results msgId status)
    (hlisted : ∀ msgId status, Replied es msgId status → msgId ∈ msgIds) :
    Awaiting msgIds (h ++ es) (settle pending sawNonOk results).1
      (settle pending sawNonOk results).2 := by
  refine ⟨nodup_settle ha.nodup, fun msgId => ?_, fun msgId status hr => ?_, ?_⟩
  · rw [mem_settle, ha.mem, settled_append, not_or, and_assoc]
    refine and_congr_right fun _ => and_congr_right fun _ => ?_
    simp only [Settled, hes, not_exists, not_and]
  · exact (replied_append.1 hr).elim (ha.listed msgId status) (hlisted msgId status)
  · simp only [saw_settle, ha.saw, replied_append, exists_or, hes]

/-- The chunks have the elements of the list, in their order. -/
theorem flatten_toChunks {α : Type} {n : ℕ} {l : List α} : (l.toChunks n).flatten = l := by
  have hgo : ∀ (m : ℕ) (l : List α) (acc : Array α) (chunks : Array (List α)),
      (List.toChunks.go m l acc chunks).flatten = chunks.toList.flatten ++ (acc.toList ++ l) := by
    intro m l
    induction l with
    | nil =>
      intro acc chunks
      simp [List.toChunks.go]
    | cons x l ih =>
      intro acc chunks
      rw [List.toChunks.go]
      split
      · simp [ih]
      · simp [ih]
  match n, l with
  | _, [] => rfl
  | 0, x :: l => exact List.append_nil _
  | n + 1, x :: l => exact hgo (n + 1) l #[x] #[]

/-- A look at the time asks for nothing. -/
theorem polling_instant : Polling msgIds h .instant := fun _ _ ho => by cases ho

theorem polling_sleep {ms : Int} : Polling msgIds h (.sleep ms) := fun _ _ ho => by cases ho

/-- The rounds that are left. At the end the result is that of the ids pending then,
    and there are some only if the time is up. -/
theorem awaitRounds_returns {deadline : Int} {rounds : ℕ}
    (ha : Awaiting msgIds h pending sawNonOk) (ht : InTime deadline rounds h) :
    Returns (Polling msgIds) (fun h' a => ∃ pending sawNonOk, Awaiting msgIds h' pending sawNonOk ∧
      a = awaitResult pending sawNonOk ∧ (pending ≠ [] → Expired deadline h')) h
      (awaitRounds deadline rounds pending sawNonOk) := by
  induction rounds generalizing h pending sawNonOk with
  | zero => exact Returns.pure ⟨pending, sawNonOk, ha, rfl, fun _ => ht.expired_of_zero⟩
  | succ rounds ih =>
    rw [awaitRounds]
    refine ite_returns (fun hnil => ?_) fun _ => ?_
    · exact Returns.pure ⟨pending, sawNonOk, ha, rfl, fun hne => absurd hnil hne⟩
    refine perf_returns_then polling_instant fun (now : Int) => ?_
    have hinstant : Pausing [⟨.instant, now⟩] := pausing_instant
    refine ite_returns (fun hnow => ?_) fun hnow => ?_
    · exact Returns.pure ⟨pending, sawNonOk, ha.pause hinstant, rfl, fun _ => expired_instant hnow⟩
    have hchunks : (pending.toChunks JOB_POLL_PARALLELISM).flatten = pending := flatten_toChunks
    refine Returns.bind (pollChunks_returns (hchunks.symm ▸ ha.nodup) fun msgId hmem =>
      ((ha.pause hinstant).mem msgId).1 (hchunks ▸ hmem)) ?_
    rintro h' results ⟨es, rfl, hes, hlisted⟩
    have hsettled := (ha.pause hinstant).settle hes hlisted
    dsimp only
    refine ite_returns (fun hnil => ?_) fun _ => ?_
    · exact Returns.pure ⟨_, _, hsettled, rfl, fun hne => absurd hnil hne⟩
    refine Returns.bind (sleepUntil_returns polling_instant fun _ _ _ _ => polling_sleep) ?_
    rintro h' _ ⟨pause, rfl, hpause, hlast⟩
    exact ih (hsettled.pause hpause) (ht.round (lt_of_not_ge hnow) hlast)

/-- What was received about the ids, by the result of the wait. -/
structure Reported (msgIds : List String) (h : History) (a : AwaitStatus) : Prop where
  ok : a = .ok ↔ ∀ msgId ∈ msgIds,
    Replied h msgId JOB_STATUS_OK ∧ ¬Replied h msgId JOB_STATUS_FAILED
  partially : a = .partially ↔ (∀ msgId ∈ msgIds, Settled h msgId) ∧
    ∃ msgId ∈ msgIds, Replied h msgId JOB_STATUS_FAILED
  timeout : a = .timeout ↔ ∃ msgId ∈ msgIds, ¬Settled h msgId

theorem settled_iff : Settled h msgId ↔
    Replied h msgId JOB_STATUS_OK ∨ Replied h msgId JOB_STATUS_FAILED := by
  simp only [Settled, GET_JOB_STATUS_TERMINAL, List.mem_cons, List.not_mem_nil, or_false,
    exists_eq_or_imp, exists_eq_left]

/-- The result is what was received. -/
theorem Awaiting.reported (ha : Awaiting msgIds h pending sawNonOk) :
    Reported msgIds h (awaitResult pending sawNonOk) := by
  rw [awaitResult]
  split
  · next hne =>
    -- An id that is pending is not settled.
    obtain ⟨msgId, hmem⟩ := List.exists_mem_of_ne_nil pending hne
    obtain ⟨hid, hno⟩ := (ha.mem msgId).1 hmem
    refine ⟨⟨fun he => (by cases he), fun hall => ?_⟩, ⟨fun he => (by cases he), fun hall => ?_⟩,
      iff_of_true rfl ⟨msgId, hid, hno⟩⟩
    · exact absurd (settled_iff.2 (.inl (hall msgId hid).1)) hno
    · exact absurd (hall.1 msgId hid) hno
  · next hnil =>
    have hall : ∀ msgId ∈ msgIds, Settled h msgId := fun msgId hid => by
      by_contra hno
      exact hnil (List.ne_nil_of_mem ((ha.mem msgId).2 ⟨hid, hno⟩))
    have htimeout : ¬∃ msgId ∈ msgIds, ¬Settled h msgId := fun ⟨msgId, hid, hno⟩ =>
      hno (hall msgId hid)
    split
    · next hsaw =>
      obtain ⟨msgId, hr⟩ := ha.saw.1 hsaw
      have hid := ha.listed msgId _ hr
      refine ⟨⟨fun he => (by cases he), fun hok => ?_⟩, iff_of_true rfl ⟨hall, msgId, hid, hr⟩,
        iff_of_false (fun he => by cases he) htimeout⟩
      exact absurd hr (hok msgId hid).2
    · next hsaw =>
      have hno : ∀ msgId, ¬Replied h msgId JOB_STATUS_FAILED := fun msgId hr =>
        hsaw (ha.saw.2 ⟨msgId, hr⟩)
      refine ⟨iff_of_true rfl fun msgId hid => ⟨?_, hno msgId⟩, ⟨fun he => (by cases he), ?_⟩,
        iff_of_false (fun he => by cases he) htimeout⟩
      · exact (settled_iff.1 (hall msgId hid)).resolve_right (hno msgId)
      · rintro ⟨-, msgId, -, hr⟩
        exact absurd hr (hno msgId)

/-- At the start all ids are pending, and the rounds are enough until the deadline. -/
theorem awaiting_start (msgIds : List String) (start : Int) :
    Awaiting msgIds [⟨.instant, start⟩] msgIds.dedup false ∧
      InTime (start + JOB_AWAIT_TIMEOUT_SECS * 1000) POLL_ROUNDS [⟨.instant, start⟩] := by
  have hno : ∀ msgId status, ¬Replied [⟨.instant, start⟩] msgId status :=
    fun _ _ => pausing_instant.not_replied
  refine ⟨⟨List.nodup_dedup _, fun msgId => ?_, fun msgId status hr => absurd hr (hno _ _), ?_⟩, ?_⟩
  · rw [List.mem_dedup, and_iff_left pausing_instant.not_settled]
  · exact iff_of_false Bool.false_ne_true fun ⟨msgId, hr⟩ => hno _ _ hr
  · exact fun c _ => ⟨240, rfl, le_rfl⟩

/-- What waiting for the ids comes to, whatever is received. It is over when each id
    was received as terminal, or at the deadline, and no state is asked for of an id
    that was received as terminal before. -/
theorem await_msg_ids (msgIds : List String) :
    Returns (Polling msgIds)
      (fun h a => Reported msgIds h a ∧ (a = .timeout → ∃ start : Int,
        h.head? = some ⟨.instant, start⟩ ∧ Expired (start + JOB_AWAIT_TIMEOUT_SECS * 1000) h)) []
      (awaitMsgIdsComplete msgIds) := by
  refine ite_returns (fun hnil => ?_) fun _ => ?_
  · -- There is nothing to wait for.
    subst hnil
    refine Returns.pure ⟨⟨iff_of_true rfl fun _ hm => ?_, ⟨fun he => (by cases he), ?_⟩,
      ⟨fun he => (by cases he), ?_⟩⟩, fun he => (by cases he)⟩
    · exact absurd hm List.not_mem_nil
    · exact fun ⟨_, _, hm, _⟩ => absurd hm List.not_mem_nil
    · exact fun ⟨_, hm, _⟩ => absurd hm List.not_mem_nil
  · refine perf_returns_then polling_instant fun (start : Int) => ?_
    obtain ⟨ha, ht⟩ := awaiting_start msgIds start
    refine (Returns.gives (awaitRounds_returns ha ht)).mono ?_
    rintro h a ⟨⟨pending, sawNonOk, ha, rfl, hexpired⟩, es, rfl, -⟩
    refine ⟨ha.reported, fun he => ⟨start, rfl, hexpired fun hnil => ?_⟩⟩
    subst hnil
    cases sawNonOk <;> cases he

end Replies

end LlmMemory.Vegapunk
