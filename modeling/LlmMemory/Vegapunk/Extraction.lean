import Mathlib.Data.Finset.Card
import LlmMemory.Vegapunk.Paging

/-!
# Waiting for extractions

`await_extraction_jobs_for_schema` compares numbers of jobs with those of the first
listing. If the listings are complete, and the final statuses are final
(`Complete`), the jobs of a status are ever more, and the differences of the
numbers are the numbers of the jobs that came to be of it since (`Counted`). So the
wait is over at the first listing where enough jobs came to a final status
(`lower_bound_wait`).
-/

namespace LlmMemory.Vegapunk

open Effects

/-! ## Jobs by their status -/

/-- The statuses of jobs that are done. -/
def okStatuses : List String := [JOB_STATUS_OK]
/-- The statuses of jobs that failed, also for good. -/
def failedStatuses : List String := [JOB_STATUS_FAILED, JOB_STATUS_DEAD_LETTER]
/-- The statuses that do not change any more. -/
def finalStatuses : List String := okStatuses ++ failedStatuses

/-- The job is of the schema: the id of its message is the name, a colon, and more. -/
def InSchema (userSchema : String) (j : JobInfo) : Prop :=
  ∃ m, j.msgId = some m ∧ (userSchema ++ ":").toList <+: m.toList

instance {userSchema : String} {j : JobInfo} : Decidable (InSchema userSchema j) :=
  match h : j.msgId with
  | some m => decidable_of_iff ((userSchema ++ ":").toList <+: m.toList)
      ⟨fun hm => ⟨m, h, hm⟩, fun ⟨m', he, hm⟩ => Option.some.inj (h.symm.trans he) ▸ hm⟩
  | none => .isFalse fun ⟨_, he, _⟩ => by cases h.symm.trans he

/-- The jobs of the schema that are listed with one of the statuses, by their ids. -/
def jobsWith (userSchema : String) (statuses : List String) (l : List JobInfo) : Finset String :=
  ((l.filter fun j => InSchema userSchema j ∧ j.status ∈ statuses).map (·.jobId)).toFinset

/-- The jobs that came to have one of the statuses since the first listing. -/
def since (userSchema : String) (statuses : List String) (first l : List JobInfo) :
    Finset String :=
  jobsWith userSchema statuses l \ jobsWith userSchema statuses first

/-- The listing has the jobs of the other one whose status is final. -/
def Lasting (l l' : List JobInfo) : Prop :=
  ∀ j ∈ l, j.status ∈ finalStatuses → ∃ j' ∈ l', j'.jobId = j.jobId ∧ j'.status = j.status ∧
    j'.msgId = j.msgId

section Counting

variable {userSchema : String} {statuses : List String} {first l : List JobInfo} {id : String}

/-- The jobs counted are those of the schema with one of the statuses. -/
theorem mem_jobsWith : id ∈ jobsWith userSchema statuses l ↔
    ∃ j ∈ l, InSchema userSchema j ∧ j.status ∈ statuses ∧ j.jobId = id := by
  simp only [jobsWith, List.mem_toFinset, List.mem_map, List.mem_filter, decide_eq_true_eq,
    and_assoc]

/-- A job with a final status that was listed first is still listed with it. -/
theorem jobsWith_subset (hlasting : Lasting first l) (hfinal : ∀ s ∈ statuses, s ∈ finalStatuses) :
    jobsWith userSchema statuses first ⊆ jobsWith userSchema statuses l := by
  intro id hid
  obtain ⟨j, hj, ⟨m, hm, hprefix⟩, hs, rfl⟩ := mem_jobsWith.1 hid
  obtain ⟨j', hj', he, hs', hm'⟩ := hlasting j hj (hfinal _ hs)
  exact mem_jobsWith.2 ⟨j', hj', ⟨m, hm'.trans hm, hprefix⟩, hs'.symm ▸ hs, he⟩

/-- A job has one status only. -/
theorem disjoint_jobsWith {statuses' : List String} (hdistinct : (l.map (·.jobId)).Nodup)
    (hs : ∀ s ∈ statuses, s ∉ statuses') :
    Disjoint (jobsWith userSchema statuses l) (jobsWith userSchema statuses' l) := by
  refine Finset.disjoint_left.2 fun id hid hid' => ?_
  obtain ⟨j, hj, -, hstatus, rfl⟩ := mem_jobsWith.1 hid
  obtain ⟨j', hj', -, hstatus', he⟩ := mem_jobsWith.1 hid'
  rw [List.inj_on_of_nodup_map hdistinct hj' hj he] at hstatus'
  exact hs _ hstatus hstatus'

/-- When the ids of a list are distinct, the jobs counted are as many as its rows. -/
theorem card_jobsWith (hdistinct : (l.map (·.jobId)).Nodup) :
    (jobsWith userSchema statuses l).card =
      l.countP fun j => InSchema userSchema j ∧ j.status ∈ statuses := by
  have hsub : ((l.filter fun j => InSchema userSchema j ∧ j.status ∈ statuses).map
      (·.jobId)).Sublist (l.map (·.jobId)) := List.filter_sublist.map _
  rw [jobsWith, List.toFinset_card_of_nodup (hdistinct.sublist hsub), List.length_map,
    List.countP_eq_length_filter]

/-- The numbers counted are those of the jobs completed and of those that failed. -/
theorem countTerminalJobsForSchema_eq (hdistinct : (l.map (·.jobId)).Nodup) :
    countTerminalJobsForSchema l (userSchema ++ ":") =
      (((jobsWith userSchema okStatuses l).card : Int),
        ((jobsWith userSchema failedStatuses l).card : Int)) := by
  have hschema : ∀ j : JobInfo, (j.msgId.map fun m =>
      (userSchema ++ ":").toList.isPrefixOf m.toList).getD false = true ↔
      InSchema userSchema j := by
    intro j
    cases hm : j.msgId with
    | none => simp [InSchema, hm]
    | some m => simp [InSchema, hm]
  rw [card_jobsWith hdistinct, card_jobsWith hdistinct, countTerminalJobsForSchema]
  refine Prod.ext (congrArg Nat.cast ?_) (congrArg Nat.cast ?_)
  · rw [List.countP_filter]
    refine List.countP_congr fun j _ => ?_
    simp only [Bool.and_eq_true, decide_eq_true_eq, hschema, okStatuses, List.mem_singleton,
      and_comm]
  · rw [List.countP_filter]
    refine List.countP_congr fun j _ => ?_
    simp only [Bool.and_eq_true, decide_eq_true_eq, hschema, failedStatuses, List.mem_pair,
      and_comm]

theorem ok_disjoint_failed (hdistinct : (l.map (·.jobId)).Nodup) :
    Disjoint (jobsWith userSchema okStatuses l) (jobsWith userSchema failedStatuses l) :=
  disjoint_jobsWith hdistinct (by decide)

/-- The jobs with a final status are those that are done and those that failed. -/
theorem jobsWith_final : jobsWith userSchema finalStatuses l =
    jobsWith userSchema okStatuses l ∪ jobsWith userSchema failedStatuses l := by
  ext id
  simp only [Finset.mem_union, mem_jobsWith, finalStatuses, List.mem_append, or_and_right,
    and_or_left, exists_or]

/-- The jobs that came to a final status are those completed and those that failed. -/
theorem since_final (hlasting : Lasting first l) (hdistinct : (l.map (·.jobId)).Nodup) :
    since userSchema finalStatuses first l =
      since userSchema okStatuses first l ∪ since userSchema failedStatuses first l := by
  have hok : jobsWith userSchema okStatuses first ⊆ jobsWith userSchema okStatuses l :=
    jobsWith_subset hlasting (by decide)
  have hfailed : jobsWith userSchema failedStatuses first ⊆ jobsWith userSchema failedStatuses l :=
    jobsWith_subset hlasting (by decide)
  have hdisjoint : ∀ {id}, id ∈ jobsWith userSchema okStatuses l →
      id ∉ jobsWith userSchema failedStatuses l :=
    fun hid => Finset.disjoint_left.1 (ok_disjoint_failed hdistinct) hid
  ext id
  simp only [since, jobsWith_final, Finset.mem_sdiff, Finset.mem_union, not_or]
  constructor
  · rintro ⟨hok' | hfailed', hno, hno'⟩
    · exact .inl ⟨hok', hno⟩
    · exact .inr ⟨hfailed', hno'⟩
  · rintro (⟨hok', hno⟩ | ⟨hfailed', hno⟩)
    · exact ⟨.inl hok', hno, fun hmem => hdisjoint hok' (hfailed hmem)⟩
    · exact ⟨.inr hfailed', fun hmem => hdisjoint (hok hmem) hfailed', hno⟩

variable (userSchema) in
/-- The jobs that became final since the first list are those that were done and those that
    failed since. -/
theorem card_since_final (hlasting : Lasting first l) (hdistinct : (l.map (·.jobId)).Nodup) :
    (since userSchema finalStatuses first l).card =
      (since userSchema okStatuses first l).card +
        (since userSchema failedStatuses first l).card := by
  rw [since_final hlasting hdistinct]
  exact Finset.card_union_of_disjoint ((ok_disjoint_failed hdistinct).mono Finset.sdiff_subset
    Finset.sdiff_subset)

variable (userSchema) in
/-- The difference of two numbers is that of the jobs that came to have the status. -/
theorem card_sub_card (hlasting : Lasting first l) (hfinal : ∀ s ∈ statuses, s ∈ finalStatuses) :
    ((jobsWith userSchema statuses l).card : Int) - (jobsWith userSchema statuses first).card =
      (since userSchema statuses first l).card := by
  have hsub : jobsWith userSchema statuses first ⊆ jobsWith userSchema statuses l :=
    jobsWith_subset hlasting hfinal
  have hsum := Finset.card_sdiff_add_card_eq_card hsub
  rw [since]
  omega

end Counting

/-! ## When the wait is over -/

/-- So many jobs came to a final status since the first listing: completed, all of
    them, or else with one that failed. -/
def Enough (userSchema : String) (expectedCount : Int) (first l : List JobInfo) :
    AwaitStatus → Prop
  | .ok => expectedCount ≤ (since userSchema okStatuses first l).card ∧
      since userSchema failedStatuses first l = ∅
  | .partially => expectedCount ≤ (since userSchema finalStatuses first l).card ∧
      ∃ id ∈ since userSchema finalStatuses first l, id ∈ jobsWith userSchema failedStatuses l
  | .timeout => False

section Deciding

variable {userSchema : String} {expectedCount : Int} {first l : List JobInfo}

/-- A job that came to a final status, and failed, came to fail. -/
theorem mem_since_failed {id : String} (hid : id ∈ since userSchema finalStatuses first l)
    (hfailed : id ∈ jobsWith userSchema failedStatuses l) :
    id ∈ since userSchema failedStatuses first l := by
  rw [since, jobsWith_final, jobsWith_final, Finset.mem_sdiff, Finset.mem_union,
    Finset.mem_union, not_or] at hid
  exact Finset.mem_sdiff.2 ⟨hfailed, hid.2.2⟩

/-- A list allows one answer only. -/
theorem Enough.unique {a b : AwaitStatus} (ha : Enough userSchema expectedCount first l a)
    (hb : Enough userSchema expectedCount first l b) : a = b := by
  have hexclusive : Enough userSchema expectedCount first l .ok →
      ¬Enough userSchema expectedCount first l .partially := by
    rintro ⟨-, hnone⟩ ⟨-, id, hid, hfailed⟩
    have hmem := mem_since_failed hid hfailed
    rw [hnone] at hmem
    exact Finset.notMem_empty id hmem
  match a, b with
  | .ok, .ok => rfl
  | .ok, .partially => exact absurd hb (hexclusive ha)
  | .partially, .ok => exact absurd ha (hexclusive hb)
  | .partially, .partially => rfl
  | .timeout, _ => exact ha.elim
  | .ok, .timeout => exact hb.elim
  | .partially, .timeout => exact hb.elim

variable (expectedCount) in
/-- What the differences of the numbers say. -/
theorem enough_iff (hlasting : Lasting first l) (hfirst : (first.map (·.jobId)).Nodup)
    (hdistinct : (l.map (·.jobId)).Nodup) {counts base : Int × Int}
    (hcounts : counts = countTerminalJobsForSchema l (userSchema ++ ":"))
    (hbase : base = countTerminalJobsForSchema first (userSchema ++ ":")) :
    (Enough userSchema expectedCount first l .ok ↔
      expectedCount ≤ counts.1 - base.1 + (counts.2 - base.2) ∧ ¬0 < counts.2 - base.2) ∧
    (Enough userSchema expectedCount first l .partially ↔
      expectedCount ≤ counts.1 - base.1 + (counts.2 - base.2) ∧ 0 < counts.2 - base.2) := by
  have hok := card_sub_card userSchema hlasting (by decide : ∀ s ∈ okStatuses, s ∈ finalStatuses)
  have hfailed := card_sub_card userSchema hlasting
    (by decide : ∀ s ∈ failedStatuses, s ∈ finalStatuses)
  have hfinal := card_since_final userSchema hlasting hdistinct
  rw [countTerminalJobsForSchema_eq hdistinct] at hcounts
  rw [countTerminalJobsForSchema_eq hfirst] at hbase
  subst hcounts hbase
  rw [hok, hfailed]
  constructor
  · rw [Enough, ← Finset.card_eq_zero]
    omega
  · have hnonempty : (∃ id ∈ since userSchema finalStatuses first l,
        id ∈ jobsWith userSchema failedStatuses l) ↔
        0 < (since userSchema failedStatuses first l).card := by
      rw [Finset.card_pos]
      constructor
      · rintro ⟨id, hid, hmem⟩
        exact ⟨id, mem_since_failed hid hmem⟩
      · rintro ⟨id, hid⟩
        refine ⟨id, ?_, Finset.sdiff_subset hid⟩
        rw [since_final hlasting hdistinct]
        exact Finset.mem_union_right _ hid
    rw [Enough, hnonempty, hfinal]
    omega

end Deciding

/-! ## Polls -/

/-- What a round of polling comes to. -/
abbrev Poll : Type := Option (Except Status (List JobInfo))

/-- The listings of the polls that were successful. -/
def listings (polls : List Poll) : List (List JobInfo) :=
  polls.filterMap fun x => match x with
    | some (.ok l) => some l
    | _ => none

/-- The listing that the other ones are compared with. -/
def baselineOf (polls : List Poll) : List JobInfo := (listings polls).headD []

/-- The exchanges of these polls, with pauses between them. -/
inductive Polled (sinceMs : Int) : History → List Poll → Prop
  | nil : Polled sinceMs [] []
  | pause {e : Exchange ToolSig} {h : History} {polls : List Poll} :
    Pausing [e] → Polled sinceMs h polls → Polled sinceMs (e :: h) polls
  | poll {es h : History} {polls : List Poll} {timeoutMs : Int} {x : Poll} :
    (listExtractionJobsPaged sinceMs timeoutMs).Gives es (.ok x) → Polled sinceMs h polls →
      Polled sinceMs (es ++ h) (x :: polls)

/-- The listings are complete: a later one has the jobs of an earlier one whose status
    is final. As many jobs as there are, `total_count` can say it: it is an `i32`. -/
structure Complete (ls : List (List JobInfo)) : Prop where
  lasting : ls.Pairwise Lasting
  counted : ∀ l ∈ ls, l.length < 2 ^ 31

/-- The last poll is the first one at which there were enough. -/
def Decided (userSchema : String) (expectedCount : Int) (polls : List Poll) (a : AwaitStatus) :
    Prop :=
  ∃ before l, polls = before ++ [some (.ok l)] ∧
    Enough userSchema expectedCount (baselineOf polls) l a ∧
    ∀ l' ∈ listings before, ∀ b, ¬Enough userSchema expectedCount (baselineOf polls) l' b

/-- There were not enough at any poll. -/
def Undecided (userSchema : String) (expectedCount : Int) (polls : List Poll) : Prop :=
  ∀ l ∈ listings polls, ∀ b, ¬Enough userSchema expectedCount (baselineOf polls) l b

section Polls

variable {userSchema : String} {expectedCount sinceMs : Int} {polls : List Poll}
  {l : List JobInfo} {a b : AwaitStatus}

theorem Polled.append {h h' : History} {more : List Poll} (hp : Polled sinceMs h polls)
    (hp' : Polled sinceMs h' more) : Polled sinceMs (h ++ h') (polls ++ more) := by
  induction hp with
  | nil => exact hp'
  | pause he _ ih => exact ih.pause he
  | poll hes _ ih =>
    rw [List.append_assoc]
    exact ih.poll hes

theorem polled_of_pausing {es : History} (hes : Pausing es) : Polled sinceMs es [] := by
  induction es with
  | nil => exact .nil
  | cons e es ih =>
    refine .pause (fun e' he' => ?_) (ih fun e' he' => hes e' (List.mem_cons_of_mem _ he'))
    rw [List.mem_singleton.1 he']
    exact hes e List.mem_cons_self

theorem Polled.then_pause {h es : History} (hp : Polled sinceMs h polls) (hes : Pausing es) :
    Polled sinceMs (h ++ es) polls := by
  have happ := hp.append (polled_of_pausing hes)
  rwa [List.append_nil] at happ

theorem Polled.then_poll {h es : History} {timeoutMs : Int} {x : Poll}
    (hp : Polled sinceMs h polls)
    (hes : (listExtractionJobsPaged sinceMs timeoutMs).Gives es (.ok x)) :
    Polled sinceMs (h ++ es) (polls ++ [x]) := by
  have happ := hp.append (Polled.nil.poll hes)
  rwa [List.append_nil] at happ

/-- The first exchange of a poll is the request for the first page. -/
theorem gives_listing {es : History} {timeoutMs : Int} {x : Except Exit Poll}
    (hes : (listExtractionJobsPaged sinceMs timeoutMs).Gives es x) :
    ∃ r es', es = ⟨requestPage sinceMs timeoutMs 0, r⟩ :: es' := by
  match es, hes with
  | e :: es', ⟨r, he, _⟩ => exact ⟨r, es', by rw [he]; rfl⟩

theorem not_pausing_listing {timeoutMs : Int} {r : ListJobsReply} :
    ¬Pausing [⟨requestPage sinceMs timeoutMs 0, r⟩] := by
  intro hp
  rcases hp _ (List.mem_singleton_self _) with he | ⟨ms, he⟩ <;> cases he

/-- The polls are those that the exchanges say. -/
theorem Polled.unique {h : History} {polls' : List Poll} (hp : Polled sinceMs h polls)
    (hp' : Polled sinceMs h polls') : polls = polls' := by
  induction hp generalizing polls' with
  | nil =>
    generalize hh : ([] : History) = h at hp'
    cases hp' with
    | nil => rfl
    | pause _ _ => cases hh
    | poll hes _ =>
      obtain ⟨r, es', rfl⟩ := gives_listing hes
      cases hh
  | @pause e h polls he _ ih =>
    generalize hh : e :: h = h' at hp'
    cases hp' with
    | nil => cases hh
    | pause _ hrest =>
      cases hh
      exact ih hrest
    | poll hes _ =>
      obtain ⟨r, es', rfl⟩ := gives_listing hes
      cases hh
      exact absurd he not_pausing_listing
  | @poll es h polls timeoutMs x hes _ ih =>
    generalize hh : es ++ h = h' at hp'
    cases hp' with
    | nil =>
      obtain ⟨r, es', rfl⟩ := gives_listing hes
      cases hh
    | pause he _ =>
      obtain ⟨r, es', rfl⟩ := gives_listing hes
      cases hh
      exact absurd he not_pausing_listing
    | @poll es' h' polls' timeoutMs' x' hes' hrest =>
      -- The request says the time limit, so both are runs of the same listing.
      have htimeout : timeoutMs = timeoutMs' := by
        obtain ⟨r, l, rfl⟩ := gives_listing hes
        obtain ⟨r', l', rfl⟩ := gives_listing hes'
        cases (List.cons.inj hh).1
        rfl
      subst htimeout
      obtain ⟨rfl, hx⟩ := hes.unique hes' hh
      cases hx
      rw [ih (List.append_cancel_left hh ▸ hrest)]

theorem listings_append {more : List Poll} :
    listings (polls ++ more) = listings polls ++ listings more :=
  List.filterMap_append

/-- A poll that succeeds adds its list. -/
theorem listings_ok : listings (polls ++ [some (.ok l)]) = listings polls ++ [l] :=
  listings_append

theorem listings_failed {x : Poll} (hx : ∀ l, x ≠ some (.ok l)) :
    listings (polls ++ [x]) = listings polls := by
  rw [listings_append]
  match x with
  | none => exact List.append_nil _
  | some (.error e) => exact List.append_nil _
  | some (.ok l) => exact absurd rfl (hx l)

/-- A poll that failed does not matter. -/
theorem Undecided.failed {x : Poll} (hno : Undecided userSchema expectedCount polls)
    (hx : ∀ l, x ≠ some (.ok l)) : Undecided userSchema expectedCount (polls ++ [x]) := by
  rw [Undecided, baselineOf, listings_failed hx]
  exact hno

/-- What is complete with one more list was complete before. -/
theorem Complete.before (hcomplete : Complete (listings (polls ++ [some (.ok l)]))) :
    Complete (listings polls) := by
  rw [listings_ok] at hcomplete
  exact ⟨(List.pairwise_append.1 hcomplete.lasting).1, fun l' hl' =>
    hcomplete.counted l' (List.mem_append_left _ hl')⟩

/-- The first listing stays what the others are compared with. -/
theorem baselineOf_append {more : List Poll} (hl : l ∈ listings polls) :
    baselineOf (polls ++ more) = baselineOf polls := by
  rw [baselineOf, baselineOf, listings_append]
  obtain ⟨first, rest, he⟩ := List.exists_cons_of_ne_nil (List.ne_nil_of_mem hl)
  rw [he]
  rfl

/-- The baseline is one of the lists. -/
theorem baselineOf_mem (hl : l ∈ listings polls) : baselineOf polls ∈ listings polls := by
  rw [baselineOf]
  obtain ⟨first, rest, he⟩ := List.exists_cons_of_ne_nil (List.ne_nil_of_mem hl)
  rw [he]
  exact List.mem_cons_self

/-- The list of the last poll is among the lists. -/
theorem mem_listings_ok : l ∈ listings (polls ++ [some (.ok l)]) := by
  rw [listings_ok]
  exact List.mem_append_right _ (List.mem_singleton_self l)

theorem lasting_self : Lasting l l := fun j hj _ => ⟨j, hj, rfl, rfl, rfl⟩

/-- The jobs of the first listing are in the last one. -/
theorem Complete.lasting_last (hcomplete : Complete (listings (polls ++ [some (.ok l)]))) :
    Lasting (baselineOf (polls ++ [some (.ok l)])) l := by
  have hpairs := hcomplete.lasting
  rw [listings_ok, List.pairwise_append] at hpairs
  have hmem : baselineOf (polls ++ [some (.ok l)]) ∈ listings (polls ++ [some (.ok l)]) :=
    baselineOf_mem mem_listings_ok
  rw [listings_ok] at hmem
  rcases List.mem_append.1 hmem with hmem | hmem
  · exact hpairs.2.2 _ hmem l (List.mem_singleton_self l)
  · rw [List.mem_singleton.1 hmem]
    exact lasting_self

theorem Decided.unique (ha : Decided userSchema expectedCount polls a)
    (hb : Decided userSchema expectedCount polls b) : a = b := by
  obtain ⟨before, l, rfl, ha, -⟩ := ha
  obtain ⟨before', l', he, hb, -⟩ := hb
  obtain ⟨-, he⟩ := List.append_inj' he rfl
  cases he
  exact ha.unique hb

/-- Polls that decide are not undecided. -/
theorem Decided.not_undecided (ha : Decided userSchema expectedCount polls a) :
    ¬Undecided userSchema expectedCount polls := by
  obtain ⟨before, l, rfl, ha, -⟩ := ha
  intro hno
  exact hno l mem_listings_ok a ha

theorem Decided.ne_timeout (ha : Decided userSchema expectedCount polls a) : a ≠ .timeout := by
  obtain ⟨before, l, rfl, ha, -⟩ := ha
  rintro rfl
  exact ha

/-- A wait that is decided, or is not, comes to what it was decided to. -/
theorem eq_iff_decided (h : Decided userSchema expectedCount polls a ∨
    a = .timeout ∧ Undecided userSchema expectedCount polls) (hb : b ≠ .timeout) :
    a = b ↔ Decided userSchema expectedCount polls b := by
  rcases h with ha | ⟨rfl, hno⟩
  · exact ⟨fun he => he ▸ ha, fun hd => ha.unique hd⟩
  · exact iff_of_false (fun he => hb he.symm) fun hd => hd.not_undecided hno

/-- The answer is a timeout if and only if the polls are undecided. -/
theorem eq_timeout_iff (h : Decided userSchema expectedCount polls a ∨
    a = .timeout ∧ Undecided userSchema expectedCount polls) :
    a = .timeout ↔ Undecided userSchema expectedCount polls := by
  rcases h with ha | ⟨rfl, hno⟩
  · exact iff_of_false ha.ne_timeout ha.not_undecided
  · exact iff_of_true rfl hno

/-- Another listing decides the wait if there are enough. -/
theorem decided_or_undecided (hcomplete : Complete (listings (polls ++ [some (.ok l)])))
    (hdistinct : ∀ l' ∈ listings (polls ++ [some (.ok l)]), (l'.map (·.jobId)).Nodup)
    (hno : Undecided userSchema expectedCount polls) {counts base : Int × Int}
    (hcounts : counts = countTerminalJobsForSchema l (userSchema ++ ":"))
    (hbase : base = countTerminalJobsForSchema (baselineOf (polls ++ [some (.ok l)]))
      (userSchema ++ ":")) :
    (expectedCount ≤ counts.1 - base.1 + (counts.2 - base.2) →
      Decided userSchema expectedCount (polls ++ [some (.ok l)])
        (if 0 < counts.2 - base.2 then .partially else .ok)) ∧
    (¬expectedCount ≤ counts.1 - base.1 + (counts.2 - base.2) →
      Undecided userSchema expectedCount (polls ++ [some (.ok l)])) := by
  have hmem : baselineOf (polls ++ [some (.ok l)]) ∈ listings (polls ++ [some (.ok l)]) :=
    baselineOf_mem mem_listings_ok
  obtain ⟨hok, hpartially⟩ := enough_iff expectedCount hcomplete.lasting_last (hdistinct _ hmem)
    (hdistinct l mem_listings_ok) hcounts hbase
  -- the baseline is the first listing, so that a further one does not change it
  have hbefore : ∀ l' ∈ listings polls, ∀ b,
      ¬Enough userSchema expectedCount (baselineOf (polls ++ [some (.ok l)])) l' b := by
    intro l' hl' b
    rw [baselineOf_append hl']
    exact hno l' hl' b
  constructor
  · intro henough
    refine ⟨polls, l, rfl, ?_, hbefore⟩
    split
    · next hfailed => exact hpartially.2 ⟨henough, hfailed⟩
    · next hfailed => exact hok.2 ⟨henough, hfailed⟩
  · intro hfew l' hl' b
    rw [listings_ok] at hl'
    rcases List.mem_append.1 hl' with hl' | hl'
    · exact hbefore l' hl' b
    · rw [List.mem_singleton.1 hl']
      match b with
      | .ok => exact fun hb => hfew (hok.1 hb).1
      | .partially => exact fun hb => hfew (hpartially.1 hb).1
      | .timeout => exact id

end Polls

/-! ## The wait -/

/-- The time that an operation lasts at most. -/
def Op.waits : Op → Option Int
  | .sleep ms => some ms
  | .listJobs _ _ ms => some ms
  | _ => none

/-- An operation of the wait: its offsets are those of an `i32`, and it does not last
    longer than until the deadline. -/
def WithinDeadline (deadline : Int) (h : History) (o : Op) : Prop :=
  (∀ r t ms, o = .listJobs r t ms → 0 ≤ r.offset ∧ r.offset + r.limit < 2 ^ 31) ∧
    ∀ ms, o.waits = some ms → 0 < ms ∧ ∀ c, clock c h + ms ≤ deadline

/-- The numbers of the jobs counted, and what is computed of them, are those of an
    `i32`. -/
def Fitting (schemaPrefix : String) (first l : List JobInfo) : Prop :=
  let counts := countTerminalJobsForSchema l schemaPrefix
  let base := countTerminalJobsForSchema first schemaPrefix
  ∀ x ∈ [counts.1, counts.2, counts.1 - base.1, counts.2 - base.2,
    counts.1 - base.1 + (counts.2 - base.2)], -2 ^ 31 ≤ x ∧ x < 2 ^ 31

/-- How a wait ended, after these polls: with the last one, if it was decided by it,
    and else not before the deadline. -/
structure Waited (userSchema : String) (sinceMs expectedCount deadline : Int) (h : History)
    (polls : List Poll) (a : AwaitStatus) : Prop where
  polled : Polled sinceMs h polls
  outcome : Complete (listings polls) → Decided userSchema expectedCount polls a ∨
    a = .timeout ∧ Undecided userSchema expectedCount polls
  last : a ≠ .timeout → ∃ before es timeoutMs x, h = before ++ es ∧ polls.getLast? = some x ∧
    (listExtractionJobsPaged sinceMs timeoutMs).Gives es (.ok x)
  expired : a = .timeout → Expired deadline h

section Wait

variable {h : History} {userSchema : String} {sinceMs expectedCount deadline : Int}
  {polls : List Poll}

theorem withinDeadline_instant : WithinDeadline deadline h .instant :=
  ⟨fun _ _ _ ho => (by cases ho), fun _ ho => by cases ho⟩

theorem clock_instant {c now : Int} : clock c (h ++ [⟨.instant, now⟩]) = now := clock_append

/-- A poll keeps within the deadline, and comes to a listing. -/
theorem poll_returns {now : Int} (hnow : now < deadline) :
    Returns (WithinDeadline deadline) (fun h' x => ∃ es, h' = h ++ [⟨.instant, now⟩] ++ es ∧
      Listed (deadline - now) es x ∧
      (listExtractionJobsPaged sinceMs (deadline - now)).Gives es (.ok x))
      (h ++ [⟨.instant, now⟩]) (listExtractionJobsPaged sinceMs (deadline - now)) := by
  have hwithin : ∀ es o, Paging sinceMs (deadline - now) es o ∧ (∀ c, clock c es = c) →
      WithinDeadline deadline (h ++ [⟨.instant, now⟩] ++ es) o := by
    rintro es o ⟨⟨-, rfl, hoffset⟩, hclock⟩
    constructor
    · rintro r t ms ho
      cases ho
      exact ⟨Int.mul_nonneg (by decide) (Int.natCast_nonneg _), hoffset⟩
    · rintro ms ho
      cases ho
      refine ⟨by omega, fun c => ?_⟩
      rw [clock_append, clock_instant, hclock]
      omega
  refine (Returns.gives (Returns.append listExtractionJobsPaged_returns hwithin)).mono ?_
  rintro h' x ⟨⟨es, rfl, hlisted⟩, es', he, hes⟩
  rw [List.append_cancel_left he] at hlisted ⊢
  exact ⟨es', rfl, hlisted, hes⟩

/-- The rounds that are left, after the polls in the history. -/
theorem awaitExtraction_returns {rounds : ℕ} {baseline : Option (Int × Int)}
    (hpolled : Polled sinceMs h polls)
    (hdistinct : ∀ l ∈ listings polls, (l.map (·.jobId)).Nodup)
    (hbaseline : baseline = (listings polls).head?.map fun l =>
      countTerminalJobsForSchema l (userSchema ++ ":"))
    (hno : Complete (listings polls) → Undecided userSchema expectedCount polls)
    (ht : InTime deadline rounds h) :
    Returns (WithinDeadline deadline) (fun h' a => ∃ polls,
      Waited userSchema sinceMs expectedCount deadline h' polls a) h
      (awaitExtraction (userSchema ++ ":") sinceMs deadline expectedCount rounds baseline) := by
  induction rounds generalizing h polls baseline with
  | zero =>
    exact Returns.pure ⟨polls, hpolled, fun hcomplete => .inr ⟨rfl, hno hcomplete⟩,
      fun he => absurd rfl he, fun _ => ht.expired_of_zero⟩
  | succ rounds ih =>
    refine perf_returns_then withinDeadline_instant fun (now : Int) => ?_
    have hinstant := hpolled.then_pause (pausing_instant (t := now))
    refine ite_returns (fun hnow => ?_) fun hnow => ?_
    · exact Returns.pure ⟨polls, hinstant, fun hcomplete => .inr ⟨rfl, hno hcomplete⟩,
        fun he => absurd rfl he, fun _ => expired_instant hnow⟩
    refine Returns.bind (poll_returns (lt_of_not_ge hnow)) ?_
    rintro h' x ⟨es, rfl, hlisted, hes⟩
    have hpoll := hinstant.then_poll hes
    have hrest : ∀ {polls' baseline'}, Polled sinceMs (h ++ [⟨.instant, now⟩] ++ es) polls' →
        (∀ l ∈ listings polls', (l.map (·.jobId)).Nodup) →
        baseline' = ((listings polls').head?.map fun l =>
          countTerminalJobsForSchema l (userSchema ++ ":")) →
        (Complete (listings polls') → Undecided userSchema expectedCount polls') →
        Returns (WithinDeadline deadline) (fun h' a => ∃ polls,
          Waited userSchema sinceMs expectedCount deadline h' polls a)
          (h ++ [⟨.instant, now⟩] ++ es) (do
            sleepUntil deadline
            awaitExtraction (userSchema ++ ":") sinceMs deadline expectedCount rounds baseline') := by
      intro polls' baseline' hpolled' hdistinct' hbaseline' hno'
      refine Returns.bind (sleepUntil_returns withinDeadline_instant fun t ms hms hle => ?_) ?_
      · refine ⟨fun _ _ _ ho => (by cases ho), fun ms' ho => ?_⟩
        cases ho
        exact ⟨hms, fun c => by rwa [clock_instant]⟩
      · rintro h' _ ⟨pause, rfl, hpause, hlast⟩
        exact ih (hpolled'.then_pause hpause) hdistinct' hbaseline' hno'
          (ht.round (lt_of_not_ge hnow) hlast)
    match x with
    | none =>
      -- The time of the round, which is up, is that until the deadline.
      have hfailed : listings (polls ++ [none]) = listings polls :=
        listings_failed fun _ he => by cases he
      refine Returns.pure ⟨polls ++ [none], hpoll, fun hcomplete => .inr ⟨rfl, ?_⟩,
        fun he => absurd rfl he, fun _ c _ => ?_⟩
      · rw [hfailed] at hcomplete
        exact (hno hcomplete).failed fun _ he => by cases he
      · rw [clock_append, clock_instant, hlisted.timedOut rfl]
        omega
    | some (.error e) =>
      have hfailed : listings (polls ++ [some (.error e)]) = listings polls :=
        listings_failed fun _ he => by cases he
      refine hrest hpoll ?_ ?_ fun hcomplete => ?_
      · rwa [hfailed]
      · rwa [hfailed]
      · rw [hfailed] at hcomplete
        exact (hno hcomplete).failed fun _ he => by cases he
    | some (.ok jobs) =>
      have hdistinct' : ∀ l ∈ listings (polls ++ [some (.ok jobs)]),
          (l.map (·.jobId)).Nodup := fun l hl => by
        rw [listings_ok] at hl
        rcases List.mem_append.1 hl with hl | hl
        · exact hdistinct l hl
        · rw [List.mem_singleton.1 hl]
          exact hlisted.distinct jobs rfl
      have hbase : baseline.getD (countTerminalJobsForSchema jobs (userSchema ++ ":")) =
          countTerminalJobsForSchema (baselineOf (polls ++ [some (.ok jobs)]))
            (userSchema ++ ":") := by
        rw [hbaseline, baselineOf, listings_ok]
        cases listings polls <;> rfl
      have hdecide := fun hcomplete => decided_or_undecided hcomplete hdistinct'
        (hno hcomplete.before) rfl hbase
      refine ite_returns (fun henough => ?_) fun hfew => ?_
      · refine Returns.pure ⟨_, hpoll, fun hcomplete => .inl ((hdecide hcomplete).1 henough),
          fun _ => ⟨_, es, _, _, rfl, List.getLast?_concat, hes⟩, fun he => ?_⟩
        split at he <;> cases he
      · refine hrest hpoll hdistinct' ?_ fun hcomplete => (hdecide hcomplete).2 hfew
        rw [hbase, baselineOf, listings_ok]
        cases listings polls <;> rfl

/-- At the start there were no polls, and the rounds are enough until the deadline. -/
theorem awaitExtraction_start {start : Int} :
    Returns (WithinDeadline (start + JOB_AWAIT_TIMEOUT_SECS * 1000)) (fun h' a => ∃ polls,
      Waited userSchema sinceMs expectedCount (start + JOB_AWAIT_TIMEOUT_SECS * 1000) h' polls a)
      [⟨.instant, start⟩]
      (awaitExtraction (userSchema ++ ":") sinceMs (start + JOB_AWAIT_TIMEOUT_SECS * 1000)
        expectedCount POLL_ROUNDS none) :=
  awaitExtraction_returns (polled_of_pausing pausing_instant)
    (fun _ hl => absurd hl List.not_mem_nil) rfl (fun _ _ hl => absurd hl List.not_mem_nil)
    fun _ _ => ⟨240, rfl, le_rfl⟩

/-- The numbers of the jobs counted are within that of all jobs. -/
theorem countTerminalJobsForSchema_le (l : List JobInfo) (schemaPrefix : String) :
    0 ≤ (countTerminalJobsForSchema l schemaPrefix).1 ∧
      0 ≤ (countTerminalJobsForSchema l schemaPrefix).2 ∧
      (countTerminalJobsForSchema l schemaPrefix).1 +
        (countTerminalJobsForSchema l schemaPrefix).2 ≤ l.length := by
  rw [countTerminalJobsForSchema]
  generalize hjobs : l.filter _ = jobs
  have hsub : jobs.length ≤ l.length := hjobs ▸ List.length_filter_le _ l
  have hsplit := List.length_eq_countP_add_countP (fun j : JobInfo => j.status = JOB_STATUS_OK)
    (l := jobs)
  have hfailed : jobs.countP (fun j => j.status = JOB_STATUS_FAILED ∨
      j.status = JOB_STATUS_DEAD_LETTER) ≤
      jobs.countP fun j => ¬(decide (j.status = JOB_STATUS_OK)) = true := by
    refine List.countP_mono_left fun j _ hj => ?_
    simp only [decide_eq_true_eq] at hj ⊢
    rcases hj with hj | hj <;> rw [hj] <;> decide
  dsimp only
  omega

/-- Lists of fewer than `2 ^ 31` jobs have counts of 32 bits. -/
theorem fitting {first l : List JobInfo} {schemaPrefix : String} (hfirst : first.length < 2 ^ 31)
    (hl : l.length < 2 ^ 31) : Fitting schemaPrefix first l := by
  have hcounts := countTerminalJobsForSchema_le l schemaPrefix
  have hbase := countTerminalJobsForSchema_le first schemaPrefix
  intro x hx
  have hlc : (l.length : Int) < 2 ^ 31 := by exact_mod_cast hl
  have hfc : (first.length : Int) < 2 ^ 31 := by exact_mod_cast hfirst
  simp only [List.mem_cons, List.not_mem_nil, or_false] at hx
  omega

/-- What a wait comes to, that began at `start`, after these polls. -/
structure LowerBound (userSchema : String) (sinceMs expectedCount start : Int) (h : History)
    (polls : List Poll) (a : AwaitStatus) : Prop where
  ok : Complete (listings polls) →
    (a = .ok ↔ Decided userSchema expectedCount polls .ok)
  partially : Complete (listings polls) →
    (a = .partially ↔ Decided userSchema expectedCount polls .partially)
  timeout : Complete (listings polls) →
    (a = .timeout ↔ Undecided userSchema expectedCount polls)
  last : a ≠ .timeout → ∃ before es timeoutMs x, h = before ++ es ∧ polls.getLast? = some x ∧
    (listExtractionJobsPaged sinceMs timeoutMs).Gives es (.ok x)
  expired : a = .timeout → Expired (start + JOB_AWAIT_TIMEOUT_SECS * 1000) h
  fitting : Complete (listings polls) → ∀ l ∈ listings polls,
    Fitting (userSchema ++ ":") (baselineOf polls) l

/-- The wait for so many jobs of a schema ends at the first listing at which so many
    jobs of it came to a final status since the first listing, if there is one: with
    `ok` if they are completed and none failed since, with `partially` if one of them
    failed. Else it ends at the deadline, and it waits for nothing any longer. -/
theorem lower_bound_wait (hpos : 0 < expectedCount) :
    Returns (fun h o => ∀ start : Int, h.head? = some ⟨Op.instant, start⟩ →
        WithinDeadline (start + JOB_AWAIT_TIMEOUT_SECS * 1000) h o)
      (fun h a => ∃ skewedSinceMs start : Int,
        skewedSinceMs = max (sinceMs - SINCE_MS_SKEW_MARGIN) (-2 ^ 63) ∧
        h.head? = some ⟨.instant, start⟩ ∧ (∃ polls, Polled skewedSinceMs h polls) ∧
        ∀ polls, Polled skewedSinceMs h polls →
          LowerBound userSchema skewedSinceMs expectedCount start h polls a) []
      (awaitExtractionJobsForSchema userSchema sinceMs expectedCount) := by
  refine ite_returns (fun hle => absurd hle (not_le_of_gt hpos)) fun _ => ?_
  refine perf_returns_then (fun start he => by cases he) fun (start : Int) => ?_
  refine (Returns.gives (Prog.Logs.imp (Prog.Logs.after awaitExtraction_start) ?_)).mono ?_
  · rintro h o ⟨ho, es, rfl⟩ start' he
    cases he
    exact ho
  · rintro h a ⟨⟨polls, hwaited⟩, es, rfl, -⟩
    refine ⟨_, start, rfl, rfl, ⟨polls, hwaited.polled⟩, fun polls' hpolled => ?_⟩
    obtain rfl := hwaited.polled.unique hpolled
    refine ⟨fun hcomplete => ?_, fun hcomplete => ?_, fun hcomplete => ?_, hwaited.last,
      hwaited.expired, fun hcomplete l hl => ?_⟩
    · exact eq_iff_decided (hwaited.outcome hcomplete) (by decide)
    · exact eq_iff_decided (hwaited.outcome hcomplete) (by decide)
    · exact eq_timeout_iff (hwaited.outcome hcomplete)
    · exact fitting (hcomplete.counted _ (baselineOf_mem hl)) (hcomplete.counted l hl)

end Wait

/-- A listing of one job. -/
def oneJob (status : String) : List JobInfo := [⟨"j", status, 0, some "u:1"⟩]

/-- A poll that begins at `now`. -/
def onePoll (now : Int) (status : String) : History :=
  [⟨.instant, now⟩, ⟨requestPage (-5000) (120000 - now) 0, .reply (.ok ⟨oneJob status, 1⟩)⟩]

/-- A job is running at the first poll, and completed at the second one. -/
def twoPolls : History :=
  [⟨.instant, (0 : Int)⟩] ++ onePoll 0 "running" ++ [⟨.instant, (10 : Int)⟩, ⟨.sleep 500, ()⟩] ++
    onePoll 510 "completed"

/-- The wait for one job is over when it is completed. -/
theorem lower_bound_wait_one :
    (awaitExtractionJobsForSchema "u" 0 1).Gives twoPolls (.ok .ok) ∧
      Decided "u" 1 [some (.ok (oneJob "running")), some (.ok (oneJob "completed"))] .ok := by
  have hgives : (awaitExtractionJobsForSchema "u" 0 1).Gives twoPolls (.ok .ok) :=
    ⟨_, rfl, _, rfl, _, rfl, _, rfl, _, rfl, _, rfl, _, rfl, rfl⟩
  have hwait := Prog.Logs.of_gives (lower_bound_wait (by decide)) hgives
  obtain ⟨a, ha, skewedSinceMs, start, rfl, -, -, hpolls⟩ := hwait
  cases ha
  have hpoll : ∀ {e : Exchange ToolSig} {h polls timeoutMs x},
      (listExtractionJobsPaged (-5000) timeoutMs).Gives [e] (.ok x) → Polled (-5000) h polls →
      Polled (-5000) (e :: h) (x :: polls) := fun he hp => .poll he hp
  have hpolled : Polled (-5000) twoPolls
      [some (.ok (oneJob "running")), some (.ok (oneJob "completed"))] := by
    refine .pause pausing_instant (.pause pausing_instant (hpoll ⟨_, rfl, rfl⟩ ?_))
    refine .pause pausing_instant (.pause (fun e he => .inr ⟨500, ?_⟩) ?_)
    · rw [List.mem_singleton.1 he]
    · exact .pause pausing_instant (hpoll ⟨_, rfl, rfl⟩ .nil)
  have hcomplete : Complete [oneJob "running", oneJob "completed"] := by
    refine ⟨?_, by decide⟩
    rw [List.pairwise_pair]
    unfold Lasting
    decide
  exact ⟨hgives, ((hpolls _ hpolled).ok hcomplete).1 rfl⟩

end LlmMemory.Vegapunk
