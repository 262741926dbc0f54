import LlmMemory.Lib.Pages
import LlmMemory.Vegapunk.Clock

/-!
# Listings of jobs

`list_extraction_jobs_paged` asks for the pages one after the other (`Paging`),
whatever it is answered. If the server gives the pages of a list that only grows
at its head, each job that was listed at first is in the result, as it was listed
last (`paged_listing`).
-/

namespace LlmMemory.Vegapunk

open Effects Pages

/-- The request for the `n`-th page. -/
abbrev requestPage (sinceMs timeoutMs : Int) (n : ℕ) : Op :=
  .listJobs ⟨sinceMs, LIST_JOBS_PAGE_SIZE * n, LIST_JOBS_PAGE_SIZE, "entity_extraction"⟩
    (LIST_JOBS_RPC_TIMEOUT_SECS * 1000) timeoutMs

/-- The requests are for one page after the other, of those that the cap allows, and
    the offset after the page still is an `i32`. -/
def Paging (sinceMs timeoutMs : Int) (h : History) (o : Op) : Prop :=
  (h.length : Int) < LIST_JOBS_HARD_CAP / LIST_JOBS_PAGE_SIZE ∧
    o = requestPage sinceMs timeoutMs h.length ∧
    LIST_JOBS_PAGE_SIZE * h.length + LIST_JOBS_PAGE_SIZE < 2 ^ 31

/-- What the server answers a request for a page, where it has these jobs. -/
def pageOf (jobs : List JobInfo) (r : ListJobsRequest) : ListJobsResponse :=
  ⟨(jobs.drop r.offset.toNat).take r.limit.toNat, jobs.length⟩

/-- The `i`-th request is answered with a page of the jobs that there were then. -/
def Served (S : ℕ → List JobInfo) (h : History) : Prop :=
  ∀ i (e : Exchange ToolSig), h[i]? = some e → ∃ r timeoutMs roundTimeoutMs,
    e = ⟨.listJobs r timeoutMs roundTimeoutMs, .reply (.ok (pageOf (S i) r))⟩

/-- The jobs of the `i`-th page. -/
def observed (S : ℕ → List JobInfo) (i : ℕ) : List JobInfo :=
  Pages.page LIST_JOBS_PAGE_SIZE.toNat i (S i)

/-- The jobs of the first `n` pages, each one as it was listed last. -/
abbrev gathered (S : ℕ → List JobInfo) (n : ℕ) : List JobInfo :=
  collected (·.jobId) LIST_JOBS_PAGE_SIZE.toNat S n

/-- What a listing comes to: each job once; or nothing, if its time is up; and if the
    requests were served, the jobs of all pages, the last of which reached the end of
    the list. -/
structure Listed (timeoutMs : Int) (h : History) (x : Option (Except Status (List JobInfo))) :
    Prop where
  distinct : ∀ jobs, x = some (.ok jobs) → (jobs.map (·.jobId)).Nodup
  timedOut : x = none → ∀ c, clock c h = c + timeoutMs
  served : ∀ S : ℕ → List JobInfo, (∀ i, (S i).length ≤ LIST_JOBS_HARD_CAP) → Served S h →
    ∃ n, h.length = n + 1 ∧ x = some (.ok (gathered S (n + 1))) ∧
      (S n).length ≤ LIST_JOBS_PAGE_SIZE * (n + 1)

section Listing

variable {S : ℕ → List JobInfo} {h : History} {sinceMs timeoutMs : Int}

theorem served_append {e : Exchange ToolSig} (hs : Served S (h ++ [e])) :
    Served S h ∧ ∃ r timeoutMs roundTimeoutMs,
      e = ⟨.listJobs r timeoutMs roundTimeoutMs, .reply (.ok (pageOf (S h.length) r))⟩ := by
  refine ⟨fun i e he => hs i e ?_, hs h.length e ?_⟩
  · rw [List.getElem?_append_left (List.getElem?_eq_some_iff.1 he).1, he]
  · rw [List.getElem?_append_right le_rfl, Nat.sub_self]
    rfl

/-- A listing whose last request was not answered with jobs was not served. -/
theorem Listed.failed {n : ℕ} {r : ListJobsReply} {x : Option (Except Status (List JobInfo))}
    (hclock : ∀ c, clock c h = c) (hx : ∀ jobs, x ≠ some (.ok jobs))
    (hnone : x = none → r = .roundTimedOut) (hr : ∀ inner, r ≠ .reply (.ok inner)) :
    Listed timeoutMs (h ++ [⟨requestPage sinceMs timeoutMs n, r⟩]) x := by
  refine ⟨fun jobs he => absurd he (hx jobs), fun he c => ?_, fun S _ hs => ?_⟩
  · rw [clock_append, hclock, hnone he]
    rfl
  · obtain ⟨-, req, t, t', he⟩ := served_append hs
    cases he
    exact absurd rfl (hr _)

/-- The cap after a response: the greatest that was seen. -/
def capAfter (effectiveCap : Option Int) (inner : ListJobsResponse) : Int :=
  match effectiveCap with
  | some c => max c (min inner.totalCount LIST_JOBS_HARD_CAP)
  | none => min inner.totalCount LIST_JOBS_HARD_CAP

/-- The cap is no less than what was listed last. -/
theorem min_le_capAfter {effectiveCap : Option Int} {inner : ListJobsResponse} :
    min inner.totalCount LIST_JOBS_HARD_CAP ≤ capAfter effectiveCap inner := by
  cases effectiveCap with
  | none => exact le_rfl
  | some c => exact le_max_right _ _

theorem capAfter_le {effectiveCap : Option Int} (inner : ListJobsResponse)
    (h : ∀ c, effectiveCap = some c → c ≤ LIST_JOBS_HARD_CAP) :
    capAfter effectiveCap inner ≤ LIST_JOBS_HARD_CAP := by
  cases effectiveCap with
  | none => exact min_le_right _ _
  | some c => exact max_le (h c rfl) (min_le_right _ _)

/-- What is done about the answer to a request for a page. -/
def afterPage (sinceMs timeoutMs : Int) (pages : ℕ) (offset : Int) (effectiveCap : Option Int)
    (byId : List JobInfo) : ListJobsReply → Tool (Option (Except Status (List JobInfo)))
  | .roundTimedOut => pure none
  | .rpcTimedOut => pure (some (.error ⟨.deadlineExceeded, "list_jobs rpc timed out"⟩))
  | .reply (.error s) => pure (some (.error s))
  | .reply (.ok inner) =>
    if inner.jobs.length < LIST_JOBS_PAGE_SIZE ∨
        capAfter effectiveCap inner ≤ offset + LIST_JOBS_PAGE_SIZE then
      pure (some (.ok (Rows.merge (·.jobId) byId inner.jobs)))
    else
      listPages sinceMs timeoutMs pages (offset + LIST_JOBS_PAGE_SIZE)
        (some (capAfter effectiveCap inner)) (Rows.merge (·.jobId) byId inner.jobs)

/-- A page, and what is done about it. -/
theorem listPages_succ {pages : ℕ} {offset : Int} {effectiveCap : Option Int}
    {byId : List JobInfo} :
    listPages sinceMs timeoutMs (pages + 1) offset effectiveCap byId =
      perf (.listJobs ⟨sinceMs, offset, LIST_JOBS_PAGE_SIZE, "entity_extraction"⟩
        (LIST_JOBS_RPC_TIMEOUT_SECS * 1000) timeoutMs) >>=
      afterPage sinceMs timeoutMs pages offset effectiveCap byId := by
  rw [listPages]
  refine congrArg _ (funext fun x => ?_)
  cases x with
  | roundTimedOut => rfl
  | rpcTimedOut => rfl
  | reply r =>
    cases r with
    | error s => rfl
    | ok inner =>
      rw [afterPage]
      by_cases hshort : (inner.jobs.length : Int) < LIST_JOBS_PAGE_SIZE
      · rw [if_pos (.inl hshort)]
        exact if_pos hshort
      · by_cases hend : capAfter effectiveCap inner ≤ offset + LIST_JOBS_PAGE_SIZE
        · rw [if_pos (.inr hend)]
          exact (if_neg hshort).trans (if_pos hend)
        · rw [if_neg (not_or.2 ⟨hshort, hend⟩)]
          exact (if_neg hshort).trans (if_neg hend)

/-- More pages do not matter: the cap ends the listing before. -/
theorem listPages_enough {pages more : ℕ} {offset : Int} {effectiveCap : Option Int}
    {byId : List JobInfo} (hpages : 0 < pages)
    (hoffset : offset + LIST_JOBS_PAGE_SIZE * pages = LIST_JOBS_HARD_CAP)
    (hcap : ∀ c, effectiveCap = some c → c ≤ LIST_JOBS_HARD_CAP) :
    listPages sinceMs timeoutMs (pages + more) offset effectiveCap byId =
      listPages sinceMs timeoutMs pages offset effectiveCap byId := by
  induction pages generalizing offset effectiveCap byId with
  | zero => exact absurd hpages (lt_irrefl 0)
  | succ pages ih =>
    rw [Nat.succ_add, listPages_succ, listPages_succ]
    refine congrArg _ (funext fun x => ?_)
    cases x with
    | roundTimedOut => rfl
    | rpcTimedOut => rfl
    | reply r =>
      cases r with
      | error s => rfl
      | ok inner =>
        rw [afterPage, afterPage]
        split
        · rfl
        · next hgo =>
          -- There is a page left, for the cap is not reached.
          have hle := capAfter_le inner hcap
          have hlt := lt_of_not_ge (not_or.1 hgo).2
          rw [Nat.cast_succ, Int.mul_add, Int.mul_one] at hoffset
          have hleft : 0 < pages := by
            refine Nat.pos_of_ne_zero fun hzero => ?_
            subst hzero
            simp only [Nat.cast_zero, Int.mul_zero] at hoffset
            omega
          refine ih hleft ?_ fun c hc => Option.some.inj hc ▸ hle
          rw [← hoffset, Int.add_assoc, Int.add_comm LIST_JOBS_PAGE_SIZE]

/-- A page that was served is the one observed. -/
theorem jobs_pageOf {k : ℕ} {since : Int} {jobType : String} :
    (pageOf (S k) ⟨since, LIST_JOBS_PAGE_SIZE * k, LIST_JOBS_PAGE_SIZE, jobType⟩).jobs =
      observed S k := by
  have hoffset : (LIST_JOBS_PAGE_SIZE * k).toNat = LIST_JOBS_PAGE_SIZE.toNat * k := by
    rw [Int.toNat_mul (by decide) (Int.natCast_nonneg k), Int.toNat_natCast]
  rw [pageOf, observed, Pages.page, hoffset]

/-- With the next page, the jobs of one more page are gathered. -/
theorem gathered_append {byId : List JobInfo} {x : ListJobsReply} {inner : ListJobsResponse}
    (hx : x = .reply (.ok inner)) (hbyId : Served S h → byId = gathered S h.length)
    (hs : Served S (h ++ [⟨requestPage sinceMs timeoutMs h.length, x⟩])) :
    inner = ⟨observed S h.length, (S h.length).length⟩ ∧
      Rows.merge (·.jobId) byId inner.jobs = gathered S (h.length + 1) := by
  subst hx
  obtain ⟨hbefore, req, t, t', he⟩ := served_append hs
  cases he
  refine ⟨by rw [← jobs_pageOf]; rfl, ?_⟩
  rw [jobs_pageOf, hbyId hbefore]
  rfl

/-- The list ends with a page after which no other is asked for. -/
theorem length_le_of_stop {n : ℕ} {offset : Int} {effectiveCap : Option Int}
    {inner : ListJobsResponse} (hoffset : offset = LIST_JOBS_PAGE_SIZE * n)
    (hinner : inner = ⟨observed S n, (S n).length⟩) (hS : (S n).length ≤ LIST_JOBS_HARD_CAP)
    (hstop : inner.jobs.length < LIST_JOBS_PAGE_SIZE ∨
      capAfter effectiveCap inner ≤ offset + LIST_JOBS_PAGE_SIZE) :
    (S n).length ≤ LIST_JOBS_PAGE_SIZE * (n + 1) := by
  have hsize : LIST_JOBS_PAGE_SIZE = 500 := rfl
  have hnat : LIST_JOBS_PAGE_SIZE.toNat = 500 := rfl
  subst hinner
  rcases hstop with hshort | hcap
  · -- The page is the end of the list.
    simp only [observed, Pages.page, List.length_take, List.length_drop, hnat] at hshort
    rw [hsize] at hshort ⊢
    omega
  · have hmin := min_le_capAfter.trans hcap
    rw [min_eq_left hS, hoffset] at hmin
    rw [Int.mul_add, Int.mul_one]
    exact hmin

/-- An answer without jobs ends the listing, and so does the last page. -/
theorem afterPage_cases {pages : ℕ} {offset : Int} {effectiveCap : Option Int}
    {byId : List JobInfo} (x : ListJobsReply) :
    (∃ v, afterPage sinceMs timeoutMs pages offset effectiveCap byId x = pure v ∧
      (∀ jobs, v ≠ some (.ok jobs)) ∧ (v = none → x = .roundTimedOut) ∧
      ∀ inner, x ≠ .reply (.ok inner)) ∨
    ∃ inner, x = .reply (.ok inner) ∧
      (((inner.jobs.length < LIST_JOBS_PAGE_SIZE ∨
          capAfter effectiveCap inner ≤ offset + LIST_JOBS_PAGE_SIZE) ∧
        afterPage sinceMs timeoutMs pages offset effectiveCap byId x =
          pure (some (.ok (Rows.merge (·.jobId) byId inner.jobs)))) ∨
      afterPage sinceMs timeoutMs pages offset effectiveCap byId x =
        listPages sinceMs timeoutMs pages (offset + LIST_JOBS_PAGE_SIZE)
          (some (capAfter effectiveCap inner)) (Rows.merge (·.jobId) byId inner.jobs)) := by
  match x with
  | .roundTimedOut =>
    exact .inl ⟨_, rfl, fun _ he => (by cases he), fun _ => rfl, fun _ he => by cases he⟩
  | .rpcTimedOut =>
    exact .inl ⟨_, rfl, fun _ he => (by cases he), fun he => (by cases he), fun _ he => by cases he⟩
  | .reply (.error s) =>
    exact .inl ⟨_, rfl, fun _ he => (by cases he), fun he => (by cases he), fun _ he => by cases he⟩
  | .reply (.ok inner) =>
    refine .inr ⟨inner, rfl, ?_⟩
    by_cases hstop : inner.jobs.length < LIST_JOBS_PAGE_SIZE ∨
        capAfter effectiveCap inner ≤ offset + LIST_JOBS_PAGE_SIZE
    · refine .inl ⟨hstop, ?_⟩
      rw [afterPage, if_pos hstop]
    · refine .inr ?_
      rw [afterPage, if_neg hstop]

/-- The pages that are left, after those in the history. The clock is not read. -/
theorem listPages_returns {pages : ℕ} (effectiveCap : Option Int) {byId : List JobInfo}
    (hclock : ∀ c, clock c h = c)
    (hpages : (h.length : Int) + pages = LIST_JOBS_HARD_CAP / LIST_JOBS_PAGE_SIZE)
    (hdistinct : (byId.map (·.jobId)).Nodup)
    (hbyId : ∀ S, Served S h → byId = gathered S h.length) (hh : pages = 0 → h ≠ []) :
    Returns (fun h o => Paging sinceMs timeoutMs h o ∧ ∀ c, clock c h = c) (Listed timeoutMs)
      h (listPages sinceMs timeoutMs pages (LIST_JOBS_PAGE_SIZE * h.length) effectiveCap byId) := by
  have hsize : LIST_JOBS_PAGE_SIZE = 500 := rfl
  have hmax : LIST_JOBS_HARD_CAP = 50000 := rfl
  have hcount : (h.length : Int) + pages = 100 := hpages
  induction pages generalizing h effectiveCap byId with
  | zero =>
    refine Returns.pure ⟨fun jobs he => ?_, fun he => (by cases he), fun S hS hs => ?_⟩
    · cases he
      exact hdistinct
    · -- All pages that the cap allows were served.
      obtain ⟨n, hn⟩ := Nat.exists_eq_succ_of_ne_zero (mt List.length_eq_zero_iff.1 (hh rfl))
      refine ⟨n, hn, by rw [hbyId S hs, hn], (hS n).trans ?_⟩
      rw [hsize, hmax]
      omega
  | succ pages ih =>
    rw [listPages_succ]
    refine perf_returns_then ⟨⟨lt_of_lt_of_eq (by omega) hpages, rfl, ?_⟩, hclock⟩ fun x => ?_
    · rw [hsize]
      omega
    have hlength : (h ++ [(⟨requestPage sinceMs timeoutMs h.length, x⟩ :
        Exchange ToolSig)]).length = h.length + 1 := List.length_append
    rcases afterPage_cases x with ⟨v, heq, hv, hnone, hx⟩ | ⟨inner, hx, ⟨hstop, heq⟩ | heq⟩
    · rw [heq]
      exact Returns.pure (Listed.failed hclock hv hnone hx)
    · rw [heq]
      refine Returns.pure ⟨fun jobs he => ?_, fun he => (by cases he), fun S hS hs => ?_⟩
      · cases he
        exact Rows.nodup_merge hdistinct
      -- the last page: it is short, or at the cap
      · obtain ⟨hinner, hall⟩ := gathered_append hx (hbyId S) hs
        exact ⟨h.length, hlength, by rw [hall], length_le_of_stop rfl hinner (hS _) hstop⟩
    · rw [heq]
      have hclock' : ∀ c, clock c (h ++ [⟨requestPage sinceMs timeoutMs h.length, x⟩]) = c := by
        intro c
        rw [clock_append, hclock, hx]
        rfl
      have hrest := ih (some (capAfter effectiveCap inner)) hclock'
        (by rw [hlength]; omega) (Rows.nodup_merge hdistinct)
        (fun S hs => (gathered_append hx (hbyId S) hs).2.trans (by rw [hlength]))
        (fun _ => by simp) (by rw [hlength]; omega)
      rw [hlength, Nat.cast_succ, Int.mul_add, Int.mul_one] at hrest
      exact hrest

/-- The listing comes to all pages, at any time. -/
theorem listExtractionJobsPaged_returns :
    Returns (fun h o => Paging sinceMs timeoutMs h o ∧ ∀ c, clock c h = c) (Listed timeoutMs) []
      (listExtractionJobsPaged sinceMs timeoutMs) :=
  listPages_returns (h := []) none (fun _ => rfl) rfl List.nodup_nil (fun _ _ => rfl)
    fun hpages => by cases hpages

/-- If new jobs only come at the head of the list, no job of the first list is
    missed: it is in the result once, as it was on the last page that had it. -/
theorem Listed.complete {x : Option (Except Status (List JobInfo))} (hx : Listed timeoutMs h x)
    (hgrows : ∀ i, Grows (·.jobId) (S i) (S (i + 1)))
    (hS : ∀ i, (S i).length ≤ LIST_JOBS_HARD_CAP) (hs : Served S h) :
    ∃ jobs, x = some (.ok jobs) ∧ ∀ j ∈ S 0, ∃ i < h.length, ∃ y ∈ observed S i,
      y.jobId = j.jobId ∧ jobs.filter (fun z => z.jobId = j.jobId) = [y] ∧
      ∀ i', i < i' → i' < h.length → ∀ z ∈ observed S i', z.jobId ≠ j.jobId := by
  obtain ⟨n, hn, rfl, hend⟩ := hx.served S hS hs
  refine ⟨_, rfl, fun j hj => ?_⟩
  have hend' : (S n).length ≤ LIST_JOBS_PAGE_SIZE.toNat * (n + 1) := by
    have hsize : LIST_JOBS_PAGE_SIZE = 500 := rfl
    have hnat : LIST_JOBS_PAGE_SIZE.toNat = 500 := rfl
    rw [hsize] at hend
    rw [hnat]
    omega
  have hread := exists_read hgrows (List.mem_map_of_mem (f := (·.jobId)) hj) hend'
  obtain ⟨i, hi, y, hy, hid, hmem, hlater⟩ := mem_collected
    (hread.imp fun i hi => ⟨Nat.lt_succ_of_le hi.1, hi.2⟩)
  refine ⟨i, hn ▸ hi, y, hy, hid, ?_, fun i' hlt hlt' z hz he => ?_⟩
  · rw [← hid]
    exact Rows.filter_key_of_mem nodup_collected hmem
  · exact hlater i' hlt (hlt'.trans_eq hn) (he ▸ List.mem_map_of_mem hz)

/-- What a listing does, and comes to, whatever it is answered. There are no more
    requests than pages within the cap, which is what ends the loop: to allow it more
    does not matter. Where the server gives the pages of its list, of as many jobs as
    the cap at most, and new jobs come at the head of the list (and those that it had
    are changed in any way), each job of the first list is in the result once, as it
    was on the last page that had it.

    (The order of the list does not matter for this.) -/
theorem paged_listing :
    Returns (Paging sinceMs timeoutMs)
      (fun h x => (h.length : Int) ≤ LIST_JOBS_HARD_CAP / LIST_JOBS_PAGE_SIZE ∧
        ∀ S : ℕ → List JobInfo, (∀ i, Grows (·.jobId) (S i) (S (i + 1))) →
          (∀ i, (S i).length ≤ LIST_JOBS_HARD_CAP) → Served S h →
          ∃ jobs, x = some (.ok jobs) ∧ ∀ j ∈ S 0, ∃ i < h.length, ∃ y ∈ observed S i,
            y.jobId = j.jobId ∧ jobs.filter (fun z => z.jobId = j.jobId) = [y] ∧
            ∀ i', i < i' → i' < h.length → ∀ z ∈ observed S i', z.jobId ≠ j.jobId) []
      (listExtractionJobsPaged sinceMs timeoutMs) ∧
    ∀ pages, (LIST_JOBS_HARD_CAP / LIST_JOBS_PAGE_SIZE).toNat ≤ pages →
      listPages sinceMs timeoutMs pages 0 none [] = listExtractionJobsPaged sinceMs timeoutMs := by
  constructor
  · have hpaging : Returns (Paging sinceMs timeoutMs) (Listed timeoutMs) []
        (listExtractionJobsPaged sinceMs timeoutMs) :=
      Prog.Logs.imp listExtractionJobsPaged_returns fun _ _ => And.left
    have hcalls := Prog.Logs.length_le (n := (LIST_JOBS_HARD_CAP / LIST_JOBS_PAGE_SIZE).toNat)
      hpaging (fun h o ho => by have hlt := ho.1; omega) (Nat.zero_le _)
    refine hcalls.mono ?_
    rintro h x ⟨hle, x, rfl, hx⟩
    exact ⟨x, rfl, (Int.le_toNat (by decide)).1 hle, fun S hgrows hS hs =>
      hx.complete hgrows hS hs⟩
  · intro pages hpages
    obtain ⟨more, rfl⟩ := Nat.exists_eq_add_of_le hpages
    exact listPages_enough (by decide) rfl fun c hc => by cases hc

end Listing

end LlmMemory.Vegapunk
