import LlmMemory.Lib.Agreement
import LlmMemory.Vegapunk.Guard

/-!
# Details suppressed

The message of a status goes to the client only if its code is one that the client can
act on (`messageIsClientSafe`). Of the other statuses the message is suppressed, and of
the errors in the background (polling, listing jobs, the language model) all is.

Answers are *alike* (`Op.alike`) if they only differ in what is suppressed. No handler
tells such answers apart (`handle_agrees`): in any two runs by the same moves, but for
answers that are alike, all requests are answered the same, and the same is done
(`details_suppressed`).
-/

namespace LlmMemory.Vegapunk

open Effects Runs Serving

/-! ## Answers that are alike -/

/-- The code is the same, and so is the message, if it is for clients. -/
structure Status.Alike (s s' : Status) : Prop where
  code : s.code = s'.code
  message : messageIsClientSafe s.code = true → s.message = s'.message

/-- The same response, or statuses that are alike. -/
def StatusAlike {α : Type} : Except Status α → Except Status α → Prop
  | .ok a, .ok b => a = b
  | .error s, .error s' => s.Alike s'
  | _, _ => False

/-- The same response, or any two errors. -/
def FailureAlike {α : Type} : Except Status α → Except Status α → Prop
  | .ok a, .ok b => a = b
  | .error _, .error _ => True
  | _, _ => False

/-- What a round of polling makes of a reply. -/
def ListJobsReply.outcome : ListJobsReply → Option (Except Unit ListJobsResponse)
  | .roundTimedOut => none
  | .rpcTimedOut => some (.error ())
  | .reply (.error _) => some (.error ())
  | .reply (.ok r) => some (.ok r)

/-- The same value, or any two failures. -/
def GeminiReply.Alike : GeminiReply → GeminiReply → Prop
  | .payload v, .payload v' => v = v'
  | .payload _, _ => False
  | _, .payload _ => False
  | _, _ => True

/-- The answers only differ in what is suppressed. -/
def Op.alike : (o : Op) → o.Ans → o.Ans → Prop
  | .search _, r, r' => StatusAlike r r'
  | .getSchema _, r, r' => StatusAlike r r'
  | .ingest _, r, r' => StatusAlike r r'
  | .ingestRaw _, r, r' => StatusAlike r r'
  | .queryNodes _, r, r' => StatusAlike r r'
  | .listSchemas, r, r' => StatusAlike r r'
  | .getStats _, r, r' => StatusAlike r r'
  | .getTraceableChain _, r, r' => StatusAlike r r'
  | .feedback _, r, r' => StatusAlike r r'
  | .getJobStatus _, r, r' => StatusAlike r r'
  | .pollJobStatus _ _, f, f' => ∀ id, Option.Rel FailureAlike (f id) (f' id)
  | .listJobs _ _ _, r, r' => r.outcome = r'.outcome
  | .gemini _, r, r' => r.Alike r'
  | .geminiWithin _ _, r, r' => Option.Rel GeminiReply.Alike r r'
  | _, r, r' => r = r'

/-- The inputs give answers that are alike. -/
def Input.Alike : Input → Input → Prop
  | .ok, .ok => True
  | .fail, .fail => True
  | .answer f, .answer f' => ∀ o, Option.Rel (Op.alike o) (f o) (f' o)
  | _, _ => False

/-- The parts do the same, and come to results in `Q`. -/
abbrev ToolsAlike {α β : Type} (Q : α → β → Prop) (p : Tool α) (q : Tool β) : Prop :=
  Agrees Op.alike Q p q

/-! ## Parts -/

section Parts

variable {α β γ : Type} {Q : α → β → Prop}

theorem perf_alike {o : Op} : ToolsAlike (Op.alike o) (perf o) (perf o) :=
  Agrees.call fun _ _ hr => .ok hr

/-- An operation whose answers that are alike are the same. -/
theorem perf_same {o : Op} (h : ∀ r r', Op.alike o r r' → r = r') : ToolsAlike Eq (perf o) (perf o) :=
  Agrees.call fun r r' hr => .ok (h r r' hr)

theorem same {a : α} : ToolsAlike Eq (pure a : Tool α) (pure a) := Agrees.pure rfl

/-- Two parts that come to the same, and what follows them. -/
theorem same_then {p p' : Tool γ} {f : γ → Tool α} {g : γ → Tool β} (hp : ToolsAlike Eq p p')
    (hf : ∀ a, ToolsAlike Q (f a) (g a)) : ToolsAlike Q (p >>= f) (p' >>= g) :=
  Agrees.bind hp fun a _ hab => hab ▸ hf a

theorem ite_alike {c : Prop} [Decidable c] {p p' : Tool α} {q q' : Tool β} (hp : ToolsAlike Q p q)
    (hp' : ToolsAlike Q p' q') : ToolsAlike Q (if c then p else p') (if c then q else q') := by
  split
  · exact hp
  · exact hp'

theorem built_alike {method : String} {x : Except String α} :
    ToolsAlike Eq (built method x) (built method x) := by
  cases x with
  | ok r => exact same
  | error e => exact Agrees.fail

theorem tonicErrorContent_alike {s s' : Status} (h : s.Alike s') {method : String} :
    tonicErrorContent method s = tonicErrorContent method s' := by
  rw [tonicErrorContent, tonicErrorContent, ← h.code]
  split
  · next hsafe => rw [h.message hsafe]
  · rfl

theorem StatusAlike.cases {x y : Except Status α} (h : StatusAlike x y) :
    (∃ a, x = .ok a ∧ y = .ok a) ∨ ∃ s s' : Status, x = .error s ∧ y = .error s' ∧ s.Alike s' := by
  cases x with
  | ok a =>
    cases y with
    | ok _ => exact .inl ⟨a, rfl, congrArg _ (Eq.symm h)⟩
    | error s => exact h.elim
  | error s =>
    cases y with
    | ok b => exact h.elim
    | error s' => exact .inr ⟨s, s', rfl, rfl, h⟩

/-- A status ends the call with the same content. -/
theorem orStatus_alike {method : String} {x y : Except Status α} (h : StatusAlike x y) :
    ToolsAlike Eq (orStatus method x) (orStatus method y) := by
  rcases h.cases with ⟨a, rfl, rfl⟩ | ⟨s, s', rfl, rfl, hs⟩
  · exact same
  · rw [orStatus, orStatus, tonicErrorContent_alike hs]
    exact Agrees.fail

theorem StatusAlike.toOption {x y : Except Status α} (h : StatusAlike x y) :
    x.toOption = y.toOption := by
  rcases h.cases with ⟨a, rfl, rfl⟩ | ⟨s, s', rfl, rfl, -⟩ <;> rfl

theorem pickChain_alike {x x' y y' : Except Status (List ChainLink)} (hx : StatusAlike x x')
    (hy : StatusAlike y y') : ToolsAlike Eq (pickChain x y) (pickChain x' y') := by
  rcases hx.cases with ⟨p, rfl, rfl⟩ | ⟨e, e', rfl, rfl, he⟩
  · rcases hy.cases with ⟨s, rfl, rfl⟩ | ⟨f, f', rfl, rfl, -⟩
    · exact same
    · exact same
  · rcases hy.cases with ⟨s, rfl, rfl⟩ | ⟨f, f', rfl, rfl, -⟩
    · rw [pickChain, pickChain, ← he.code, tonicErrorContent_alike he]
      exact ite_alike same Agrees.fail
    · rw [pickChain, pickChain, tonicErrorContent_alike he]
      exact Agrees.fail

end Parts

section Handlers

variable {kind : OwnershipKind} {foreignId userId schema : String} {user : AuthenticatedUser}

/-! ### Ownership -/

theorem verify_alike : ToolsAlike Eq (verify kind foreignId userId) (verify kind foreignId userId) := by
  refine same_then (perf_same fun _ _ h => h) fun x => ?_
  cases x <;> exact same

theorem record_alike : ToolsAlike Eq (record kind foreignId userId) (record kind foreignId userId) := by
  refine same_then (perf_same fun _ _ h => h) fun now =>
    same_then (perf_same fun _ _ h => h) fun x => ?_
  match x with
  | .ok true => exact same
  | .ok false => exact verify_alike
  | .error e => exact same

theorem recordSearch_alike {searchId : String} :
    ToolsAlike Eq (recordSearch user searchId) (recordSearch user searchId) := by
  refine ite_alike same (same_then record_alike fun x => ?_)
  cases x <;> exact same

theorem recordSharedSearch_alike {searchId : Option String} :
    ToolsAlike Eq (recordSharedSearch user searchId) (recordSharedSearch user searchId) := by
  cases searchId with
  | some sid => exact recordSearch_alike
  | none => exact same

theorem verifyAll_alike {ids : List String} :
    ToolsAlike Eq (verifyAll kind userId ids) (verifyAll kind userId ids) := by
  induction ids with
  | nil => exact same
  | cons id ids ih =>
    refine same_then verify_alike fun x => ?_
    match x with
    | .ok true => exact ih
    | .ok false => exact same
    | .error e => exact same

theorem recordMany_alike {foreignIds : List String} :
    ToolsAlike Eq (recordMany kind foreignIds userId) (recordMany kind foreignIds userId) := by
  refine ite_alike same (same_then (perf_same fun _ _ h => h) fun now =>
    same_then (perf_same fun _ _ h => h) fun x => ?_)
  cases x with
  | ok u => exact verifyAll_alike
  | error e => exact same

theorem checkOwner_alike {tool : String} :
    ToolsAlike Eq (checkOwner user tool kind foreignId) (checkOwner user tool kind foreignId) := by
  refine same_then verify_alike fun x => ?_
  match x with
  | .ok true => exact same
  | .ok false => exact Agrees.fail
  | .error e => exact Agrees.fail

/-! ### The catalogue and the canonicalizer -/

theorem acquire_alike :
    ToolsAlike Eq (acquireIngestSerializer schema) (acquireIngestSerializer schema) :=
  same_then (perf_same fun _ _ h => h) fun _ => perf_same fun _ _ h => h

/-- A query that fails gives no names, whatever the status. -/
theorem fetchEntityNames_alike {nodeType : String} :
    ToolsAlike Eq (fetchEntityNames schema nodeType) (fetchEntityNames schema nodeType) := by
  refine Agrees.bind perf_alike fun x y hxy => ?_
  rcases StatusAlike.cases hxy with ⟨r, rfl, rfl⟩ | ⟨s, s', rfl, rfl, -⟩ <;> exact same

theorem collectDedupCatalogue_alike {U : Unicode} {sharedSchema userSchema : String} :
    ToolsAlike Eq (collectDedupCatalogue U sharedSchema userSchema)
      (collectDedupCatalogue U sharedSchema userSchema) := by
  have hcollect : ∀ types catalogue, ToolsAlike Eq
      (collectEntities U sharedSchema userSchema types catalogue)
      (collectEntities U sharedSchema userSchema types catalogue) := by
    intro types
    induction types with
    | nil => exact fun _ => same
    | cons nodeType types ih =>
      intro catalogue
      exact same_then fetchEntityNames_alike fun _ => same_then fetchEntityNames_alike fun _ => ih _
  exact hcollect _ _

theorem scanMessage_alike {U : Unicode} {method text : String} {catalogue : DedupCatalogue} :
    ToolsAlike Eq (scanMessage U method catalogue text) (scanMessage U method catalogue text) := by
  refine Agrees.bind (Q := Eq) ?_ fun x y hxy => ?_
  · cases scanTextWithCatalogue U catalogue text with
    | some x => exact same
    | none => exact Agrees.fail
  · subst hxy
    match x with
    | .blockedByShared hit => exact Agrees.fail
    | .rewritten newText _ => exact same
    | .proceed => exact same

/-- Whatever the failure, the text stays as it is. -/
theorem replyText_alike {text : String} {r r' : GeminiReply} (h : r.Alike r') :
    replyText text r = replyText text r' := by
  cases r <;> cases r' <;> first
    | exact h.elim
    | rfl
    | exact congrArg (fun v => replyText text (.payload v)) h

theorem applyLlmCanonicalize_alike {names : List String} {text : String} :
    ToolsAlike Eq (applyLlmCanonicalize names text) (applyLlmCanonicalize names text) := by
  rw [applyLlmCanonicalize]
  split
  · exact same
  · exact Agrees.bind perf_alike fun r r' hr => Agrees.pure (replyText_alike hr)

theorem applyLlmCanonicalizeWithin_alike {timeoutMs : Int} {names : List String} {text : String} :
    ToolsAlike Eq (applyLlmCanonicalizeWithin timeoutMs names text)
      (applyLlmCanonicalizeWithin timeoutMs names text) := by
  rw [applyLlmCanonicalizeWithin]
  split
  · exact same
  · refine Agrees.bind perf_alike fun x y hxy => Agrees.pure ?_
    cases hxy with
    | none => rfl
    | some hr => exact congrArg some (replyText_alike hr)

theorem canonicalizeBefore_alike {names : List String} {text : String} {enabled exhausted : Bool}
    {deadline : Int} : ToolsAlike Eq (canonicalizeBefore names enabled deadline exhausted text)
      (canonicalizeBefore names enabled deadline exhausted text) := by
  refine ite_alike (same_then (perf_same fun _ _ h => h) fun now => ite_alike same ?_) same
  refine same_then applyLlmCanonicalizeWithin_alike fun x => ?_
  cases x <;> exact same

theorem rewriteMessages_alike {cfg : Config} {catalogue : DedupCatalogue} {names : List String}
    {enabled exhausted : Bool} {deadline : Int} {i : ℕ} {msgs : List IngestMessage} :
    ToolsAlike Eq (rewriteMessages cfg catalogue names enabled deadline i exhausted msgs)
      (rewriteMessages cfg catalogue names enabled deadline i exhausted msgs) := by
  induction msgs generalizing i exhausted with
  | nil => exact same
  | cons msg msgs ih =>
    exact same_then scanMessage_alike fun _ => same_then canonicalizeBefore_alike fun _ =>
      same_then ih fun _ => same

/-! ### Waiting for jobs -/

theorem sleepUntil_alike {deadline : Int} : ToolsAlike Eq (sleepUntil deadline) (sleepUntil deadline) :=
  same_then (perf_same fun _ _ h => h) fun _ => ite_alike same (perf_same fun _ _ h => h)

/-- The results are about the same jobs, with replies that are alike. -/
abbrev ResultsAlike : List (String × Except Status GetJobStatusResponse) →
    List (String × Except Status GetJobStatusResponse) → Prop :=
  List.Forall₂ fun x y => x.1 = y.1 ∧ FailureAlike x.2 y.2

theorem results_alike {f f' : String → Option (Except Status GetJobStatusResponse)}
    (h : ∀ id, Option.Rel FailureAlike (f id) (f' id)) (chunk : List String) :
    ResultsAlike (chunk.filterMap fun id => (f id).map fun r => (id, r))
      (chunk.filterMap fun id => (f' id).map fun r => (id, r)) := by
  induction chunk with
  | nil => exact .nil
  | cons id chunk ih =>
    have hid := h id
    rw [List.filterMap_cons, List.filterMap_cons]
    cases hf : f id with
    | none =>
      cases hf' : f' id with
      | none => exact ih
      | some r' => rw [hf, hf'] at hid; cases hid
    | some r =>
      cases hf' : f' id with
      | none => rw [hf, hf'] at hid; cases hid
      | some r' =>
        rw [hf, hf'] at hid
        cases hid with
        | some hr => exact .cons ⟨rfl, hr⟩ ih

theorem pollChunks_alike {deadline : Int} {chunks : List (List String)} :
    ToolsAlike ResultsAlike (pollChunks deadline chunks) (pollChunks deadline chunks) := by
  induction chunks with
  | nil => exact Agrees.pure .nil
  | cons chunk chunks ih =>
    refine same_then (perf_same fun _ _ h => h) fun now => ite_alike (Agrees.pure .nil) ?_
    exact Agrees.bind perf_alike fun f f' hf => Agrees.bind ih fun more more' hmore =>
      Agrees.pure (List.rel_append (results_alike hf chunk) hmore)

/-- A job whose reply is an error stays pending, whatever the error. -/
theorem settle_alike {pending : List String} {sawNonOk : Bool}
    {results results' : List (String × Except Status GetJobStatusResponse)}
    (h : ResultsAlike results results') :
    settle pending sawNonOk results = settle pending sawNonOk results' := by
  induction h generalizing pending sawNonOk with
  | nil => rfl
  | @cons x y _ _ hxy _ ih =>
    obtain ⟨id, r⟩ := x
    obtain ⟨id', r'⟩ := y
    obtain ⟨rfl, hr⟩ := hxy
    cases r with
    | ok a =>
      cases r' with
      | ok b =>
        obtain rfl : a = b := hr
        rw [settle, settle, ih, ih]
      | error e => exact hr.elim
    | error e =>
      cases r' with
      | ok b => exact hr.elim
      | error e' => exact ih

theorem awaitRounds_alike {deadline : Int} {rounds : ℕ} {pending : List String} {sawNonOk : Bool} :
    ToolsAlike Eq (awaitRounds deadline rounds pending sawNonOk)
      (awaitRounds deadline rounds pending sawNonOk) := by
  induction rounds generalizing pending sawNonOk with
  | zero => exact same
  | succ rounds ih =>
    refine ite_alike same (same_then (perf_same fun _ _ h => h) fun now => ite_alike same ?_)
    refine Agrees.bind pollChunks_alike fun results results' hresults => ?_
    rw [settle_alike hresults]
    exact ite_alike same (same_then sleepUntil_alike fun _ => ih)

theorem awaitMsgIdsComplete_alike {msgIds : List String} :
    ToolsAlike Eq (awaitMsgIdsComplete msgIds) (awaitMsgIdsComplete msgIds) := by
  rw [awaitMsgIdsComplete]
  exact ite_alike same (same_then (perf_same fun _ _ h => h) fun _ => awaitRounds_alike)

/-- The listing of the jobs, or the failure of it. -/
abbrev ListingAlike : Option (Except Status (List JobInfo)) →
    Option (Except Status (List JobInfo)) → Prop :=
  Option.Rel FailureAlike

/-- A reply that failed. -/
def ListJobsReply.failure : ListJobsReply → Option Status
  | .rpcTimedOut => some ⟨.deadlineExceeded, "list_jobs rpc timed out"⟩
  | .reply (.error s) => some s
  | _ => none

/-- Two replies are the same page, or two failures, or out of time. -/
theorem ListJobsReply.outcome_cases {x y : ListJobsReply} (h : x.outcome = y.outcome) :
    (x = .roundTimedOut ∧ y = .roundTimedOut) ∨ (∃ r, x = .reply (.ok r) ∧ y = .reply (.ok r)) ∨
      ∃ s s', x.failure = some s ∧ y.failure = some s' := by
  rcases x with (s | r) | _ | _ <;> rcases y with (s' | r') | _ | _ <;> cases h
  all_goals first
    | exact .inl ⟨rfl, rfl⟩
    | exact .inr (.inl ⟨_, rfl, rfl⟩)
    | exact .inr (.inr ⟨_, _, rfl, rfl⟩)

variable {sinceMs timeoutMs : Int}

theorem listed {jobs : List JobInfo} :
    ToolsAlike ListingAlike (pure (some (.ok jobs)) : Tool (Option (Except Status (List JobInfo))))
      (pure (some (.ok jobs))) :=
  Agrees.pure (.some rfl)

theorem listPages_alike {pages : ℕ} {offset : Int} {cap : Option Int} {byId : List JobInfo} :
    ToolsAlike ListingAlike (listPages sinceMs timeoutMs pages offset cap byId)
      (listPages sinceMs timeoutMs pages offset cap byId) := by
  induction pages generalizing offset cap byId with
  | zero => exact listed
  | succ pages ih =>
    rw [listPages]
    -- the size of a page does not matter here
    generalize LIST_JOBS_PAGE_SIZE = size
    refine Agrees.bind perf_alike fun x y hxy => ?_
    rcases ListJobsReply.outcome_cases hxy with ⟨rfl, rfl⟩ | ⟨r, rfl, rfl⟩ | ⟨s, s', hs, hs'⟩
    · exact Agrees.pure .none
    · exact ite_alike listed (ite_alike listed ih)
    · rcases x with (e | r) | _ | _ <;> cases hs <;> rcases y with (e' | r') | _ | _ <;> cases hs' <;>
        exact Agrees.pure (.some trivial)

theorem awaitExtraction_alike {schemaPrefix : String} {deadline expectedCount : Int}
    {rounds : ℕ} {baseline : Option (Int × Int)} :
    ToolsAlike Eq (awaitExtraction schemaPrefix sinceMs deadline expectedCount rounds baseline)
      (awaitExtraction schemaPrefix sinceMs deadline expectedCount rounds baseline) := by
  induction rounds generalizing baseline with
  | zero => exact same
  | succ rounds ih =>
    refine same_then (perf_same fun _ _ h => h) fun now => ite_alike same ?_
    refine Agrees.bind (by rw [listExtractionJobsPaged]; exact listPages_alike) fun x y hxy => ?_
    cases hxy with
    | none => exact same
    | @some r r' hr =>
      cases r with
      | ok jobs =>
        cases r' with
        | ok jobs' =>
          obtain rfl : jobs = jobs' := hr
          exact ite_alike same (same_then sleepUntil_alike fun _ => ih)
        | error s => exact hr.elim
      | error s =>
        cases r' with
        | ok jobs => exact hr.elim
        | error s' => exact same_then sleepUntil_alike fun _ => ih

theorem awaitExtractionJobsForSchema_alike {userSchema : String} {expectedCount : Int} :
    ToolsAlike Eq (awaitExtractionJobsForSchema userSchema sinceMs expectedCount)
      (awaitExtractionJobsForSchema userSchema sinceMs expectedCount) := by
  rw [awaitExtractionJobsForSchema]
  exact ite_alike same (same_then (perf_same fun _ _ h => h) fun _ => awaitExtraction_alike)

end Handlers

/-! ## Tools -/

section Tools

variable {cfg : Config} {user : AuthenticatedUser} {args : Json}

theorem search_alike : ToolsAlike Eq (search cfg user args) (search cfg user args) := by
  refine same_then built_alike fun req => ?_
  refine Agrees.bind perf_alike fun x x' hx => Agrees.bind perf_alike fun y y' hy => ?_
  refine Agrees.bind (orStatus_alike hx) fun personal b hb => ?_
  dsimp only
  rw [← hb, StatusAlike.toOption hy]
  exact same_then recordSearch_alike fun _ => same_then recordSharedSearch_alike fun _ => same

theorem getSchema_alike : ToolsAlike Eq (getSchema cfg user) (getSchema cfg user) := by
  refine Agrees.bind perf_alike fun x x' hx => Agrees.bind perf_alike fun y y' hy => ?_
  refine Agrees.bind (orStatus_alike hx) fun personal b hb => ?_
  rw [← hb, StatusAlike.toOption hy]
  exact same

theorem listSchemas_alike : ToolsAlike Eq (listSchemas cfg user) (listSchemas cfg user) :=
  Agrees.bind perf_alike fun _ _ hx => same_then (orStatus_alike hx) fun _ => same

theorem queryNodes_alike : ToolsAlike Eq (queryNodes cfg user args) (queryNodes cfg user args) := by
  refine same_then built_alike fun req => ?_
  refine Agrees.bind perf_alike fun x x' hx => Agrees.bind perf_alike fun y y' hy => ?_
  refine Agrees.bind (orStatus_alike hx) fun personal b hb => ?_
  dsimp only
  rw [← hb, StatusAlike.toOption hy]
  exact same

theorem stats_alike : ToolsAlike Eq (stats cfg user args) (stats cfg user args) := by
  refine same_then built_alike fun req => ?_
  refine Agrees.bind perf_alike fun x x' hx => Agrees.bind perf_alike fun y y' hy => ?_
  refine Agrees.bind (orStatus_alike hx) fun personal b hb => ?_
  rw [← hb, StatusAlike.toOption hy]
  exact same

theorem getTraceableChain_alike :
    ToolsAlike Eq (getTraceableChain cfg user args) (getTraceableChain cfg user args) := by
  refine same_then built_alike fun req => ?_
  refine Agrees.bind perf_alike fun x x' hx => Agrees.bind perf_alike fun y y' hy => ?_
  exact same_then (pickChain_alike hx hy) fun _ => same

theorem ingest_alike : ToolsAlike Eq (ingest cfg user args) (ingest cfg user args) := by
  refine same_then built_alike fun request => same_then acquire_alike fun _ =>
    same_then collectDedupCatalogue_alike fun catalogue => ?_
  rw [ingestWith]
  refine same_then (perf_same fun _ _ h => h) fun now => same_then rewriteMessages_alike fun _ =>
    same_then (perf_same fun _ _ h => h) fun sinceMs => ?_
  refine Agrees.bind perf_alike fun x x' hx => same_then (orStatus_alike hx) fun resp => ?_
  exact same_then awaitExtractionJobsForSchema_alike fun _ => same

theorem ingestRaw_alike : ToolsAlike Eq (ingestRaw cfg user args) (ingestRaw cfg user args) := by
  refine same_then built_alike fun request => same_then acquire_alike fun _ =>
    same_then collectDedupCatalogue_alike fun catalogue => ?_
  rw [ingestRawWith]
  refine same_then scanMessage_alike fun text => same_then ?_ fun text => ?_
  · exact ite_alike applyLlmCanonicalize_alike same
  · refine Agrees.bind perf_alike fun x x' hx => same_then (orStatus_alike hx) fun resp => ?_
    exact same_then recordMany_alike fun recorded => same_then awaitMsgIdsComplete_alike fun _ => same

theorem feedback_alike : ToolsAlike Eq (feedback user args) (feedback user args) :=
  same_then built_alike fun _ => same_then checkOwner_alike fun _ =>
    Agrees.bind perf_alike fun _ _ hx => same_then (orStatus_alike hx) fun _ => same

theorem getJobStatus_alike : ToolsAlike Eq (getJobStatus user args) (getJobStatus user args) :=
  same_then built_alike fun _ => same_then checkOwner_alike fun _ =>
    Agrees.bind perf_alike fun _ _ hx => same_then (orStatus_alike hx) fun _ => same

/-- No tool tells answers apart that only differ in what is suppressed. -/
theorem runTool_alike {tool : ToolName} :
    ToolsAlike Eq (runTool cfg user args tool) (runTool cfg user args tool) := by
  cases tool with
  | search => exact search_alike
  | ingest => exact ingest_alike
  | ingestRaw => exact ingestRaw_alike
  | queryNodes => exact queryNodes_alike
  | getSchema => exact getSchema_alike
  | listSchemas => exact listSchemas_alike
  | stats => exact stats_alike
  | getTraceableChain => exact getTraceableChain_alike
  | feedback => exact feedback_alike
  | getJobStatus => exact getJobStatus_alike

end Tools

/-! ## Runs -/

section Runs

variable {cfg : Config}

theorem StatusAlike.refl {α : Type} (x : Except Status α) : StatusAlike x x := by
  cases x with
  | ok a => rfl
  | error s => exact ⟨rfl, fun _ => rfl⟩

theorem FailureAlike.refl {α : Type} (x : Except Status α) : FailureAlike x x := by
  cases x with
  | ok a => rfl
  | error s => trivial

theorem GeminiReply.Alike.refl (r : GeminiReply) : r.Alike r := by
  cases r <;> trivial

theorem option_refl {α : Type} {R : α → α → Prop} (h : ∀ a, R a a) (x : Option α) :
    Option.Rel R x x := by
  cases x with
  | none => exact .none
  | some a => exact .some (h a)

theorem Op.alike_refl (o : Op) (r : o.Ans) : o.alike r r := by
  cases o with
  | search r' => exact StatusAlike.refl _
  | getSchema r' => exact StatusAlike.refl _
  | ingest r' => exact StatusAlike.refl _
  | ingestRaw r' => exact StatusAlike.refl _
  | queryNodes r' => exact StatusAlike.refl _
  | listSchemas => exact StatusAlike.refl _
  | getStats r' => exact StatusAlike.refl _
  | getTraceableChain r' => exact StatusAlike.refl _
  | feedback r' => exact StatusAlike.refl _
  | getJobStatus msgId => exact StatusAlike.refl _
  | pollJobStatus ids ms => exact fun id => option_refl FailureAlike.refl _
  | gemini r' => exact GeminiReply.Alike.refl _
  | geminiWithin r' ms => exact option_refl GeminiReply.Alike.refl _
  | _ => rfl

/-- An operation gets an alike answer from an alike input, and does the same. -/
theorem perform_alike {n : ℕ} {input input' : Input} {o : Op} {s s' : State} {r : o.Ans}
    (hin : input.Alike input') (h : perform n input o s = some (r, s')) :
    ∃ r', perform n input' o s = some (r', s') ∧ o.alike r r' := by
  match input, input' with
  | .ok, .ok => exact ⟨r, h, o.alike_refl r⟩
  | .fail, .fail => exact ⟨r, h, o.alike_refl r⟩
  | .answer f, .answer f' =>
    have hanswered : (f o).map (·, s) = some (r, s') →
        ∃ r', (f' o).map (·, s) = some (r', s') ∧ o.alike r r' := fun ho => by
      obtain ⟨x, hx, he⟩ := Option.map_eq_some_iff.1 ho
      cases he
      have hrel := hin o
      rw [hx] at hrel
      cases hf' : f' o with
      | none => rw [hf'] at hrel; cases hrel
      | some r' =>
        rw [hf'] at hrel
        cases hrel with
        | some hr => exact ⟨r', rfl, hr⟩
    cases o with
    | insertOwner row => cases h
    | insertOwners rows => cases h
    | selectOwner kind foreignId => cases h
    | lockFor schema => exact ⟨r, h, rfl⟩
    | lock l => exact ⟨r, h, rfl⟩
    | sleep ms => exact ⟨r, h, rfl⟩
    | _ => exact hanswered h

theorem handle_alike (req : Request) : ToolsAlike Eq (handle cfg req) (handle cfg req) := by
  cases req with
  | tool user params =>
    have hread : ToolsAlike Eq (Prog.ret (readCall params) : Tool (ToolName × Json))
        (Prog.ret (readCall params)) := by
      cases readCall params with
      | ok x => exact same
      | error e => exact Agrees.fail
    exact same_then hread fun _ => same_then runTool_alike fun _ => same
  | record kind foreignId userId => exact same_then record_alike fun _ => same
  | recordMany kind foreignIds userId => exact same_then recordMany_alike fun _ => same
  | verify kind foreignId userId => exact same_then verify_alike fun _ => same

theorem server_discreet : (server cfg).Discreet Op.alike Input.Alike where
  handle req := Prog.Agrees.mono (handle_alike req) fun x y h => by
    cases h with
    | ok h => rw [h]
    | error e => rfl
  perform n req input input' o s r s' hin h := perform_alike hin h

/-- The answer to a request that an event is. -/
def answerGiven : Done → Option (ℕ × Except Exit Reply)
  | .answered n _ x => some (n, x)
  | _ => none

/-- The operation of a request that an event is. -/
def opDone : Done → Option (ℕ × Op)
  | .did n _ o _ => some (n, o)
  | _ => none

/-- If the answers in a run only differ from those in another in what is suppressed, the
    same moves are possible, requests get the same answers, and the same is done, and in
    the same state. -/
theorem details_suppressed {st : State} {ms ms' : List (Serving.Move Request Input World)} {s : Sys}
    (hms : List.Forall₂ (Serving.Move.Alike Input.Alike) ms ms')
    (hs : exec (server cfg).step (fun _ _ => true) (.start st) ms = some s) :
    ∃ s' : Sys, exec (server cfg).step (fun _ _ => true) (.start st) ms' = some s' ∧
      s'.conf.trace.filterMap answerGiven = s.conf.trace.filterMap answerGiven ∧
      s'.conf.trace.filterMap opDone = s.conf.trace.filterMap opDone ∧
      s'.conf.state = s.conf.state := by
  have hstart : Sys.Alike Op.alike (.start st : Sys) (.start st) := ⟨rfl, .nil, .nil, rfl⟩
  obtain ⟨s', hs', halike⟩ := server_discreet.exec hms hstart hs
  refine ⟨s', hs', ?_, ?_, halike.state.symm⟩
  · exact (filterMap_alike (fun e e' h => by cases h <;> rfl) halike.trace).symm
  · exact (filterMap_alike (fun e e' h => by cases h <;> rfl) halike.trace).symm

/-! ### A search that fails -/

/-- A search of which the graph server says that it failed. -/
def searchFailing (message : String) : List (Serving.Move Request Input World) :=
  [.request (.tool sampleUser (sampleCall "search" [("query", .str "x")])),
    .handling 0 (answerSearch (.error ⟨.internal, message⟩)),
    .handling 0 (answerSearch (.error ⟨.unavailable, "try again"⟩)), .handling 0 .ok]

theorem answerSearch_alike {x y : Except Status SearchResponse} (h : StatusAlike x y) :
    (answerSearch x).Alike (answerSearch y) := by
  intro o
  cases o with
  | search r => exact .some h
  | _ => exact .none

theorem searchFailing_alike {message message' : String} :
    List.Forall₂ (Serving.Move.Alike Input.Alike) (searchFailing message)
      (searchFailing message') :=
  .cons .request (.cons (.handling (answerSearch_alike ⟨rfl, fun h => (by cases h)⟩))
    (.cons (.handling (answerSearch_alike ⟨rfl, fun _ => rfl⟩)) (.cons (.handling trivial) .nil)))

/-- Whatever the message is, the answer is the same. -/
theorem details_suppressed_search : ∃ s s' : Sys,
    exec (server .sample).step (fun _ _ => true) (.start sampleStart)
      (searchFailing "disk I/O error at /var/lib") = some s ∧
    exec (server .sample).step (fun _ _ => true) (.start sampleStart) (searchFailing "") = some s' ∧
    (s.conf.trace.filterMap answerGiven).length = 1 ∧
    s'.conf.trace.filterMap answerGiven = s.conf.trace.filterMap answerGiven := by
  obtain ⟨s, hs, hlen⟩ : ∃ s, exec (server .sample).step (fun _ _ => true) (.start sampleStart)
      (searchFailing "disk I/O error at /var/lib") = some s ∧
      (s.conf.trace.filterMap answerGiven).length = 1 :=
    Option.map_eq_some_iff.1 (by decide)
  obtain ⟨s', hs', hanswers, -, -⟩ := details_suppressed searchFailing_alike hs
  exact ⟨s, s', hs, hs', hlen, hanswers⟩

end Runs

end LlmMemory.Vegapunk
