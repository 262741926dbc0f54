import LlmMemory.Vegapunk.Writes

/-!
# The budget of the language model

An ingestion has `INGEST_LLM_TOTAL_BUDGET_SECS` for all of its calls of the language
model, since it holds the lock of its schema meanwhile. Its deadline is set by the first
reading of the clock, before the messages are looked at; a call gets the time that is
left until then, and once one was cut off there are no more. The ingestion of a raw text
asks once, without a limit (`WithinBudget`). This holds of every ingestion in every run
(`llm_within_budget`).
-/

namespace LlmMemory.Vegapunk

open Effects Runs Serving

/-! ## What exchanges say -/

/-- The time that was read. -/
def Op.readTime : (o : Op) → o.Ans → Option Int
  | .instant, t => some t
  | _, _ => none

/-- A call of the language model was cut off. -/
def Op.cutOff : (o : Op) → o.Ans → Bool
  | .geminiWithin _ _, none => true
  | _, _ => false

/-- The time first read. -/
def firstTime (h : History) : Option Int := h.findSome? fun e => e.1.readTime e.2

/-- The time read just now. -/
def timeNow (h : History) : Option Int := h.getLast?.bind fun e => e.1.readTime e.2

/-- The requests to the language model. -/
def llmCalls (h : History) : ℕ := h.countP fun e => e.1.asksLlm

/-- A call of the language model is within the budget of its tool. One of `ingest` ends by
    the deadline, comes after fewer than `INGEST_LLM_CANONICALIZE_MAX_MESSAGES` others, and
    none before it was cut off. One of `ingest_raw` has no limit, and comes after no other. -/
def WithinBudget (tool : ToolName) (h : History) : Op → Prop
  | .geminiWithin _ timeoutMs => tool = .ingest ∧ 0 < timeoutMs ∧
    (∃ start now, firstTime h = some start ∧ timeNow h = some now ∧
      now + timeoutMs = start + INGEST_LLM_TOTAL_BUDGET_SECS * 1000) ∧
    llmCalls h < INGEST_LLM_CANONICALIZE_MAX_MESSAGES ∧ ∀ e ∈ h, e.1.cutOff e.2 = false
  | .gemini _ => tool = .ingestRaw ∧ llmCalls h = 0
  | _ => True

/-! ## Ingestions -/

/-- The deadline was set, `i` messages were looked at, and if the time is not up then no
    call was cut off. -/
structure Spending (start : Int) (i : ℕ) (exhausted : Bool) (h : History) : Prop where
  first : firstTime h = some start
  calls : llmCalls h ≤ i
  served : exhausted = false → ∀ e ∈ h, e.1.cutOff e.2 = false

/-- The operation has to do with no clock and no language model. -/
def Op.untimed : Op → Bool
  | .instant | .gemini _ | .geminiWithin _ _ => false
  | _ => true

section Exchanges

variable {h : History} {o : Op} {r : o.Ans} {start : Int} {i : ℕ} {exhausted : Bool}

theorem firstTime_append {es : History} (hfirst : firstTime h = some start) :
    firstTime (h ++ es) = some start := by
  rw [firstTime, List.findSome?_append]
  rw [firstTime] at hfirst
  rw [hfirst, Option.some_or]

/-- Where no time was read, there is no first one. -/
theorem firstTime_untimed (hh : ∀ e ∈ h, e.1.untimed = true) : firstTime h = none := by
  rw [firstTime, List.findSome?_eq_none_iff]
  intro e he
  obtain ⟨o, r⟩ := e
  have ho := hh _ he
  cases o <;> first | rfl | cases ho

theorem llmCalls_untimed (hh : ∀ e ∈ h, e.1.untimed = true) : llmCalls h = 0 := by
  rw [llmCalls, List.countP_eq_zero]
  intro e he
  obtain ⟨o, r⟩ := e
  have ho := hh _ he
  cases o <;> first | exact Bool.false_ne_true | cases ho

theorem cutOff_untimed (ho : o.untimed = true) : o.cutOff r = false := by
  cases o <;> first | rfl | cases ho

theorem timeNow_instant {now : Int} : timeNow (h ++ [⟨.instant, now⟩]) = some now := by
  rw [timeNow, List.getLast?_concat]
  rfl

/-- Reading the time spends nothing. -/
theorem Spending.instant (hs : Spending start i exhausted h) {now : Int} :
    Spending start i exhausted (h ++ [⟨.instant, now⟩]) where
  first := firstTime_append hs.first
  calls := by
    rw [llmCalls, List.countP_append]
    exact hs.calls
  served hex e he := by
    rcases List.mem_append.1 he with he | he
    · exact hs.served hex e he
    · rw [List.mem_singleton.1 he]
      rfl

/-- The deadline is set. -/
theorem Spending.first_reading {t : Int} (hh : ∀ e ∈ h, e.1.untimed = true) :
    Spending t 0 false (h ++ [⟨.instant, t⟩]) where
  first := by
    rw [firstTime, List.findSome?_append]
    have hnone := firstTime_untimed hh
    rw [firstTime] at hnone
    rw [hnone]
    rfl
  calls := by
    rw [llmCalls, List.countP_append]
    exact (Nat.add_eq_zero_iff.2 ⟨llmCalls_untimed hh, rfl⟩).le
  served _ e he := by
    rcases List.mem_append.1 he with he | he
    · exact cutOff_untimed (hh e he)
    · rw [List.mem_singleton.1 he]
      rfl

/-- One more call: if it is cut off, the time is up. -/
theorem Spending.call (hs : Spending start i false h) {req : GeminiRequest} {timeoutMs : Int}
    (x : Option GeminiReply) :
    Spending start (i + 1) x.isNone (h ++ [⟨.geminiWithin req timeoutMs, x⟩]) where
  first := firstTime_append hs.first
  calls := by
    rw [llmCalls, List.countP_append]
    exact Nat.add_le_add_right hs.calls 1
  served hex e he := by
    rcases List.mem_append.1 he with he | he
    · exact hs.served rfl e he
    · rw [List.mem_singleton.1 he]
      cases x with
      | none => cases hex
      | some r => rfl

theorem Spending.mono (hs : Spending start i exhausted h) {j : ℕ} {exhausted' : Bool}
    (hij : i ≤ j) (hex : exhausted' = false → exhausted = false) :
    Spending start j exhausted' h :=
  ⟨hs.first, hs.calls.trans hij, fun h' => hs.served (hex h')⟩

end Exchanges

/-- After the history, the part keeps within the budget of the tool. -/
abbrev Budgeted {α : Type} (tool : ToolName) (Q : History → α → Prop) (h : History) (p : Tool α) :
    Prop :=
  Logs (WithinBudget tool) Q h p

section Parts

variable {cfg : Config} {user : AuthenticatedUser} {args : Json} {h : History} {start : Int}
  {i : ℕ} {exhausted : Bool} {tool : ToolName}

/-- An operation on no clock and no language model is within the budget. -/
theorem withinBudget_untimed {o : Op} (ho : o.untimed = true) : WithinBudget tool h o := by
  cases o <;> trivial

/-- Parts that have to do with no clock and no language model. -/
theorem untimed_then {α β : Type} {Q' : α → Prop} {p : Tool α} {f : α → Tool β}
    {Q : History → β → Prop} (hp : Does (fun o : Op => o.untimed = true) Q' p)
    (hf : ∀ a es, Q' a → (∀ e ∈ es, e.1.untimed = true) → Budgeted tool Q (h ++ es) (f a)) :
    Budgeted tool Q h (p >>= f) :=
  part_then hp (fun _ _ => withinBudget_untimed) fun a es ha hes _ => hf a es ha hes

theorem withinBudget_quiet {o : Op} (ho : o.asksLlm = false) : WithinBudget tool h o := by
  cases o <;> trivial

/-- The scan does nothing but read. -/
theorem scanMessage_silent {U : Unicode} {method : String} {catalogue : DedupCatalogue}
    {text : String} :
    Does (fun _ => False) (fun _ => True) (scanMessage U method catalogue text) := by
  rw [scanMessage]
  cases scanTextWithCatalogue U catalogue text with
  | none => exact Does.fail
  | some x =>
    cases x with
    | blockedByShared hit => exact Does.fail
    | rewritten newText _ => exact Does.pure trivial
    | proceed => exact Does.pure trivial

/-- A message is canonicalized in the time that is left, if there is any. -/
theorem canonicalizeBefore_budgeted {names : List String} {enabled : Bool} {text : String}
    (henabled : enabled = true → i < INGEST_LLM_CANONICALIZE_MAX_MESSAGES)
    (hs : Spending start i exhausted h) :
    Budgeted .ingest (fun h' x => Spending start (i + 1) x.2 h') h (canonicalizeBefore names enabled
      (start + INGEST_LLM_TOTAL_BUDGET_SECS * 1000) exhausted text) := by
  rw [canonicalizeBefore]
  refine ite_logs (fun hrun => ?_) fun _ => Logs.pure (hs.mono (Nat.le_succ i) id)
  obtain ⟨hen, hex⟩ : enabled = true ∧ exhausted = false := by simpa using hrun
  subst hex
  refine perf_then trivial fun (now : Int) => ite_logs (fun _ => ?_) fun hlt => ?_
  · exact Logs.pure (hs.instant.mono (Nat.le_succ i) fun h' => (by cases h'))
  · rw [applyLlmCanonicalizeWithin]
    cases canonicalizeRequest names text with
    | none => exact Logs.pure (hs.instant.mono (Nat.le_succ i) id)
    | some req =>
      have hbudget : WithinBudget .ingest (h ++ [⟨.instant, now⟩]) (.geminiWithin req
          (start + INGEST_LLM_TOTAL_BUDGET_SECS * 1000 - now)) :=
        ⟨rfl, by omega, ⟨start, now, hs.instant.first, timeNow_instant, by omega⟩,
          Nat.lt_of_le_of_lt hs.instant.calls (henabled hen), hs.instant.served rfl⟩
      refine perf_then hbudget fun (x : Option GeminiReply) => ?_
      cases x with
      | none => exact Logs.pure (hs.instant.call none)
      | some reply => exact Logs.pure (hs.instant.call (some reply))

/-- The messages from the `i`-th on are canonicalized in the time that is left for them. -/
theorem rewriteMessages_budgeted {catalogue : DedupCatalogue} {names : List String}
    {enabled : Bool} {msgs : List IngestMessage}
    (henabled : enabled = true → i + msgs.length ≤ INGEST_LLM_CANONICALIZE_MAX_MESSAGES)
    (hs : Spending start i exhausted h) :
    Budgeted .ingest (fun _ _ => True) h (rewriteMessages cfg catalogue names enabled
      (start + INGEST_LLM_TOTAL_BUDGET_SECS * 1000) i exhausted msgs) := by
  induction msgs generalizing h i exhausted with
  | nil => exact Logs.pure trivial
  | cons msg msgs ih =>
    rw [rewriteMessages]
    have hle : enabled = true → i + (msgs.length + 1) ≤ INGEST_LLM_CANONICALIZE_MAX_MESSAGES :=
      henabled
    refine part_then scanMessage_silent (fun _ _ hno => hno.elim) fun text es _ hes _ => ?_
    have hnil : es = [] := List.eq_nil_iff_forall_not_mem.2 hes
    rw [hnil, List.append_nil]
    refine Logs.bind (canonicalizeBefore_budgeted (fun hen => ?_) hs) fun h' x hx => ?_
    · have := hle hen
      omega
    · refine Logs.bind (ih (fun hen => ?_) hx) fun h'' rest _ => Logs.pure trivial
      have := hle hen
      omega

/-- What follows the canonicalization asks no language model. -/
theorem quiet_budgeted {α : Type} {Q : α → Prop} {p : Tool α}
    (hp : Does (fun o : Op => o.asksLlm = false) Q p) : Budgeted tool (fun _ _ => True) h p :=
  Logs.mono (Prog.Logs.imp (Logs.gives (Prog.Does.logs hp)) fun _ _ ho => withinBudget_quiet ho)
    fun _ _ _ => trivial

/-- An ingestion keeps within its budget. -/
theorem ingestWith_budgeted {request : IngestRequest} {catalogue : DedupCatalogue}
    (hh : ∀ e ∈ h, e.1.untimed = true) :
    Budgeted .ingest (fun _ _ => True) h (ingestWith cfg user request catalogue) := by
  rw [ingestWith]
  refine perf_then trivial fun (start : Int) => ?_
  refine Logs.bind (rewriteMessages_budgeted (fun hen => ?_) (.first_reading hh)) fun h' messages _ =>
    quiet_budgeted (Q := fun _ => True) ?_
  · rw [Nat.zero_add]
    exact of_decide_eq_true (Bool.and_eq_true_iff.1 hen).2
  · refine Does.bind (perf_does (o := .nowMs) rfl) fun _ _ =>
      Does.bind (perf_does rfl) fun _ _ => Does.bind orStatus_does fun _ _ => ?_
    exact Prog.Does.imp (fun o ho => (Op.quiet_iff.1 ho).2)
      (awaitExtractionJobsForSchema_quietly.then fun _ => Does.pure trivial)

/-- The one call for a raw text. -/
theorem canonicalizeIf_budgeted {enabled : Bool} {names : List String} {text : String}
    (hh : ∀ e ∈ h, e.1.untimed = true) :
    Budgeted .ingestRaw (fun _ _ => True) h (canonicalizeIf enabled names text) := by
  refine ite_logs (fun _ => ?_) fun _ => Logs.pure trivial
  rw [applyLlmCanonicalize]
  split
  · exact Logs.pure trivial
  · exact perf_then ⟨rfl, llmCalls_untimed hh⟩ fun _ => Logs.pure trivial

theorem ingestRawWith_budgeted {request : IngestRawRequest} {catalogue : DedupCatalogue}
    (hh : ∀ e ∈ h, e.1.untimed = true) :
    Budgeted .ingestRaw (fun _ _ => True) h (ingestRawWith cfg user request catalogue) := by
  rw [ingestRawWith]
  refine part_then scanMessage_silent (fun _ _ hno => hno.elim) fun text es _ hes _ => ?_
  rw [List.eq_nil_iff_forall_not_mem.2 hes, List.append_nil]
  refine Logs.bind (canonicalizeIf_budgeted hh) fun h' text _ =>
    quiet_budgeted (Q := fun _ => True) ?_
  refine Does.bind (perf_does rfl) fun _ _ => Does.bind orStatus_does fun _ _ => ?_
  exact Prog.Does.imp (fun o ho => (Op.quiet_iff.1 ho).2)
    (recordMany_quietly.then fun _ => awaitMsgIdsComplete_quietly.then fun _ => Does.pure trivial)

/-- `ingest` keeps within its budget. -/
theorem ingest_budgeted : Budgeted .ingest (fun _ _ => True) [] (ingest cfg user args) := by
  refine untimed_then (built_does fun _ _ => trivial) fun request es₁ _ h₁ =>
    untimed_then (acquire_does rfl fun _ => rfl) fun _ es₂ _ h₂ =>
    untimed_then (collectDedupCatalogue_does fun _ _ => rfl) fun catalogue es₃ _ h₃ =>
      ingestWith_budgeted fun e he => ?_
  simp only [List.nil_append, List.mem_append] at he
  exact he.elim (·.elim (h₁ e) (h₂ e)) (h₃ e)

theorem ingestRaw_budgeted : Budgeted .ingestRaw (fun _ _ => True) [] (ingestRaw cfg user args) := by
  refine untimed_then (built_does fun _ _ => trivial) fun request es₁ _ h₁ =>
    untimed_then (acquire_does rfl fun _ => rfl) fun _ es₂ _ h₂ =>
    untimed_then (collectDedupCatalogue_does fun _ _ => rfl) fun catalogue es₃ _ h₃ =>
      ingestRawWith_budgeted fun e he => ?_
  simp only [List.nil_append, List.mem_append] at he
  exact he.elim (·.elim (h₁ e) (h₂ e)) (h₃ e)

/-- `feedback` does not ask the language model. -/
theorem feedback_asks_no_llm :
    Does (fun o : Op => o.asksLlm = false) (fun _ => True) (feedback user args) := by
  refine Does.bind (built_does fun _ _ => trivial) fun _ _ =>
    Does.bind (Prog.Does.imp (fun o ho => (Op.quiet_iff.1 ho).2) checkOwner_quiet) fun _ _ => ?_
  exact Does.bind (perf_does (o := .feedback _) rfl) fun _ _ =>
    Does.bind orStatus_does fun _ _ => Does.pure trivial

end Parts

/-! ## Runs -/

/-- What a request may do after its history: a tool asks the language model within its
    budget, and nothing else does. -/
def MayAsk : Request → History → Op → Prop
  | .tool _ params, h, o => o.asksLlm = true →
    ∃ tool args, readCall params = .ok (tool, args) ∧ WithinBudget tool h o
  | _, _, o => o.asksLlm = false

section Runs

variable {cfg : Config}

/-- Every tool keeps within its budget. -/
theorem runTool_budgeted {user : AuthenticatedUser} {args : Json} {tool : ToolName} :
    Budgeted tool (fun _ _ => True) [] (runTool cfg user args tool) := by
  have hother : tool.writes = false →
      Budgeted tool (fun _ _ => True) [] (runTool cfg user args tool) := fun htool =>
    quiet_budgeted (Prog.Does.imp (fun o ho => (Op.quiet_iff.1 ho).2) (runTool_quiet htool))
  cases tool with
  | ingest => exact ingest_budgeted
  | ingestRaw => exact ingestRaw_budgeted
  | feedback => exact quiet_budgeted feedback_asks_no_llm
  | _ => exact hother rfl

theorem handle_budgeted (req : Request) :
    (handle cfg req).Logs (MayAsk req) (fun _ _ => True) [] := by
  have hflag : ∀ {p : Tool (Except StorageError Bool)}, Quietly p →
      ((do let r ← p; pure (.flag r) : Tool Reply)).Logs (fun _ (o : Op) => o.asksLlm = false)
        (fun _ _ => True) [] := fun hp =>
    Prog.Does.logs (Prog.Does.imp (fun o ho => (Op.quiet_iff.1 ho).2)
      (Prog.Does.mono (Quietly.bind hp fun _ => .pure) fun _ _ => trivial))
  cases req with
  | tool user params =>
    change Prog.Logs _ _ _ (call cfg user params)
    rw [call]
    cases hread : readCall params with
    | error e => trivial
    | ok x =>
      obtain ⟨tool, args⟩ := x
      have htool : Logs (MayAsk (.tool user params)) (fun _ _ => True) []
          (runTool cfg user args tool) := Prog.Logs.imp runTool_budgeted fun h o ho _ =>
        ⟨tool, args, hread, ho⟩
      have hall : Logs (MayAsk (.tool user params)) (fun _ _ => True) []
          (runTool cfg user args tool >>= fun content => pure (.content content) : Tool Reply) :=
        Logs.bind htool fun _ _ _ => Logs.pure trivial
      exact Prog.Logs.mono hall fun _ _ _ => trivial
  | record kind foreignId userId => exact hflag record_quietly
  | recordMany kind foreignIds userId => exact hflag recordMany_quietly
  | verify kind foreignId userId => exact hflag verify_quietly

/-- In the run that reached `s`, the calls of the language model are made by the tools that
    ingest, within the budget of the ingestion, of which there are few, and one at most if
    it ingests a raw text. -/
structure InBudget (s : Sys) : Prop where
  within : ∀ l₁ n req o r l₂, s.conf.trace = l₁ ++ .did n req o r :: l₂ → o.asksLlm = true →
    ∃ user params tool args, req = .tool user params ∧ readCall params = .ok (tool, args) ∧
      (tool = .ingest ∨ tool = .ingestRaw) ∧ WithinBudget tool (historyOf n l₁) o
  calls : ∀ n, llmCalls (historyOf n s.conf.trace) ≤ INGEST_LLM_CANONICALIZE_MAX_MESSAGES
  raw : ∀ n user params args o r, .did n (.tool user params) o r ∈ s.conf.trace →
    readCall params = .ok (.ingestRaw, args) → llmCalls (historyOf n s.conf.trace) ≤ 1

namespace WithinBudget

variable {tool : ToolName} {h : History} {o : Op}

/-- Only the tools that ingest ask. -/
theorem tool_eq (hb : WithinBudget tool h o) (ho : o.asksLlm = true) :
    tool = .ingest ∨ tool = .ingestRaw := by
  cases o with
  | gemini r => exact .inr hb.1
  | geminiWithin r timeoutMs => exact .inl hb.1
  | _ => cases ho

/-- Less than the greatest number of calls came before. -/
theorem llmCalls_lt (hb : WithinBudget tool h o) (ho : o.asksLlm = true) :
    llmCalls h < INGEST_LLM_CANONICALIZE_MAX_MESSAGES := by
  cases o with
  | gemini r =>
    rw [hb.2]
    decide
  | geminiWithin r timeoutMs => exact hb.2.2.2.1
  | _ => cases ho

/-- The ingestion of a raw text has not asked before. -/
theorem asksLlm_eq_false (hb : WithinBudget .ingestRaw h o) (ho : o.asksLlm = true) :
    ∀ x ∈ h, x.1.asksLlm = false := by
  cases o with
  | gemini r => exact fun x hx => Bool.eq_false_iff.2 (List.countP_eq_zero.1 hb.2 x hx)
  | geminiWithin r timeoutMs => cases hb.1
  | _ => cases ho

end WithinBudget

/-- A request that asks the language model calls a tool, and is within its budget. -/
theorem MayAsk.within {req : Request} {h : History} {o : Op} (hmay : MayAsk req h o)
    (ho : o.asksLlm = true) : ∃ user params tool args, req = .tool user params ∧
      readCall params = .ok (tool, args) ∧ WithinBudget tool h o := by
  cases req with
  | tool user params =>
    obtain ⟨tool, args, hread, hb⟩ := hmay ho
    exact ⟨user, params, tool, args, rfl, hread, hb⟩
  | _ => exact absurd (ho.symm.trans hmay) (by decide)

/-- In every run, the calls of the language model for one ingestion are few, and within
    the time set at its start; there is one at most for a raw text. -/
theorem llm_within_budget {ok : Sys → Serving.Move Request Input World → Prop} {s : Sys}
    (h : Reached cfg ok s) : InBudget s := by
  have hrec : Recorded MayAsk (fun _ _ _ => True) s := Server.recorded handle_budgeted h
  refine ⟨fun l₁ n req o r l₂ htrace ho => ?_, fun n => ?_, fun n user params args o r he hread => ?_⟩
  · obtain ⟨user, params, tool, args, hreq, hread, hb⟩ :=
      (hrec.did l₁ n req o r l₂ htrace).within ho
    exact ⟨user, params, tool, args, hreq, hread, hb.tool_eq ho, hb⟩
  · refine (hrec.grounded n).countP_le fun l x ⟨req, hx⟩ hp => ?_
    obtain ⟨_, _, _, _, -, -, hb⟩ := hx.within hp
    exact hb.llmCalls_lt hp
  · refine (hrec.grounded_of (Server.oneRequest h) he).countP_le_one fun l x hx hp => ?_
    obtain ⟨tool, args', hread', hb⟩ := hx hp
    obtain ⟨rfl, -⟩ := Prod.mk.inj (Except.ok.inj (hread.symm.trans hread'))
    exact hb.asksLlm_eq_false hp

/-! ### A call that is cut off -/

/-- A message of a chat. -/
def sampleMessage (text : String) : Json :=
  .obj [("text", .str text), ("metadata", .obj [("source_type", .str "chat"),
    ("author", .str "a"), ("channel", .str "c"), ("timestamp", .str "t")])]

/-- The service answers with one project. -/
def answerEntity : Input :=
  .answer fun
    | .queryNodes _ => some (.ok ⟨[⟨"n1", "Project", [("name", "Foo")]⟩], 1⟩)
    | _ => none

/-- The time is read. -/
def answerInstant (t : Int) : Input :=
  .answer fun
    | .instant => some t
    | _ => none

/-- The language model is cut off. -/
def cutOffLlm : Input :=
  .answer fun
    | .geminiWithin _ _ => some none
    | _ => none

/-- The first of two messages takes up the time, and the second one is not canonicalized. -/
def slowIngestion : List (Serving.Move Request Input World) :=
  [.request (.tool sampleUser (sampleCall "ingest" [("messages", .arr
      [sampleMessage "a", sampleMessage "b"])])),
    .handling 0 .ok, .handling 0 .ok] ++ List.replicate 8 (.handling 0 answerEntity) ++
  [.handling 0 (answerInstant 1000), .handling 0 (answerInstant 2000), .handling 0 cutOffLlm]

/-- The time that an event gives the language model. -/
def llmTimeout : Done → Option Int
  | .did _ _ (.geminiWithin _ timeoutMs) _ => some timeoutMs
  | _ => none

/-- The second message is not canonicalized, and the run is in budget. -/
theorem llm_within_budget_cut_off : ∃ s, Reached .sample (fun _ _ => True) s ∧
    s.conf.trace.filterMap llmTimeout = [59000] ∧ InBudget s := by
  obtain ⟨s, hs, htimeout⟩ : ∃ s, exec (server .sample).step (fun _ _ => true)
      (.start sampleStart) slowIngestion = some s ∧
      s.conf.trace.filterMap llmTimeout = [59000] :=
    Option.map_eq_some_iff.1 (by decide)
  have hr : Reached .sample (fun _ _ => True) s :=
    .exec (fun _ _ _ => trivial) (.init ⟨_, sampleStart_starts, rfl⟩) hs
  exact ⟨s, hr, htimeout, llm_within_budget hr⟩

end Runs

end LlmMemory.Vegapunk
