import LlmMemory.Vegapunk.CatalogueNames
import LlmMemory.Vegapunk.Exchanges
import LlmMemory.Vegapunk.Rewriting

/-!
# Blank texts

The texts that are validated are not blank, and the scan leaves none of them blank.
The canonicalizer takes any answer of the language model that has a text, also if
that is only white space: so a text that is sent is blank exactly if an answer was
accepted that is (`sent_texts`).
-/

namespace LlmMemory.Vegapunk

open Effects

/-- There is no character but white space. -/
def Blank (s : String) : Prop := ∀ c ∈ s.toList, Search.isWhiteSpace c = true

/-! ## Validated texts -/

section Validated

variable {s text : String} {cs : List Char}

/-- What is left of a text that is trimmed has another character than white space. -/
theorem exists_of_trim (h : trim cs ≠ []) : ∃ c ∈ trim cs, Search.isWhiteSpace c ≠ true := by
  by_contra hblank
  push Not at hblank
  obtain ⟨l, r, hsplit, hlr⟩ := trim_split cs
  have hall : ∀ c ∈ cs, Search.isWhiteSpace c = true := by
    intro c hc
    rw [hsplit, List.mem_append, List.mem_append] at hc
    rcases hc with (hc | hc) | hc
    · exact hlr c (List.mem_append_left _ hc)
    · exact hblank c hc
    · exact hlr c (List.mem_append_right _ hc)
  have hstart : trimStart cs = [] := List.dropWhile_eq_nil_iff.2 hall
  exact h (by rw [trim, hstart]; rfl)

/-- A text that is not empty once trimmed is not blank then. -/
theorem trimmed_not_blank (h : trimmed s ≠ "") : ¬Blank (trimmed s) := by
  intro hblank
  have hne : trim s.toList ≠ [] := fun hnil => h (by rw [trimmed, hnil])
  obtain ⟨c, hc, hspace⟩ := exists_of_trim hne
  exact hspace (hblank c (by rwa [trimmed, String.toList_ofList]))

theorem not_blank_of_trimmed (h : trimmed s ≠ "") : ¬Blank s := by
  refine fun hblank => trimmed_not_blank h fun c hc => hblank c ?_
  obtain ⟨l, r, hsplit, -⟩ := trim_split s.toList
  rw [trimmed, String.toList_ofList] at hc
  rw [hsplit]
  exact List.mem_append_left _ (List.mem_append_right _ hc)

/-- A field that is required is not blank. -/
theorem requireStrField_not_blank {obj : Fields} {field owner : String}
    (h : requireStrField obj field owner = .ok text) : ¬Blank text := by
  obtain ⟨v, -, h⟩ := bind_ok h
  obtain ⟨raw, -, h⟩ := bind_ok h
  split at h
  · cases h
  · next hne =>
    cases h
    exact trimmed_not_blank hne

/-- The text of a raw ingestion is not blank. -/
theorem buildIngestRawRequest_not_blank {schema : String} {args : Json} {r : IngestRawRequest}
    (h : buildIngestRawRequest schema args = .ok r) : ¬Blank r.text := by
  obtain ⟨obj, -, h⟩ := bind_ok h
  obtain ⟨text, htext, h⟩ := bind_ok h
  obtain ⟨v, -, h⟩ := bind_ok h
  obtain ⟨metadata, -, h⟩ := bind_ok h
  obtain ⟨sourceType, -, h⟩ := bind_ok h
  obtain ⟨author, -, h⟩ := bind_ok h
  obtain ⟨channel, -, h⟩ := bind_ok h
  obtain ⟨timestamp, -, h⟩ := bind_ok h
  cases h
  exact requireStrField_not_blank htext

/-- The text of a message is not blank. -/
theorem buildMessage_not_blank {i : ℕ} {item : Json} {msg : IngestMessage}
    (h : buildMessage i item = .ok msg) : ¬Blank msg.text := by
  obtain ⟨m, -, h⟩ := bind_ok h
  obtain ⟨id, -, h⟩ := bind_ok h
  obtain ⟨text, htext, h⟩ := bind_ok h
  obtain ⟨v, -, h⟩ := bind_ok h
  obtain ⟨obj, -, h⟩ := bind_ok h
  obtain ⟨metadata, -, h⟩ := bind_ok h
  cases h
  exact requireStrField_not_blank htext

theorem buildMessages_not_blank {i : ℕ} {items : List Json} {msgs : List IngestMessage}
    (h : buildMessages i items = .ok msgs) : ∀ msg ∈ msgs, ¬Blank msg.text := by
  induction items generalizing i msgs with
  | nil =>
    cases h
    exact fun msg hmsg => absurd hmsg List.not_mem_nil
  | cons item items ih =>
    obtain ⟨m, hm, h⟩ := bind_ok h
    obtain ⟨ms, hms, h⟩ := bind_ok h
    cases h
    exact List.forall_mem_cons.2 ⟨buildMessage_not_blank hm, ih hms⟩

/-- The texts of an ingestion are not blank. -/
theorem buildIngestRequest_not_blank {schema : String} {args : Json} {r : IngestRequest}
    (h : buildIngestRequest schema args = .ok r) : ∀ msg ∈ r.messages, ¬Blank msg.text := by
  obtain ⟨obj, -, h⟩ := bind_ok h
  obtain ⟨v, -, h⟩ := bind_ok h
  obtain ⟨items, -, h⟩ := bind_ok h
  split at h
  · cases h
  · obtain ⟨msgs, hmsgs, h⟩ := bind_ok h
    cases h
    exact buildMessages_not_blank hmsgs

end Validated

/-! ## Scanned texts -/

section Scanned

variable {U : Unicode} {catalogue : DedupCatalogue} {text out : String}

/-- A name that is put in place is seen there. -/
theorem mem_splice {m cursor : ℕ} {name cs : List Char} {is : List ℕ} (h : is ≠ []) {c : Char}
    (hc : c ∈ name) : c ∈ Spans.splice m (fun _ => name) cs cursor is := by
  obtain ⟨i, is, rfl⟩ := List.exists_cons_of_ne_nil h
  exact List.mem_append_left _ (List.mem_append_right _ hc)

/-- A text that is not blank is not rewritten to a blank one. -/
theorem rewriteAll_not_blank {ents : List EntityRef} (h : Fetched U ents) {cs : List Char}
    (hcs : ∃ c ∈ cs, Search.isWhiteSpace c ≠ true) :
    ∃ c ∈ rewriteAll U ents cs, Search.isWhiteSpace c ≠ true := by
  induction ents generalizing cs with
  | nil => exact hcs
  | cons ent ents ih =>
    obtain ⟨hent, hents⟩ := List.forall_mem_cons.1 h
    have hrewrite : ∃ c ∈ rewrite U cs ent, Search.isWhiteSpace c ≠ true := by
      by_cases hplaces : ent.places U (toLowercase U cs) = []
      · rwa [rewrite_of_no_places hplaces]
      · have hname := not_blank_of_trimmed hent.2
        rw [Blank] at hname
        push Not at hname
        obtain ⟨c, hc, hspace⟩ := hname
        exact ⟨c, mem_splice hplaces hc, hspace⟩
    rw [rewriteAll]
    split
    · exact ih hents hrewrite
    · exact hrewrite

/-- The scan leaves no text blank that was not. -/
theorem Scanned.not_blank (h : Scanned U catalogue text out) (hcatalogue : catalogue.Fetched U)
    (htext : ¬Blank text) : ¬Blank out := by
  by_cases haligned : isLowercaseByteAligned U text.toList = true
  · rw [Blank, (h.eq_rewriteAll haligned).2]
    rw [Blank] at htext
    push Not at htext ⊢
    exact rewriteAll_not_blank hcatalogue.personal htext
  · rcases h with ⟨-, rfl⟩ | ⟨rewrites, hrewritten⟩
    · exact htext
    · exact absurd (rewritten_aligned hrewritten) haligned

end Scanned

/-! ## Prompts -/

section Prompts

variable {names names' : List String} {text text' : String}

/-- A text from the end of its first line on. -/
theorem append_newline {l l' a b : List Char} (h : l ++ '\n' :: a = l' ++ '\n' :: b)
    (hl : '\n' ∉ l) (hl' : '\n' ∉ l') : a = b := by
  induction l generalizing l' with
  | nil =>
    cases l' with
    | nil => exact (List.cons.inj h).2
    | cons c l' => exact absurd (List.mem_cons.2 (.inl (List.cons.inj h).1)) hl'
  | cons c l ih =>
    cases l' with
    | nil => exact absurd (List.mem_cons.2 (.inl (List.cons.inj h).1.symm)) hl
    | cons d l' =>
      exact ih (List.cons.inj h).2 (fun h => hl (List.mem_cons_of_mem _ h))
        fun h => hl' (List.mem_cons_of_mem _ h)

/-- The entries of a prompt end before the first empty line. -/
theorem entries_inj {names names' : List String} (hnames : names ≠ []) (hnames' : names' ≠ [])
    (hn : ∀ n ∈ names, '\n' ∉ n.toList) (hn' : ∀ n ∈ names', '\n' ∉ n.toList) {a b : List Char}
    (h : ("\n".intercalate (names.map fun n => "- " ++ n)).toList ++ '\n' :: '\n' :: a =
      ("\n".intercalate (names'.map fun n => "- " ++ n)).toList ++ '\n' :: '\n' :: b) : a = b := by
  have hentry : ∀ n : String, '\n' ∉ n.toList → '\n' ∉ ("- " ++ n).toList := by
    intro n hn
    simp [hn]
  -- an entry, and whether it is the last one
  have hone : ∀ (n : String) (a : List Char),
      ("\n".intercalate ([n].map fun n => "- " ++ n)).toList ++ '\n' :: '\n' :: a =
        ("- " ++ n).toList ++ '\n' :: '\n' :: a := fun n a => by simp
  have hmore : ∀ (n m : String) (ns : List String) (a : List Char),
      ("\n".intercalate ((n :: m :: ns).map fun n => "- " ++ n)).toList ++ a =
        ("- " ++ n).toList ++ '\n' ::
          (("\n".intercalate ((m :: ns).map fun n => "- " ++ n)).toList ++ a) := by
    intro n m ns a
    simp
  have hdash : ∀ (m : String) (ns : List String) (a : List Char), ∃ cs,
      ("\n".intercalate ((m :: ns).map fun n => "- " ++ n)).toList ++ a = '-' :: cs := by
    intro m ns a
    rw [List.map_cons, String.intercalate_cons_append]
    exact ⟨_, by rw [String.toList_append]; rfl⟩
  induction names generalizing names' with
  | nil => exact absurd rfl hnames
  | cons n ns ih =>
    obtain ⟨n', ns', rfl⟩ := List.exists_cons_of_ne_nil hnames'
    obtain ⟨hn₁, hns⟩ := List.forall_mem_cons.1 hn
    obtain ⟨hn₁', hns'⟩ := List.forall_mem_cons.1 hn'
    cases ns with
    | nil =>
      cases ns' with
      | nil =>
        rw [hone, hone] at h
        exact (List.cons.inj (append_newline h (hentry n hn₁) (hentry n' hn₁'))).2
      | cons m' ns' =>
        rw [hone, hmore] at h
        obtain ⟨cs, hcs⟩ := hdash m' ns' ('\n' :: '\n' :: b)
        have hrest := append_newline h (hentry n hn₁) (hentry n' hn₁')
        rw [hcs] at hrest
        cases hrest
    | cons m ns =>
      cases ns' with
      | nil =>
        rw [hone, hmore] at h
        obtain ⟨cs, hcs⟩ := hdash m ns ('\n' :: '\n' :: a)
        have hrest := append_newline h (hentry n hn₁) (hentry n' hn₁')
        rw [hcs] at hrest
        cases hrest
      | cons m' ns' =>
        rw [hmore, hmore] at h
        exact ih (List.cons_ne_nil _ _) (List.cons_ne_nil _ _) hns hns'
          (append_newline h (hentry n hn₁) (hentry n' hn₁'))

/-- The prompt has the text in it. -/
theorem buildPrompt_text (hnames : names ≠ []) (hnames' : names' ≠ [])
    (hn : ∀ n ∈ names, '\n' ∉ n.toList) (hn' : ∀ n ∈ names', '\n' ∉ n.toList)
    (h : buildPrompt names text = buildPrompt names' text') : text = text' := by
  obtain ⟨front, -, hprompt⟩ := buildPrompt_front
  rw [hprompt, hprompt] at h
  have hlist := congrArg String.toList h
  simp only [String.toList_append, List.append_assoc] at hlist
  have hentries := List.append_cancel_left (List.append_cancel_left hlist)
  have hrest := entries_inj hnames hnames' hn hn' hentries
  exact String.toList_injective (List.append_cancel_right (List.append_cancel_left hrest))

/-- A request to the language model is for one text. -/
theorem canonicalizeRequest_text {r : GeminiRequest}
    (h : canonicalizeRequest names text = some r)
    (h' : canonicalizeRequest names' text' = some r) : text = text' := by
  have hrequest : ∀ {names text}, canonicalizeRequest names text = some r →
      sanitizeCatalogueNamesForPrompt names ≠ [] ∧
        r.prompt = buildPrompt (sanitizeCatalogueNamesForPrompt names) text := by
    intro names text h
    rw [canonicalizeRequest] at h
    split at h
    · cases h
    · split at h
      · cases h
      · split at h
        · cases h
        · dsimp only at h
          split at h
          · cases h
          · next hne =>
            cases h
            exact ⟨hne, rfl⟩
  have hnewline : ∀ names, ∀ n ∈ sanitizeCatalogueNamesForPrompt names, '\n' ∉ n.toList := by
    intro names n hn
    have hmem := (List.mem_filter.1 (List.mem_of_mem_take hn)).1
    obtain ⟨name, -, rfl⟩ := List.mem_map.1 hmem
    exact fun h => sanitized_not_lineLike h (.inl (by decide))
  obtain ⟨hne, hprompt⟩ := hrequest h
  obtain ⟨hne', hprompt'⟩ := hrequest h'
  exact buildPrompt_text hne hne' (hnewline names) (hnewline names')
    (hprompt.symm.trans hprompt')

end Prompts

/-! ## Replies -/

section Replies

/-- The reply to a request is accepted, and there is nothing in it but white space. -/
def AcceptsBlank (r : GeminiRequest) (reply : GeminiReply) : Prop :=
  ∃ names text out, canonicalizeRequest names text = some r ∧
    canonicalizeReply text reply = .ok out ∧ Blank out

/-- The language model made a blank reply that was accepted. -/
def BlankReply : Exchange ToolSig → Prop
  | ⟨.gemini r, reply⟩ => AcceptsBlank r reply
  | ⟨.geminiWithin r _, reply⟩ => ∃ x, reply = some x ∧ AcceptsBlank r x
  | _ => False

/-- There was no such reply. -/
def NoBlankReply (h : History) : Prop := ∀ e ∈ h, ¬BlankReply e

/-- The operation is no request to the language model, and no ingestion. -/
def Op.silent : Op → Prop
  | .gemini _ | .geminiWithin _ _ | .ingest _ | .ingestRaw _ => False
  | _ => True

/-- After the history, the texts that are sent are not blank, if and only if no reply
    was. -/
def SendsTexts (h : History) : Op → Prop
  | .ingest r => (∀ msg ∈ r.messages, ¬Blank msg.text) ↔ NoBlankReply h
  | .ingestRaw r => ¬Blank r.text ↔ NoBlankReply h
  | _ => True

variable {h es : History} {names : List String} {text : String}

theorem noBlankReply_snoc {e : Exchange ToolSig} :
    NoBlankReply (h ++ [e]) ↔ NoBlankReply h ∧ ¬BlankReply e := by
  rw [NoBlankReply, List.forall_mem_append, List.forall_mem_singleton]
  rfl

/-- Operations that are silent make no reply. -/
theorem noBlankReply_silent (hes : ∀ e ∈ es, e.1.silent) :
    NoBlankReply (h ++ es) ↔ NoBlankReply h := by
  rw [NoBlankReply, List.forall_mem_append]
  refine and_iff_left fun e he => ?_
  obtain ⟨o, r⟩ := e
  have hsilent := hes _ he
  cases o <;> first | exact fun h => h.elim | exact hsilent.elim

theorem noBlankReply_one {o : Op} (r : o.Ans) (ho : o.silent) :
    NoBlankReply (h ++ [⟨o, r⟩]) ↔ NoBlankReply h :=
  noBlankReply_silent fun _ he => List.mem_singleton.1 he ▸ ho

theorem sendsTexts_of_silent {o : Op} (ho : o.silent) : SendsTexts h o := by
  cases o <;> trivial

theorem sendsTexts_of_plain {o : Op} (ho : o.plain = true) : SendsTexts h o := by
  cases o <;> trivial

/-- The text is made blank by a blank reply only. -/
theorem replyText_blank {r : GeminiRequest} {reply : GeminiReply} (htext : ¬Blank text)
    (hr : canonicalizeRequest names text = some r) :
    Blank (replyText text reply) ↔ AcceptsBlank r reply := by
  constructor
  · intro hblank
    rw [replyText] at hblank
    cases hreply : canonicalizeReply text reply with
    | ok out => exact ⟨names, text, out, hr, hreply, by rwa [hreply] at hblank⟩
    | error e => exact absurd (by rwa [hreply] at hblank) htext
  · rintro ⟨names', text', out, hr', hreply, hblank⟩
    obtain rfl : text' = text := canonicalizeRequest_text hr' hr
    rwa [replyText, hreply]

/-- The exchange with the language model about a text, and what becomes of it. -/
theorem applyLlmCanonicalize_sends (htext : ¬Blank text) :
    Logs SendsTexts (fun h' out => NoBlankReply h' ↔ NoBlankReply h ∧ ¬Blank out) h
      (applyLlmCanonicalize names text) := by
  rw [applyLlmCanonicalize]
  cases hr : canonicalizeRequest names text with
  | none => exact Logs.pure (and_iff_left htext).symm
  | some r =>
    exact perf_then trivial fun reply => Logs.pure <|
      noBlankReply_snoc.trans (and_congr_right fun _ => not_congr (replyText_blank htext hr).symm)

/-- The canonicalizer, within its time, makes a text blank by a blank reply only. -/
theorem applyLlmCanonicalizeWithin_sends {timeoutMs : Int} (htext : ¬Blank text) :
    Logs SendsTexts (fun h' x => NoBlankReply h' ↔ NoBlankReply h ∧ ¬Blank (x.getD text)) h
      (applyLlmCanonicalizeWithin timeoutMs names text) := by
  rw [applyLlmCanonicalizeWithin]
  cases hr : canonicalizeRequest names text with
  | none => exact Logs.pure (and_iff_left htext).symm
  | some r =>
    refine perf_then trivial fun reply => Logs.pure <|
      noBlankReply_snoc.trans (and_congr_right fun _ => not_congr ?_)
    cases reply with
    | none =>
      refine iff_of_false ?_ htext
      rintro ⟨x, hx, -⟩
      cases hx
    | some x =>
      refine Iff.trans ?_ (replyText_blank htext hr).symm
      constructor
      · rintro ⟨y, hy, hblank⟩
        cases hy
        exact hblank
      · exact fun hblank => ⟨x, rfl, hblank⟩

theorem canonicalizeBefore_sends {enabled exhausted : Bool} {deadline : Int} (htext : ¬Blank text) :
    Logs SendsTexts (fun h' x => NoBlankReply h' ↔ NoBlankReply h ∧ ¬Blank x.1) h
      (canonicalizeBefore names enabled deadline exhausted text) := by
  have hkept : ∀ b : Bool, Logs SendsTexts
      (fun h' x => NoBlankReply h' ↔ NoBlankReply h ∧ ¬Blank x.1) h
        (pure (text, b) : Tool (String × Bool)) := fun b => Logs.pure (and_iff_left htext).symm
  refine ite_logs (fun _ => perf_then trivial fun now => ?_) fun _ => hkept _
  have hnow : NoBlankReply (h ++ [⟨.instant, now⟩]) ↔ NoBlankReply h :=
    noBlankReply_one (o := .instant) now trivial
  split
  · exact Logs.pure (hnow.trans (and_iff_left htext).symm)
  · refine Logs.bind (applyLlmCanonicalizeWithin_sends htext) fun h' x hx => ?_
    rw [hnow] at hx
    cases x with
    | some out => exact Logs.pure hx
    | none => exact Logs.pure hx

theorem canonicalizeIf_sends {enabled : Bool} (htext : ¬Blank text) :
    Logs SendsTexts (fun h' out => NoBlankReply h' ↔ NoBlankReply h ∧ ¬Blank out) h
      (canonicalizeIf enabled names text) :=
  ite_logs (fun _ => applyLlmCanonicalize_sends htext)
    fun _ => Logs.pure (and_iff_left htext).symm

end Replies

/-! ## What is sent -/

section Handlers

variable {h : History} {cfg : Config} {user : AuthenticatedUser} {catalogue : DedupCatalogue}

/-- The messages are scanned, and rewritten, one after the other. -/
theorem rewriteMessages_sends (hcatalogue : catalogue.Fetched cfg.unicode) {names : List String}
    {enabled exhausted : Bool} {deadline : Int} {i : ℕ} {msgs : List IngestMessage}
    (hmsgs : ∀ msg ∈ msgs, ¬Blank msg.text) :
    Logs SendsTexts
      (fun h' out => NoBlankReply h' ↔ NoBlankReply h ∧ ∀ msg ∈ out, ¬Blank msg.text) h
      (rewriteMessages cfg catalogue names enabled deadline i exhausted msgs) := by
  induction msgs generalizing h i exhausted with
  | nil =>
    exact Logs.pure (and_iff_left fun msg hmsg => absurd hmsg List.not_mem_nil).symm
  | cons msg msgs ih =>
    obtain ⟨hmsg, hrest⟩ := List.forall_mem_cons.1 hmsgs
    have hscan : ∀ method, Does Op.silent (Scanned cfg.unicode catalogue msg.text)
        (scanMessage cfg.unicode method catalogue msg.text) := fun _ => scanMessage_does
    refine part_then (hscan _) (fun _ _ => sendsTexts_of_silent) fun scanned es hscanned hes _ => ?_
    have htext := hscanned.not_blank hcatalogue hmsg
    refine Logs.bind (canonicalizeBefore_sends htext) fun h₁ x hx => ?_
    refine Logs.bind (ih hrest) fun h₂ out hout => Logs.pure ?_
    rw [hout, hx, noBlankReply_silent hes, List.forall_mem_cons, and_assoc]

/-- An ingestion sends blank texts after a blank reply only. -/
theorem ingestWith_sends {request : IngestRequest} (hcatalogue : catalogue.Fetched cfg.unicode)
    (hmsgs : ∀ msg ∈ request.messages, ¬Blank msg.text) (hh : NoBlankReply h) :
    Logs SendsTexts (fun _ _ => True) h (ingestWith cfg user request catalogue) := by
  refine perf_then trivial fun now => ?_
  refine Logs.bind (rewriteMessages_sends hcatalogue hmsgs) fun h₁ msgs hsent => ?_
  rw [noBlankReply_one (o := .instant) now trivial] at hsent
  refine perf_then trivial fun sinceMs => ?_
  refine perf_then ?_ fun resp => orStatus_then fun resp _ => ?_
  · rw [SendsTexts, noBlankReply_one (o := .nowMs) sinceMs trivial, hsent]
    exact (and_iff_right hh).symm
  · refine part_then (awaitExtractionJobsForSchema_does fun _ => id)
      (fun _ _ => sendsTexts_of_plain) fun _ _ _ _ _ => Logs.pure trivial

theorem ingestRawWith_sends {request : IngestRawRequest}
    (hcatalogue : catalogue.Fetched cfg.unicode) (htext : ¬Blank request.text)
    (hh : NoBlankReply h) :
    Logs SendsTexts (fun _ _ => True) h (ingestRawWith cfg user request catalogue) := by
  have hscan : ∀ method, Does Op.silent (Scanned cfg.unicode catalogue request.text)
      (scanMessage cfg.unicode method catalogue request.text) := fun _ => scanMessage_does
  refine part_then (hscan _) (fun _ _ => sendsTexts_of_silent) fun scanned es hscanned hes _ => ?_
  refine Logs.bind (canonicalizeIf_sends (hscanned.not_blank hcatalogue htext))
    fun h₁ text hsent => ?_
  refine perf_then ?_ fun resp => orStatus_then fun resp _ => ?_
  · rw [SendsTexts, hsent, noBlankReply_silent hes]
    exact (and_iff_right hh).symm
  · refine part_then (recordMany_does fun _ => id) (fun _ _ => sendsTexts_of_plain)
      fun _ _ _ _ _ => ?_
    exact part_then (awaitMsgIdsComplete_does fun _ => id) (fun _ _ => sendsTexts_of_plain)
      fun _ _ _ _ _ => Logs.pure trivial

/-- Before the messages are scanned, the language model is asked nothing. -/
theorem catalogue_then {schema : String} {f : DedupCatalogue → Tool Json}
    (hf : ∀ h catalogue, NoBlankReply h → catalogue.Fetched cfg.unicode →
      Logs SendsTexts (fun _ _ => True) h (f catalogue)) :
    Logs SendsTexts (fun _ _ => True) [] (do
      acquireIngestSerializer schema
      let catalogue ← collectDedupCatalogue cfg.unicode cfg.sharedSchemaName user.vegapunkSchema
      f catalogue) := by
  have hnone : NoBlankReply [] := fun e he => absurd he List.not_mem_nil
  have hacquire : Does Op.silent (fun _ => True) (acquireIngestSerializer schema) :=
    acquire_does trivial fun _ => trivial
  have hcollect : Does Op.silent (DedupCatalogue.Fetched cfg.unicode)
      (collectDedupCatalogue cfg.unicode cfg.sharedSchemaName user.vegapunkSchema) :=
    collectDedupCatalogue_fetched fun _ => trivial
  refine part_then hacquire (fun _ _ => sendsTexts_of_silent) fun _ es _ hes _ => ?_
  refine part_then hcollect (fun _ _ => sendsTexts_of_silent) fun catalogue es' hfetched hes' _ => ?_
  exact hf _ catalogue ((noBlankReply_silent hes').2 ((noBlankReply_silent hes).2 hnone)) hfetched

end Handlers

/-- Whatever the arguments, the catalogue and the replies: the texts that an ingestion
    sends are not blank, if and only if no blank reply was accepted. -/
structure SentTexts (cfg : Config) (user : AuthenticatedUser) : Prop where
  ingest : ∀ args, Logs SendsTexts (fun _ _ => True) [] (ingest cfg user args)
  ingestRaw : ∀ args, Logs SendsTexts (fun _ _ => True) [] (ingestRaw cfg user args)

/-- A text that is sent is blank only if the language model made it so. -/
theorem sent_texts (cfg : Config) (user : AuthenticatedUser) : SentTexts cfg user where
  ingest _ := built_then fun _ hrequest => catalogue_then fun _ _ hh hfetched =>
    ingestWith_sends hfetched (buildIngestRequest_not_blank hrequest) hh
  ingestRaw _ := built_then fun _ hrequest => catalogue_then fun _ _ hh hfetched =>
    ingestRawWith_sends hfetched (buildIngestRawRequest_not_blank hrequest) hh

/-! ### A blank reply -/

/-- The texts that are sent are not blank. -/
def SendsNotBlank : Op → Prop
  | .ingest r => ∀ msg ∈ r.messages, ¬Blank msg.text
  | .ingestRaw r => ¬Blank r.text
  | _ => True

/-- There is one entity, and the language model answers a blank. -/
def blankAnswers : (o : Op) → Option o.Ans
  | .lockFor _ => some (0 : ℕ)
  | .lock _ => some ()
  | .queryNodes _ => some (.ok ⟨[⟨"n1", "Project", [("name", "Foo")]⟩], 1⟩)
  | .gemini r => geminiText " " (.gemini r)
  | _ => none

/-- The text of the reply is sent. -/
theorem blank_sent : ¬∀ cfg user args,
    Does SendsNotBlank (fun _ => True) (ingestRaw cfg user args) := by
  intro hall
  have hdoes := hall (.ascii true) ⟨"u1", "c1", "user_1"⟩
    (.obj [("text", .str "hello"), ("metadata", .obj [("source_type", .str "chat")])])
  have hsent : ((ingestRaw (.ascii true) ⟨"u1", "c1", "user_1"⟩
      (.obj [("text", .str "hello"), ("metadata", .obj [("source_type", .str "chat")])])).after
        (List.replicate 11 blankAnswers)).bind sentText = some " " := by decide
  obtain ⟨o, ho, hr⟩ := Option.bind_eq_some_iff.1 hsent
  have hnot := hdoes.after ho
  cases o with
  | ingestRaw r =>
    have htext : r.text = " " := Option.some.inj hr
    have hspace : (" ".toList.all Search.isWhiteSpace) = true := by decide
    have hblank : Blank " " := fun c hc => List.all_eq_true.1 hspace c hc
    exact hnot (htext ▸ hblank)
  | _ => cases hr

end LlmMemory.Vegapunk
