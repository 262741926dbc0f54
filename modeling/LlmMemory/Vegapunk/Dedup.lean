import LlmMemory.Vegapunk.Plain

/-!
# What ingestions send

An ingestion sends its messages only if the scan blocks none of them: then the
aligned texts among those validated name no entity of the shared schema
(`SentText.unnamed`). The texts sent are those that the scan leaves, as they are or
as the canonicalizer makes them of an answer of the language model, which may name
what it likes (`sent_not_clean`).
-/

namespace LlmMemory.Vegapunk

open Effects

/-! ## Texts -/

section Texts

variable (U : Unicode) (catalogue : DedupCatalogue)

/-- The text is aligned, and its lowercase form has the key of the entity between
    word boundaries. -/
def Names (text : String) (ent : EntityRef) : Prop :=
  isLowercaseByteAligned U text.toList = true ∧ ent.normalizedKey.toList ≠ [] ∧
    OccursInWords U (toLowercase U text.toList) ent.normalizedKey.toList

/-- The scan lets the text through, and leaves it as `scanned`. -/
def Scanned (text scanned : String) : Prop :=
  scanTextWithCatalogue U catalogue text = some .proceed ∧ scanned = text ∨
    ∃ rewrites, scanTextWithCatalogue U catalogue text = some (.rewritten scanned rewrites)

/-- The text as it is, or as the canonicalizer makes it of an answer. -/
def Canonicalized (names : List String) (text out : String) : Prop :=
  out = text ∨ ∃ r reply, canonicalizeRequest names text = some r ∧
    canonicalizeReply text reply = .ok out

/-- A text that is sent for one that was validated. -/
structure SentText (names : List String) (text out : String) : Prop where
  notBlocked : ∀ hit, scanTextWithCatalogue U catalogue text ≠ some (.blockedByShared hit)
  unnamed : ∀ ent ∈ catalogue.shared, ¬Names U text ent
  out : ∃ scanned, Scanned U catalogue text scanned ∧ Canonicalized names scanned out

variable {U catalogue}

/-- A scan that lets a text through found no entity of the shared schema in it. -/
theorem Scanned.unnamed {text scanned : String} (h : Scanned U catalogue text scanned) :
    ∀ ent ∈ catalogue.shared, ¬Names U text ent := by
  rintro ent hmem ⟨haligned, hkey, hoccurs⟩
  obtain ⟨hit, hres, hnone⟩ := scanShared_eq (U := U) (toLowercase U text.toList) catalogue.shared
  cases hit with
  | none => exact hnone rfl ent hmem hkey hoccurs
  | some hit =>
    have hblocked : scanTextWithCatalogue U catalogue text = some (.blockedByShared hit) := by
      simp [scanTextWithCatalogue, haligned, hres]
    rcases h with ⟨hproceed, -⟩ | ⟨rewrites, hrewritten⟩
    · rw [hblocked] at hproceed
      cases hproceed
    · rw [hblocked] at hrewritten
      cases hrewritten

/-- A text scanned is not blocked. -/
theorem Scanned.notBlocked {text scanned : String} (h : Scanned U catalogue text scanned) :
    ∀ hit, scanTextWithCatalogue U catalogue text ≠ some (.blockedByShared hit) := by
  rintro hit hblocked
  rcases h with ⟨hproceed, -⟩ | ⟨rewrites, hrewritten⟩
  · rw [hblocked] at hproceed
    cases hproceed
  · rw [hblocked] at hrewritten
    cases hrewritten

/-- A text scanned and canonicalized may be sent. -/
theorem Scanned.sent {names : List String} {text scanned out : String}
    (h : Scanned U catalogue text scanned) (hout : Canonicalized names scanned out) :
    SentText U catalogue names text out :=
  ⟨h.notBlocked, h.unnamed, scanned, h, hout⟩

end Texts

/-! ## Catalogues that are fetched -/

/-- The entities are those of names that are not blank. -/
def Fetched (U : Unicode) (ents : List EntityRef) : Prop :=
  ∀ ent ∈ ents, ent.normalizedKey = normalizeEntityKey U ent.name ∧ trimmed ent.name ≠ ""

/-- The catalogue as it may be fetched. -/
structure DedupCatalogue.Fetched (U : Unicode) (catalogue : DedupCatalogue) : Prop where
  shared : Vegapunk.Fetched U catalogue.shared
  personal : Vegapunk.Fetched U catalogue.personal

section Fetched

variable {U : Unicode} {P : Op → Prop}

/-- The names fetched are not blank. -/
theorem fetchEntityNames_fetched {schema nodeType : String} (hP : ∀ r, P (.queryNodes r)) :
    Does P (fun names => ∀ name ∈ names, trimmed name ≠ "") (fetchEntityNames schema nodeType) := by
  refine Does.bind (perf_does (hP _)) fun x _ => ?_
  cases x with
  | ok r => exact Does.pure fun name hname => of_decide_eq_true (List.mem_filter.1 hname).2
  | error e => exact Does.pure fun name hname => absurd hname List.not_mem_nil

theorem Fetched.append {ents : List EntityRef} {names : List String} {nodeType schema : String}
    (h : Fetched U ents) (hnames : ∀ name ∈ names, trimmed name ≠ "") :
    Fetched U (ents ++ names.map fun name => .new U name nodeType schema) := by
  intro ent hent
  rcases List.mem_append.1 hent with hent | hent
  · exact h ent hent
  · obtain ⟨name, hname, rfl⟩ := List.mem_map.1 hent
    exact ⟨rfl, hnames name hname⟩

/-- The catalogue is fetched, whatever the answers. -/
theorem collectDedupCatalogue_fetched {sharedSchema userSchema : String}
    (hP : ∀ r, P (.queryNodes r)) :
    Does P (DedupCatalogue.Fetched U) (collectDedupCatalogue U sharedSchema userSchema) := by
  have hcollect : ∀ types catalogue, DedupCatalogue.Fetched U catalogue →
      Does P (DedupCatalogue.Fetched U)
        (collectEntities U sharedSchema userSchema types catalogue) := by
    intro types
    induction types with
    | nil => exact fun _ h => Does.pure h
    | cons nodeType types ih =>
      intro catalogue h
      refine Does.bind (fetchEntityNames_fetched hP) fun sharedNames hshared => ?_
      refine Does.bind (fetchEntityNames_fetched hP) fun personalNames hpersonal => ?_
      exact ih _ ⟨h.shared.append hshared, h.personal.append hpersonal⟩
  refine hcollect _ _ ⟨?_, ?_⟩
  · exact fun _ h => absurd h List.not_mem_nil
  · exact fun _ h => absurd h List.not_mem_nil

end Fetched

/-! ## Programs -/

section Programs

variable {P : Op → Prop} {U : Unicode} {catalogue : DedupCatalogue} {names : List String}
  {text : String}

theorem scanMessage_does {method : String} :
    Does P (Scanned U catalogue text) (scanMessage U method catalogue text) := by
  rw [scanMessage]
  cases hscan : scanTextWithCatalogue U catalogue text with
  | none => exact Does.fail
  | some x =>
    cases x with
    | blockedByShared hit => exact Does.fail
    | rewritten newText rewrites => exact Does.pure (.inr ⟨rewrites, hscan⟩)
    | proceed => exact Does.pure (.inl ⟨hscan, rfl⟩)

/-- The text of a reply is canonicalized, or the text as it was. -/
theorem replyText_canonicalized {r : GeminiRequest} {reply : GeminiReply}
    (hr : canonicalizeRequest names text = some r) :
    Canonicalized names text (replyText text reply) := by
  rw [replyText]
  cases hreply : canonicalizeReply text reply with
  | ok out => exact .inr ⟨r, reply, hr, hreply⟩
  | error e => exact .inl rfl

variable (hP : ∀ o : Op, o.plain = true → P o)
include hP

theorem applyLlmCanonicalize_does :
    Does P (Canonicalized names text) (applyLlmCanonicalize names text) := by
  rw [applyLlmCanonicalize]
  split
  · exact Does.pure (.inl rfl)
  · next hr =>
    exact Does.bind (perf_does (hP _ rfl)) fun _ _ => Does.pure (replyText_canonicalized hr)

theorem applyLlmCanonicalizeWithin_does {timeoutMs : Int} :
    Does P (fun x => ∀ out, x = some out → Canonicalized names text out)
      (applyLlmCanonicalizeWithin timeoutMs names text) := by
  rw [applyLlmCanonicalizeWithin]
  split
  · exact Does.pure fun out hout => .inl (Option.some.inj hout).symm
  · next hr =>
    refine Does.bind (perf_does (hP _ rfl)) fun reply _ => Does.pure fun out hout => ?_
    obtain ⟨reply, -, rfl⟩ := Option.map_eq_some_iff.1 hout
    exact replyText_canonicalized hr

theorem canonicalizeBefore_does {enabled exhausted : Bool} {deadline : Int} :
    Does P (fun x => Canonicalized names text x.1)
      (canonicalizeBefore names enabled deadline exhausted text) := by
  refine ite_does (Does.bind (perf_does (hP _ rfl)) fun now _ => ?_) (Does.pure (.inl rfl))
  refine ite_does (Does.pure (.inl rfl)) ?_
  refine Does.bind (applyLlmCanonicalizeWithin_does hP) fun x hx => ?_
  cases x with
  | some out => exact Does.pure (hx out rfl)
  | none => exact Does.pure (.inl rfl)

theorem canonicalizeIf_does {enabled : Bool} :
    Does P (Canonicalized names text) (canonicalizeIf enabled names text) :=
  ite_does (applyLlmCanonicalize_does hP) (Does.pure (.inl rfl))

end Programs

/-! ## Requests -/

section Requests

variable (U : Unicode) (catalogue : DedupCatalogue) (names : List String)

/-- The message that is sent for one that was validated. -/
structure SentMessage (msg msg' : IngestMessage) : Prop where
  id : msg'.id = msg.id
  metadata : msg'.metadata = msg.metadata
  text : SentText U catalogue names msg.text msg'.text

/-- The request that is sent for one that was validated: its messages, one for one. -/
structure SentIngest (request r : IngestRequest) : Prop where
  schema : r.schema = request.schema
  messages : List.Forall₂ (SentMessage U catalogue names) request.messages r.messages

/-- The request that is sent for a raw one that was validated. -/
structure SentRaw (request r : IngestRawRequest) : Prop where
  schema : r.schema = request.schema
  metadata : r.metadata = request.metadata
  text : SentText U catalogue names request.text r.text

/-- What an ingestion does, once there is a catalogue. -/
def SendsIngest (request : IngestRequest) : Op → Prop
  | .ingest r => SentIngest U catalogue names request r
  | o => o.plain = true

/-- What a raw ingestion does, once there is a catalogue. -/
def SendsRaw (request : IngestRawRequest) : Op → Prop
  | .ingestRaw r => SentRaw U catalogue names request r
  | o => o.plain = true

variable {U catalogue names}

theorem sendsIngest_of_plain {request : IngestRequest} {o : Op} (h : o.plain = true) :
    SendsIngest U catalogue names request o := by
  cases o <;> first | exact h | cases h

theorem sendsRaw_of_plain {request : IngestRawRequest} {o : Op} (h : o.plain = true) :
    SendsRaw U catalogue names request o := by
  cases o <;> first | exact h | cases h

end Requests

section Handlers

variable {cfg : Config} {user : AuthenticatedUser} {catalogue : DedupCatalogue}

/-- The messages are scanned, and rewritten, one after the other. -/
theorem rewriteMessages_does {P : Op → Prop} (hP : ∀ o : Op, o.plain = true → P o)
    {names : List String} {enabled exhausted : Bool} {deadline : Int} {i : ℕ}
    {msgs : List IngestMessage} :
    Does P (List.Forall₂ (SentMessage cfg.unicode catalogue names) msgs)
      (rewriteMessages cfg catalogue names enabled deadline i exhausted msgs) := by
  induction msgs generalizing i exhausted with
  | nil => exact Does.pure .nil
  | cons msg msgs ih =>
    refine Does.bind scanMessage_does fun scanned hscanned => ?_
    refine Does.bind (canonicalizeBefore_does hP) fun x hx => ?_
    refine Does.bind ih fun rest hrest => Does.pure (.cons ?_ hrest)
    exact ⟨rfl, rfl, hscanned.sent hx⟩

/-- The names that the canonicalizer is given for a batch of `n` messages: none, if it
    is not called. -/
def namesFor (cfg : Config) (catalogue : DedupCatalogue) (n : ℕ) : List String :=
  if shouldRunLlmCanonicalize cfg.canonicalizer n then catalogueCanonicalNames catalogue else []

theorem ingestWith_does {request : IngestRequest} :
    Does (SendsIngest cfg.unicode catalogue (namesFor cfg catalogue request.messages.length)
      request) (fun _ => True) (ingestWith cfg user request catalogue) := by
  have hplain : ∀ o : Op, o.plain = true → SendsIngest cfg.unicode catalogue
      (namesFor cfg catalogue request.messages.length) request o :=
    fun _ => sendsIngest_of_plain
  refine Does.bind (perf_does rfl) fun now _ => ?_
  refine Does.bind (rewriteMessages_does hplain) fun msgs hmsgs => ?_
  refine Does.bind (perf_does rfl) fun sinceMs _ => ?_
  refine Does.bind (perf_does ⟨rfl, hmsgs⟩) fun resp _ => Does.bind orStatus_does fun resp _ => ?_
  refine Does.bind (awaitExtractionJobsForSchema_does hplain) fun _ _ => ?_
  exact Does.pure trivial

theorem ingestRawWith_does {request : IngestRawRequest} :
    Does (SendsRaw cfg.unicode catalogue (namesFor cfg catalogue 1) request) (fun _ => True)
      (ingestRawWith cfg user request catalogue) := by
  have hplain : ∀ o : Op, o.plain = true →
      SendsRaw cfg.unicode catalogue (namesFor cfg catalogue 1) request o :=
    fun _ => sendsRaw_of_plain
  refine Does.bind scanMessage_does fun scanned hscanned => ?_
  refine Does.bind (canonicalizeIf_does hplain) fun text htext => ?_
  refine Does.bind (perf_does ⟨rfl, rfl, hscanned.sent htext⟩) fun resp _ => ?_
  refine Does.bind orStatus_does fun resp _ => ?_
  refine Does.bind (recordMany_does hplain) fun recorded _ => ?_
  refine Does.bind (awaitMsgIdsComplete_does hplain) fun _ _ => ?_
  exact Does.pure trivial

end Handlers

/-! ## Ingestions -/

/-- What an ingestion of the arguments does: a request that it sends is for the one
    that was validated, and for a catalogue. -/
def SendsFor (cfg : Config) (user : AuthenticatedUser) (args : Json) : Op → Prop
  | .ingest r => ∃ request catalogue, buildIngestRequest user.vegapunkSchema args = .ok request ∧
      SentIngest cfg.unicode catalogue (namesFor cfg catalogue request.messages.length) request r
  | .ingestRaw r => ∃ request catalogue,
      buildIngestRawRequest user.vegapunkSchema args = .ok request ∧
      SentRaw cfg.unicode catalogue (namesFor cfg catalogue 1) request r
  | _ => True

section Handlers

variable {cfg : Config} {user : AuthenticatedUser} {args : Json}

/-- What an ingestion sends is for the arguments validated. -/
theorem SendsIngest.sendsFor {request : IngestRequest} {catalogue : DedupCatalogue} {o : Op}
    (h : SendsIngest cfg.unicode catalogue (namesFor cfg catalogue request.messages.length)
      request o) (hbuilt : buildIngestRequest user.vegapunkSchema args = .ok request) :
    SendsFor cfg user args o := by
  cases o with
  | ingest r => exact ⟨request, catalogue, hbuilt, h⟩
  | ingestRaw r => cases h
  | _ => trivial

theorem SendsRaw.sendsFor {request : IngestRawRequest} {catalogue : DedupCatalogue} {o : Op}
    (h : SendsRaw cfg.unicode catalogue (namesFor cfg catalogue 1) request o)
    (hbuilt : buildIngestRawRequest user.vegapunkSchema args = .ok request) :
    SendsFor cfg user args o := by
  cases o with
  | ingestRaw r => exact ⟨request, catalogue, hbuilt, h⟩
  | ingest r => cases h
  | _ => trivial

/-- `ingest` sends what its arguments ask for. -/
theorem ingest_sends : Does (SendsFor cfg user args) (fun _ => True) (ingest cfg user args) := by
  refine Does.bind (built_does fun _ hr => hr) fun request hr => ?_
  refine Does.bind (acquire_does trivial fun _ => trivial) fun _ _ => ?_
  refine Does.bind (collectDedupCatalogue_does fun _ _ => trivial) fun catalogue _ => ?_
  exact ingestWith_does.imp fun o ho => ho.sendsFor hr

theorem ingestRaw_sends :
    Does (SendsFor cfg user args) (fun _ => True) (ingestRaw cfg user args) := by
  refine Does.bind (built_does fun _ hr => hr) fun request hr => ?_
  refine Does.bind (acquire_does trivial fun _ => trivial) fun _ _ => ?_
  refine Does.bind (collectDedupCatalogue_does fun _ _ => trivial) fun catalogue _ => ?_
  exact ingestRawWith_does.imp fun o ho => ho.sendsFor hr

end Handlers

/-- Whatever the arguments, the catalogue, and the answers: an ingestion sends the
    messages that it validated, one for one, and only if the scan blocks none. -/
structure DedupSent (cfg : Config) (user : AuthenticatedUser) : Prop where
  ingestWith : ∀ request catalogue, Does (SendsIngest cfg.unicode catalogue
    (namesFor cfg catalogue request.messages.length) request) (fun _ => True)
    (ingestWith cfg user request catalogue)
  ingestRawWith : ∀ request catalogue, Does (SendsRaw cfg.unicode catalogue
    (namesFor cfg catalogue 1) request) (fun _ => True) (ingestRawWith cfg user request catalogue)
  ingest : ∀ args, Does (SendsFor cfg user args) (fun _ => True) (ingest cfg user args)
  ingestRaw : ∀ args, Does (SendsFor cfg user args) (fun _ => True) (ingestRaw cfg user args)

/-- What is sent was let through by the scan. -/
theorem dedup_sent (cfg : Config) (user : AuthenticatedUser) : DedupSent cfg user :=
  ⟨fun _ _ => ingestWith_does, fun _ _ => ingestRawWith_does, fun _ => ingest_sends,
    fun _ => ingestRaw_sends⟩

/-! ### Texts that name a shared entity when they are sent -/

/-- The text sent names no entity of the shared schema. -/
def SentClean (U : Unicode) (catalogue : DedupCatalogue) : Op → Prop
  | .ingest r => ∀ msg ∈ r.messages, ∀ ent ∈ catalogue.shared, ¬Names U msg.text ent
  | .ingestRaw r => ∀ ent ∈ catalogue.shared, ¬Names U r.text ent
  | _ => True

/-- The text that a raw ingestion sends. -/
def sentText : Op → Option String
  | .ingestRaw r => some r.text
  | _ => none

/-- A text that is sent, and has the key of a shared entity in it. -/
theorem not_sentClean {user : AuthenticatedUser} {request : IngestRawRequest}
    {catalogue : DedupCatalogue} (cfg : Config) (fs : List ((o : Op) → Option o.Ans))
    (text : String) (ent : EntityRef)
    (hsent : ((ingestRawWith cfg user request catalogue).after fs).bind sentText = some text)
    (hmem : ent ∈ catalogue.shared) (haligned : isLowercaseByteAligned cfg.unicode text.toList)
    (hnames : wordBoundaryContainsInLowercased cfg.unicode (toLowercase cfg.unicode text.toList)
      ent.normalizedKey.toList = some true) :
    ¬Does (SentClean cfg.unicode catalogue) (fun _ => True)
      (ingestRawWith cfg user request catalogue) := by
  intro hdoes
  obtain ⟨o, ho, hr⟩ := Option.bind_eq_some_iff.1 hsent
  have hclean := hdoes.after ho
  obtain ⟨b, hb, hiff⟩ := contains_iff (U := cfg.unicode)
    (toLowercase cfg.unicode text.toList) ent.normalizedKey.toList
  obtain rfl : b = true := Option.some.inj (hb.symm.trans hnames)
  obtain ⟨hkey, hoccurs⟩ := hiff.1 rfl
  cases o with
  | ingestRaw r =>
    cases hr
    exact hclean ent hmem ⟨haligned, hkey, hoccurs⟩
  | _ => cases hr

/-- The configuration of a server on ASCII, with a canonicalizer or without. -/
def Config.ascii (canonicalizer : Bool) : Config := ⟨"shared", canonicalizer, .ascii, fun _ => .null⟩

/-- An entity of a project. -/
def sampleEntity (name schema : String) : EntityRef := .new .ascii name "Project" schema

/-- The language model answers a text. -/
def geminiText (text : String) : (o : Op) → Option o.Ans
  | .gemini _ => some (.payload (.obj [("candidates", .arr [.obj [("content", .obj [("parts",
      .arr [.obj [("text", .str text)]])])]])]))
  | _ => none

/-- The language model writes the name of a shared entity, and so does the scan when
    it replaces a name by one with a blank before it. -/
theorem sent_not_clean :
    (¬∀ user request catalogue, Does (SentClean .ascii catalogue) (fun _ => True)
      (ingestRawWith (.ascii true) user request catalogue)) ∧
    ¬∀ user request catalogue, Does (SentClean .ascii catalogue) (fun _ => True)
      (ingestRawWith (.ascii false) user request catalogue) := by
  refine ⟨fun hall => ?_, fun hall => ?_⟩
  · refine not_sentClean (.ascii true) [geminiText "see Vegapunk"] "see Vegapunk"
      (sampleEntity "Vegapunk" "shared") (by decide) List.mem_cons_self
      (by decide) (by decide)
      (hall ⟨"u1", "c1", "user_1"⟩ ⟨"see vegpunk", ⟨"chat", none, none, none⟩, "user_1"⟩
        ⟨[sampleEntity "Vegapunk" "shared"], []⟩)
  · refine not_sentClean (.ascii false) [] "x  foo" (sampleEntity "x  foo" "shared")
      (by decide) List.mem_cons_self (by decide) (by decide)
      (hall ⟨"u1", "c1", "user_1"⟩ ⟨"x foo", ⟨"chat", none, none, none⟩, "user_1"⟩
        ⟨[sampleEntity "x  foo" "shared"], [sampleEntity " foo" "user_1"]⟩)

end LlmMemory.Vegapunk
