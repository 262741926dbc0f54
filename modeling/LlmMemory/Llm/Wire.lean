import LlmMemory.Llm.Client
import LlmMemory.Server.JsonText

/-!
# Prompts and answers on the wire

What is sent for a prompt is of this prompt only, whatever is written in the raws
and the page it is made of (`body_eq_iff`). An answer is read from a reply
exactly if its text is an object with the answer, after something without an
opening brace and before something without a closing one (`answered_iff`).
-/

namespace LlmMemory.Llm

open Json

/-! ## Prompts -/

theorem plain_strings (ss : List String) : Plain (.arr (ss.map .str)) = true :=
  plain_map (fun _ => rfl) ss

/-- The data of a prompt is plain. -/
theorem plain_userJson (p : Prompt) : Plain (userJson p) = true := by
  cases p with
  | extract newRaws existingConcepts =>
    have hraws := plain_map (f := fun r : String × String =>
      object [("title", .str r.1), ("content", .str r.2)]) (fun _ => plain_object rfl) newRaws
    have hconcepts := plain_strings existingConcepts
    exact plain_object (by rw [plainFields, hraws, plainFields, hconcepts, plainFields]; rfl)
  | synthesize concept existingWiki raws =>
    have hwiki := plain_option (f := Json.str) (fun _ => rfl) existingWiki
    have hraws := plain_map (f := fun r : String × String × String =>
      object [("id", .str r.1), ("title", .str r.2.1), ("content", .str r.2.2)])
      (fun _ => plain_object rfl) raws
    exact plain_object (by
      rw [plainFields, plainFields, hwiki, plainFields, hraws, plainFields]; rfl)

theorem option_str_injective {s s' : Option String}
    (h : Json.option .str s = Json.option .str s') : s = s' := by
  cases s <;> cases s' <;> simp_all [Json.option]

/-- The data of a prompt is in its text. -/
theorem userJson_injective {p p' : Prompt} (h : userJson p = userJson p') : p = p' := by
  have hstr : Function.Injective Json.str := fun _ _ h => Json.str.inj h
  cases p with
  | extract newRaws existingConcepts =>
    cases p' with
    | extract newRaws' existingConcepts' =>
      simp [userJson, object, List.orderedInsert] at h
      obtain ⟨hconcepts, hraws⟩ := h
      have hinj : Function.Injective fun r : String × String =>
          obj [("content", .str r.2), ("title", .str r.1)] := fun r r' h => by
        simpa [Prod.ext_iff, and_comm] using h
      rw [List.map_injective_iff.2 hstr hconcepts, List.map_injective_iff.2 hinj hraws]
    | synthesize concept existingWiki raws => simp [userJson, object, List.orderedInsert] at h
  | synthesize concept existingWiki raws =>
    cases p' with
    | extract newRaws existingConcepts => simp [userJson, object, List.orderedInsert] at h
    | synthesize concept' existingWiki' raws' =>
      simp [userJson, object, List.orderedInsert] at h
      obtain ⟨rfl, hwiki, hraws⟩ := h
      have hinj : Function.Injective fun r : String × String × String =>
          obj [("content", .str r.2.2), ("id", .str r.1), ("title", .str r.2.1)] := fun r r' h => by
        simpa [Prod.ext_iff, and_comm, and_assoc] using h
      rw [option_str_injective hwiki, List.map_injective_iff.2 hinj hraws]

/-- A request has one message, the data of its prompt. -/
theorem request_messages (model : String) (p : Prompt) :
    (request model p).messages = [⟨"user", (userJson p).toText⟩] := by
  cases p <;> rfl

/-- A field that may be missing is plain. -/
theorem plain_optional {α : Type} {name : String} {f : α → Json} {a : Option α}
    (h : ∀ x ∈ a, Plain (f x) = true) : plainFields (optional name f a) = true := by
  cases a with
  | none => rfl
  | some a => exact plainFields_iff.2 (List.forall_mem_singleton.2 (h a rfl))

theorem plainFields_append {fields fields' : List (String × Json)}
    (h : plainFields fields = true) (h' : plainFields fields' = true) :
    plainFields (fields ++ fields') = true :=
  plainFields_iff.2 (List.forall_mem_append.2 ⟨plainFields_iff.1 h, plainFields_iff.1 h'⟩)

/-- A payload is plain if its schema is. -/
theorem plain_payload {req : CompleteRequest} (h : ∀ v ∈ req.responseSchema, Plain v = true) :
    Plain (buildGeminiPayload req) = true := by
  have hconfig : Plain (generationConfig req) = true :=
    plainFields_append (plainFields_append (plainFields_append rfl
      (plain_optional fun _ _ => rfl)) (plain_optional h)) (plain_optional fun _ _ => rfl)
  have hcontents : Plain (.arr (req.messages.map geminiContent)) = true :=
    plain_map (fun _ => rfl) _
  rw [buildGeminiPayload, Plain, plainFields, hcontents, plainFields, plainFields, hconfig]
  rfl

/-- The schema of a prompt is plain. -/
theorem plain_responseSchema (model : String) (p : Prompt) :
    ∀ v ∈ (request model p).responseSchema, Plain v = true := by
  intro v hv
  cases p <;> cases hv <;> decide

/-- A field that may be missing gives its value. -/
theorem optional_injective {α : Type} {name : String} {f : α → Json} (hf : Function.Injective f)
    {a a' : Option α} (h : optional name f a = optional name f a') : a = a' := by
  cases a with
  | none =>
    cases a' with
    | none => rfl
    | some a' => cases h
  | some a =>
    cases a' with
    | none => cases h
    | some a' => rw [hf (Prod.mk.inj (List.cons.inj h).1).2]

/-- The budget of a request is that of its model. -/
theorem request_thinkingBudget (model : String) (p : Prompt) :
    (request model p).thinkingBudget = thinkingBudgetForModel model := by
  cases p <;> rfl

/-- Requests for a prompt that are sent with one configuration have one budget. -/
theorem thinkingBudget_eq {model model' : String} {p : Prompt}
    (h : generationConfig (request model p) = generationConfig (request model' p)) :
    thinkingBudgetForModel model = thinkingBudgetForModel model' := by
  have htokens : (request model p).maxTokens = (request model' p).maxTokens := by cases p <;> rfl
  have hschema : (request model p).responseSchema = (request model' p).responseSchema := by
    cases p <;> rfl
  have hinj : Function.Injective fun b : ℕ => obj [("thinkingBudget", .int b)] := fun b b' h => by
    simpa using h
  have hfields := obj.inj h
  rw [htokens, hschema, request_thinkingBudget, request_thinkingBudget] at hfields
  exact optional_injective hinj (List.append_cancel_left hfields)

/-- What is sent is of one prompt only, and of one budget. -/
theorem body_eq_iff (model model' : String) (p p' : Prompt) :
    body model p = body model' p' ↔
      p = p' ∧ thinkingBudgetForModel model = thinkingBudgetForModel model' := by
  constructor
  · intro h
    have hpayload := toText_inj (plain_payload (plain_responseSchema model p))
      (plain_payload (plain_responseSchema model' p')) h
    simp only [buildGeminiPayload, obj.injEq, List.cons.injEq, Prod.mk.injEq, true_and] at hpayload
    obtain ⟨hcontents, -, hconfig, -⟩ := hpayload
    have htext : (userJson p).toText = (userJson p').toText := by
      simp only [request_messages, List.map_cons, List.map_nil, geminiContent, textPart, obj.injEq,
        arr.injEq, str.injEq, List.cons.injEq, Prod.mk.injEq] at hcontents
      exact hcontents.1.2.1.2.1.1.2
    obtain rfl := userJson_injective (toText_inj (plain_userJson p) (plain_userJson p') htext)
    exact ⟨rfl, thinkingBudget_eq hconfig⟩
  · rintro ⟨rfl, hbudget⟩
    have hpayload : buildGeminiPayload (request model p) = buildGeminiPayload (request model' p) := by
      cases p <;> simp only [request, buildGeminiPayload, generationConfig, hbudget]
    rw [body, hpayload, body]

/-! ## Objects in prose -/

theorem idxOf?_append {c : Char} {pre rest : List Char} (h : c ∉ pre) :
    (pre ++ c :: rest).idxOf? c = some pre.length := by
  induction pre with
  | nil => rw [List.nil_append, List.idxOf?_cons, if_pos (beq_self_eq_true c)]; rfl
  | cons d pre ih =>
    rw [List.mem_cons, not_or] at h
    rw [List.cons_append, List.idxOf?_cons, if_neg (by simpa using Ne.symm h.1), ih h.2]
    rfl

theorem rfind_append {c : Char} {front post : List Char} (h : c ∉ post) :
    rfind c (front ++ c :: post) = some front.length := by
  have hrev : (front ++ c :: post).reverse = post.reverse ++ c :: front.reverse := by
    rw [List.reverse_append, List.reverse_cons, List.append_assoc, List.singleton_append]
  rw [rfind, hrev, idxOf?_append (by rwa [List.mem_reverse]), Option.map_some, List.length_append,
    List.length_cons, List.length_reverse]
  congr 1
  omega

theorem idxOf?_none {c : Char} {cs : List Char} (h : c ∉ cs) : cs.idxOf? c = none := by
  rw [List.idxOf?_eq_none_iff]
  exact h

theorem rfind_none {c : Char} {cs : List Char} (h : c ∉ cs) : rfind c cs = none := by
  rw [rfind, idxOf?_none (by rwa [List.mem_reverse])]
  rfl

/-- The text `t` is in `text` after something without an opening brace, and before
    something without a closing one. -/
def Wrapped (text t : String) : Prop :=
  ∃ pre mid post : List Char, text.toList = pre ++ t.toList ++ post ∧
    t.toList = Char.ofNat 0x7B :: mid ++ [Char.ofNat 0x7D] ∧
    Char.ofNat 0x7B ∉ pre ∧ Char.ofNat 0x7D ∉ post

/-- A character that is there has a last place. -/
theorem exists_last {c : Char} {cs : List Char} (h : c ∈ cs) :
    ∃ front post, cs = front ++ c :: post ∧ c ∉ post := by
  obtain ⟨bs, as, hcs, hnot⟩ := List.eq_append_cons_of_mem (List.mem_reverse.2 h)
  refine ⟨as.reverse, bs.reverse, ?_, by rwa [List.mem_reverse]⟩
  rw [← List.reverse_reverse cs, hcs, List.reverse_append, List.reverse_cons, List.append_assoc,
    List.singleton_append]

/-- The object lies between the two braces. -/
theorem extractJson_of_positions {text : String} {pre rest front post : List Char}
    (hfirst : text.toList = pre ++ Char.ofNat 0x7B :: rest) (hpre : Char.ofNat 0x7B ∉ pre)
    (hlast : text.toList = front ++ Char.ofNat 0x7D :: post) (hpost : Char.ofNat 0x7D ∉ post) :
    extractJson text = if pre.length < front.length then
      some (String.ofList ((text.toList.drop pre.length).take (front.length + 1 - pre.length)))
    else none := by
  have hstart : text.toList.idxOf? (Char.ofNat 0x7B) = some pre.length := by
    rw [hfirst, idxOf?_append hpre]
  have hstop : rfind (Char.ofNat 0x7D) text.toList = some front.length := by
    rw [hlast, rfind_append hpost]
  rw [extractJson, hstart, hstop]
  rfl

/-- What is read begins with the first opening brace, and ends with the last closing
    one. -/
theorem wrapped_of_positions {text t : String} {pre rest front post : List Char}
    (hfirst : text.toList = pre ++ Char.ofNat 0x7B :: rest) (hpre : Char.ofNat 0x7B ∉ pre)
    (hlast : text.toList = front ++ Char.ofNat 0x7D :: post) (hpost : Char.ofNat 0x7D ∉ post)
    (hlt : pre.length < front.length)
    (ht : String.ofList ((text.toList.drop pre.length).take (front.length + 1 - pre.length)) = t) :
    Wrapped text t := by
  obtain ⟨mid, hfront⟩ : ∃ mid, front = pre ++ Char.ofNat 0x7B :: mid := by
    have hprefix : pre ++ [Char.ofNat 0x7B] <+: front := by
      have hbegins : pre ++ [Char.ofNat 0x7B] <+: text.toList :=
        ⟨rest, by rw [hfirst, List.append_assoc, List.singleton_append]⟩
      have hfront : front <+: text.toList := by
        rw [hlast]
        exact List.prefix_append _ _
      refine List.prefix_of_prefix_length_le hbegins hfront ?_
      rw [List.length_append, List.length_singleton]
      omega
    obtain ⟨mid, hmid⟩ := hprefix
    exact ⟨mid, by rw [← hmid, List.append_assoc, List.singleton_append]⟩
  have htext : text.toList = pre ++ (Char.ofNat 0x7B :: mid ++ [Char.ofNat 0x7D]) ++ post := by
    rw [hlast, hfront]
    simp
  have hread : t.toList = Char.ofNat 0x7B :: mid ++ [Char.ofNat 0x7D] := by
    rw [← ht, String.toList_ofList, htext, List.append_assoc, List.drop_left,
      List.take_left' (by rw [hfront]; simp; omega)]
  exact ⟨pre, mid, post, by rw [hread, htext], hread, hpre, hpost⟩

theorem extractJson_iff {text t : String} : extractJson text = some t ↔ Wrapped text t := by
  constructor
  · intro h
    by_cases hopen : Char.ofNat 0x7B ∈ text.toList
    · by_cases hclose : Char.ofNat 0x7D ∈ text.toList
      · obtain ⟨pre, rest, hfirst, hpre⟩ := List.eq_append_cons_of_mem hopen
        obtain ⟨front, post, hlast, hpost⟩ := exists_last hclose
        rw [extractJson_of_positions hfirst hpre hlast hpost] at h
        split at h
        · next hlt => exact wrapped_of_positions hfirst hpre hlast hpost hlt (Option.some.inj h)
        · cases h
      · rw [extractJson, rfind_none hclose] at h
        cases hstart : text.toList.idxOf? (Char.ofNat 0x7B) <;> rw [hstart] at h <;> cases h
    · rw [extractJson, idxOf?_none hopen] at h
      cases h
  · rintro ⟨pre, mid, post, htext, ht, hpre, hpost⟩
    have hfirst : text.toList = pre ++ Char.ofNat 0x7B :: (mid ++ Char.ofNat 0x7D :: post) := by
      rw [htext, ht]
      simp
    have hlast : text.toList = (pre ++ Char.ofNat 0x7B :: mid) ++ Char.ofNat 0x7D :: post := by
      rw [htext, ht]
      simp
    rw [extractJson_of_positions hfirst hpre hlast hpost, if_pos (by simp), htext,
      List.append_assoc, List.drop_left, List.take_left' (by rw [ht]; simp; omega),
      String.ofList_toList]

/-! ## Replies -/

/-- The response gives the text `text`: its prompt was not blocked, and its first
    candidate, which did not stop early, has the text in its parts. -/
def GeminiResponse.Gives (resp : GeminiResponse) (text : String) : Prop :=
  resp.promptFeedback.bind (·.blockReason) = none ∧
    ∃ c cs content parts, resp.candidates = some (c :: cs) ∧
      (∀ reason ∈ c.finishReason, reason = "STOP") ∧ c.content = some content ∧
      content.parts = some parts ∧ joined parts = text ∧ text ≠ ""

/-- The reply is a success with a response that gives `text`. -/
def Gives (fromStr : String → Option Json) (reply : Reply) (text : String) : Prop :=
  ∃ status body v resp, reply = .response status body ∧ 200 ≤ status ∧ status < 300 ∧
    fromStr body = some v ∧ GeminiResponse.ofJson v = some resp ∧ resp.Gives text

theorem contentText_iff {content : Option RespContent} {text : String} :
    contentText content = some text ↔ ∃ c parts, content = some c ∧ c.parts = some parts ∧
      joined parts = text ∧ text ≠ "" := by
  rw [contentText, Option.bind_eq_some_iff]
  constructor
  · rintro ⟨parts, hparts, h⟩
    obtain ⟨c, hc, hparts⟩ := Option.bind_eq_some_iff.1 hparts
    split at h
    · cases h
    · next hne =>
      obtain rfl := Option.some.inj h
      exact ⟨c, parts, hc, hparts, rfl, hne⟩
  · rintro ⟨c, parts, hc, hparts, rfl, hne⟩
    exact ⟨parts, Option.bind_eq_some_iff.2 ⟨c, hc, hparts⟩, if_neg hne⟩

theorem okOr_iff {text : Option String} {e : LlmError} {t : String} :
    parseGeminiResponse.okOr text e = .ok t ↔ text = some t := by
  cases text with
  | none => exact ⟨fun h => (nomatch h), fun h => (nomatch h)⟩
  | some text => rw [parseGeminiResponse.okOr, Except.ok.injEq, Option.some_inj]

/-- A response is read as the text it gives. -/
theorem parseGeminiResponse_iff {resp : GeminiResponse} {text : String} :
    parseGeminiResponse resp = .ok text ↔ resp.Gives text := by
  rw [parseGeminiResponse, GeminiResponse.Gives]
  cases hblock : resp.promptFeedback.bind (·.blockReason) with
  | some reason => simp
  | none =>
    cases hcands : resp.candidates with
    | none => simp
    | some cs =>
      cases cs with
      | nil => simp
      | cons c cs =>
        cases hreason : c.finishReason with
        | none => simp [okOr_iff, contentText_iff, hreason]
        | some reason =>
          by_cases hstop : reason = "STOP"
          · simp [okOr_iff, contentText_iff, hreason, hstop]
          · simp [hreason, hstop]

/-- A reply is read as the text that its response gives. -/
theorem complete_iff {fromStr : String → Option Json} {reply : Reply} {text : String} :
    complete fromStr reply = .ok text ↔ Gives fromStr reply text := by
  cases reply with
  | noToken e => simp [complete, Gives]
  | transport => simp [complete, Gives]
  | response status body =>
    rw [complete]
    by_cases hstatus : status < 200 ∨ 300 ≤ status
    · simp only [if_pos hstatus, Gives, reduceCtorEq, false_iff]
      rintro ⟨status', body', v, resp, h, hge, hlt, -⟩
      cases h
      omega
    · rw [if_neg hstatus]
      cases hread : (fromStr body).bind GeminiResponse.ofJson with
      | none =>
        simp only [Gives, reduceCtorEq, false_iff]
        rintro ⟨status', body', v, resp, h, -, -, hv, hresp, -⟩
        cases h
        rw [hv, Option.bind_some, hresp] at hread
        cases hread
      | some resp =>
        obtain ⟨v, hv, hresp⟩ := Option.bind_eq_some_iff.1 hread
        simp only [parseGeminiResponse_iff]
        constructor
        · intro h
          exact ⟨status, body, v, resp, rfl, by omega, by omega, hv, hresp, h⟩
        · rintro ⟨status', body', v', resp', h, -, -, hv', hresp', hgives⟩
          cases h
          rw [hv, Option.some_inj] at hv'
          subst hv'
          rw [hresp, Option.some_inj] at hresp'
          rwa [hresp']

/-- An answer is read from the object wrapped in the text. -/
theorem answered_eq_ok_iff {α : Type} {name : String} {ofJson : Json → Option α}
    {fromStr : String → Option Json} {reply : Reply} {a : α} :
    answered name ofJson fromStr reply = .ok a ↔ ∃ text t v, Gives fromStr reply text ∧
      Wrapped text t ∧ fromStr t = some v ∧ ofJson v = some a := by
  simp only [← complete_iff, ← extractJson_iff]
  rw [answered]
  cases hcomplete : complete fromStr reply with
  | error e =>
    refine ⟨fun h => (nomatch h), ?_⟩
    rintro ⟨text, t, v, h, -⟩
    cases h
  | ok content =>
    simp only [bind, Except.bind]
    cases htext : extractJson content with
    | none =>
      refine ⟨fun h => (nomatch h), ?_⟩
      rintro ⟨text, t, v, h, ht, -⟩
      cases h
      rw [htext] at ht
      cases ht
    | some t =>
      cases hread : (fromStr t).bind ofJson with
      | none =>
        refine ⟨fun h => ?_, ?_⟩
        · simp only [hread] at h
          cases h
        · rintro ⟨text, t', v, h, ht, hv, ha⟩
          cases h
          rw [htext, Option.some_inj] at ht
          subst ht
          rw [hv, Option.bind_some, ha] at hread
          cases hread
      | some a' =>
        simp only [hread]
        constructor
        · intro h
          obtain ⟨v, hv, ha⟩ := Option.bind_eq_some_iff.1 hread
          exact ⟨content, t, v, rfl, htext, hv, by rw [ha, ← Except.ok.inj h]⟩
        · rintro ⟨text, t', v, h, ht, hv, ha⟩
          cases h
          rw [htext, Option.some_inj] at ht
          subst ht
          rw [hv, Option.bind_some, ha] at hread
          rw [Option.some.inj hread]

/-- An answer is read exactly from the replies that give a text where its object is
    between something without an opening brace and something without a closing one. -/
theorem answered_iff (fromStr : String → Option Json) (reply : Reply) :
    (∀ a : AffectedConcepts, extract fromStr reply = .ok a ↔ ∃ text t v,
      Gives fromStr reply text ∧ Wrapped text t ∧ fromStr t = some v ∧ affectedOfJson v = some a) ∧
    ∀ w : WikiSynth, synthesize fromStr reply = .ok w ↔ ∃ text t v,
      Gives fromStr reply text ∧ Wrapped text t ∧ fromStr t = some v ∧ synthOfJson v = some w :=
  ⟨fun _ => answered_eq_ok_iff, fun _ => answered_eq_ok_iff⟩

end LlmMemory.Llm
