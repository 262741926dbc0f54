import LlmMemory.Coordinator.Operations
import LlmMemory.Server.Json

/-!
# The client of the model

What the coordinator asks the model, as the bytes that are sent
(`buildGeminiPayload`, of `extractRequest` or `synthesizeRequest`), and what it
makes of a reply (`complete`, then `extract` or `synthesize`). The reader of JSON
texts is a parameter.
-/

namespace LlmMemory.Llm

/-- An error of a call of the language model. -/
inductive LlmError
  | api (status : ℕ) (message : String)
  | parse (message : String)
  | reqwest
  | json
  deriving DecidableEq, Repr

/-- A message of a conversation. -/
structure Message where
  role : String
  content : String
  deriving DecidableEq, Repr

/-- A request to the language model. -/
structure CompleteRequest where
  model : String
  system : String
  messages : List Message
  maxTokens : ℕ
  responseSchema : Option Json
  thinkingBudget : Option ℕ

/-! ## Requests -/

/-- What the model is told for an extraction. -/
def EXTRACT_CONCEPTS_SYSTEM : String :=
  "\nあなたは長期的な知識ベースを管理するアシスタントです。\n" ++
  "新規 raws の主題を分析し、適切な concept (= 見出し単位の独立トピック) に分類してください。\n\n" ++
  "入力:\n- 新規 raws (title + content)\n- 既存 concept 名のリスト\n\n" ++
  "出力 (JSON):\n\x7b\n  \"affected_existing\": [\"既存 concept に追加すべきもの\"],\n" ++
  "  \"new_concepts\": [\"新規に作成すべき concept 名\"]\n\x7d\n\n" ++
  "ルール:\n" ++
  "- 新規 raw の主題が既存 concept の主題と **明確に一致する場合のみ** affected_existing に入れる。" ++
  "「なんとなく近い」「収まる場所が無い」だけで既存に倒すのは禁止\n" ++
  "- 固有名詞 (製品名 / 技術名 / 組織名 / プロジェクト名 / 人名 / ツール名) が主題なら、" ++
  "その名前を concept 名にして new_concepts に追加する。" ++
  "例: \"vegapunk\", \"notion\", \"sivira\", \"claude-max\"\n" ++
  "- 抽象的・汎用的な concept 名 (\"memo\", \"misc\", \"general\", \"notes\", \"test-memo\", " ++
  "\"personal-knowledge\" 等) を新規作成してはならない。既存にあっても、そこに集約しない\n" ++
  "- 1 つの raw が複数 concept に該当する場合は両方に追加して良い\n" ++
  "- concept 名は小文字英数字とハイフン (2〜64 文字)\n" ++
  "- 既存 concept 総数が 200 に達していたら new_concepts は空にする\n"

/-- What the model is told for a synthesis. -/
def SYNTHESIZE_WIKI_SYSTEM : String :=
  "\nあなたは概念ごとの wiki ページを編集するアシスタントです。\n\n" ++
  "入力として:\n- concept (タイトル)\n- 既存の wiki 内容 (空の場合あり)\n" ++
  "- 入力 raws のリスト (それぞれに id と内容)\n\n" ++
  "出力として、以下の JSON schema に従う JSON のみを返してください:\n\x7b\n" ++
  "  \"content\": \"Markdown 形式の wiki 本文\",\n" ++
  "  \"source_refs\": [\"raw_id_1\", \"raw_id_2\", ...]\n\x7d\n\n" ++
  "ルール:\n- source_refs は入力 raws の id のみを参照すること\n- content は日本語、Markdown\n" ++
  "- 既存 wiki があれば差分更新の形で統合する\n"

/-- The schema of an object with these fields, all of them required. -/
def objectSchema (fields : List (String × Json)) (required : List String) : Json :=
  .object [("type", .str "object"), ("properties", .object fields),
    ("required", .arr (required.map .str))]

/-- The schema of a list of texts. -/
def stringsSchema : Json :=
  .object [("type", .str "array"), ("items", .object [("type", .str "string")])]

/-- The schema of the answer to an extraction. -/
def extractResponseSchema : Json :=
  objectSchema [("affected_existing", stringsSchema), ("new_concepts", stringsSchema)]
    ["affected_existing", "new_concepts"]

/-- The schema of the answer to a synthesis. -/
def synthResponseSchema : Json :=
  objectSchema [("content", .object [("type", .str "string")]), ("source_refs", stringsSchema)]
    ["content", "source_refs"]

/-- Whether `pat` is in `s`. -/
def contains (s pat : String) : Bool := s.toList.tails.any pat.toList.isPrefixOf

/-- How much a model may think before it answers, if its series can think. -/
def thinkingBudgetForModel (model : String) : Option ℕ :=
  if !contains model "2.5" then none
  else if contains model "flash" then some 0
  else some 128

/-- The data of a prompt, as the text of the one message of its request. -/
def userJson : Prompt → Json
  | .extract newRaws existingConcepts => .object [
      ("new_raws", .arr (newRaws.map fun r =>
        .object [("title", .str r.1), ("content", .str r.2)])),
      ("existing_concepts", .arr (existingConcepts.map .str))]
  | .synthesize concept existingWiki raws => .object [
      ("concept", .str concept), ("existing_wiki", .option .str existingWiki),
      ("raws", .arr (raws.map fun r =>
        .object [("id", .str r.1), ("title", .str r.2.1), ("content", .str r.2.2)]))]

/-- The request of a prompt to the model named. -/
def request (model : String) (p : Prompt) : CompleteRequest :=
  let message : Message := ⟨"user", (userJson p).toText⟩
  match p with
  | .extract _ _ => ⟨model, EXTRACT_CONCEPTS_SYSTEM, [message], 8192, some extractResponseSchema,
      thinkingBudgetForModel model⟩
  | .synthesize _ _ _ => ⟨model, SYNTHESIZE_WIKI_SYSTEM, [message], 32768,
      some synthResponseSchema, thinkingBudgetForModel model⟩

/-! ## The payload -/

/-- A field that is left out if there is nothing in it. -/
def optional {α : Type} (name : String) (f : α → Json) : Option α → List (String × Json)
  | some a => [(name, f a)]
  | none => []

/-- A part of a message that is a text. -/
def textPart (text : String) : Json := .obj [("text", .str text)]

/-- A message of the payload, whose role is one of two. -/
def geminiContent (m : Message) : Json :=
  .obj [("role", .str (if m.role = "assistant" ∨ m.role = "model" then "model" else "user")),
    ("parts", .arr [textPart m.content])]

/-- The configuration of the generation. What the request does not have is left out. -/
def generationConfig (req : CompleteRequest) : Json :=
  .obj ([("maxOutputTokens", .int req.maxTokens)] ++
    optional "responseMimeType" .str (req.responseSchema.map fun _ => "application/json") ++
    optional "responseSchema" id req.responseSchema ++
    optional "thinkingConfig" (fun b => .obj [("thinkingBudget", .int (b : ℕ))])
      req.thinkingBudget)

/-- The payload of a request; its fields are in the order of their declarations. -/
def buildGeminiPayload (req : CompleteRequest) : Json :=
  .obj [("contents", .arr (req.messages.map geminiContent)),
    ("systemInstruction", .obj [("parts", .arr [textPart req.system])]),
    ("generationConfig", generationConfig req)]

/-- What is sent for a prompt. -/
def body (model : String) (p : Prompt) : String := (buildGeminiPayload (request model p)).toText

/-! ## Replies -/

/-- The field `name` of a record, at position `i` of an array. A record is not read if
    the field is given twice, nor from an array without it. -/
def member {α : Type} (v : Json) (name : String) (i : ℕ) (read : Json → Option α)
    (absent : Option α) : Option α :=
  match v with
  | .obj fields =>
    match fields.filter (·.1 = name) with
    | [] => absent
    | [f] => read f.2
    | _ => none
  | .arr vs => vs[i]?.bind read
  | _ => none

/-- A record with the one field `name`, which may be absent. -/
def readOptional {α β : Type} (name : String) (read : Json → Option α) (f : Option α → β)
    (v : Json) : Option β :=
  if v.fits 1 then (member v name 0 (Json.asOption read) (some none)).map f else none

/-- A part of the content of a candidate. -/
structure RespPart where
  text : Option String

/-- The content of a candidate. -/
structure RespContent where
  parts : Option (List RespPart)

/-- A candidate: its content, and why it ends. -/
structure RespCandidate where
  content : Option RespContent
  finishReason : Option String

/-- Why a prompt was blocked, if it was. -/
structure PromptFeedback where
  blockReason : Option String

/-- The body of a response. -/
structure GeminiResponse where
  candidates : Option (List RespCandidate)
  promptFeedback : Option PromptFeedback

/-- A part is read. -/
def RespPart.ofJson : Json → Option RespPart := readOptional "text" Json.asString .mk

/-- A content is read. -/
def RespContent.ofJson : Json → Option RespContent :=
  readOptional "parts" (Json.asVec RespPart.ofJson) .mk

/-- Feedback on a prompt is read. -/
def PromptFeedback.ofJson : Json → Option PromptFeedback :=
  readOptional "blockReason" Json.asString .mk

/-- A candidate is read. -/
def RespCandidate.ofJson (v : Json) : Option RespCandidate :=
  if v.fits 2 then do
    let content ← member v "content" 0 (Json.asOption RespContent.ofJson) (some none)
    let finishReason ← member v "finishReason" 1 (Json.asOption Json.asString) (some none)
    pure ⟨content, finishReason⟩
  else none

/-- The body of a response is read. -/
def GeminiResponse.ofJson (v : Json) : Option GeminiResponse :=
  if v.fits 2 then do
    let candidates ←
      member v "candidates" 0 (Json.asOption (Json.asVec RespCandidate.ofJson)) (some none)
    let promptFeedback ←
      member v "promptFeedback" 1 (Json.asOption PromptFeedback.ofJson) (some none)
    pure ⟨candidates, promptFeedback⟩
  else none

/-- The texts of the parts, one after the other. -/
def joined (parts : List RespPart) : String := String.join (parts.filterMap (·.text))

/-- The text of the content, unless there is none. -/
def contentText (content : Option RespContent) : Option String :=
  (content.bind (·.parts)).bind fun parts => if joined parts = "" then none else some (joined parts)

/-- The text of a response: that of its first candidate, if the prompt was not blocked and
    the candidate is finished. -/
def parseGeminiResponse (resp : GeminiResponse) : Except LlmError String :=
  match resp.promptFeedback.bind (·.blockReason) with
  | some reason => .error (.parse s!"vertex: prompt blocked by safety filter ({reason})")
  | none =>
    match resp.candidates.bind (·.head?) with
    | none => .error (.parse "vertex: no candidate in response")
    | some candidate =>
      match candidate.finishReason with
      | some reason =>
        if reason ≠ "STOP" then
          .error (.parse (s!"vertex: candidate finishReason={reason} " ++
            "(output may be truncated or blocked)"))
        else okOr (contentText candidate.content) (.parse "vertex: empty candidate content")
      | none => okOr (contentText candidate.content) (.parse "vertex: empty candidate content")
where
  okOr (text : Option String) (e : LlmError) : Except LlmError String :=
    match text with
    | some text => .ok text
    | none => .error e

/-- What came of a request: no token to send it with, no response, or one. -/
inductive Reply
  | noToken (e : String)
  | transport
  | response (status : ℕ) (body : String)

/-- The text that a reply gives. -/
def complete (fromStr : String → Option Json) : Reply → Except LlmError String
  | .noToken e => .error (.api 503 s!"ADC token fetch failed: {e}")
  | .transport => .error .reqwest
  | .response status body =>
    if status < 200 ∨ 300 ≤ status then .error (.api status body)
    else match (fromStr body).bind GeminiResponse.ofJson with
      | some resp => parseGeminiResponse resp
      | none => .error .reqwest

/-! ## Answers -/

/-- The last position of a character. -/
def rfind (c : Char) (cs : List Char) : Option ℕ :=
  (cs.reverse.idxOf? c).map fun i => cs.length - 1 - i

/-- What is between the first opening brace and the last closing one. -/
def extractJson (text : String) : Option String := do
  let start ← text.toList.idxOf? (Char.ofNat 0x7B)
  let stop ← rfind (Char.ofNat 0x7D) text.toList
  if start < stop then
    some (String.ofList ((text.toList.drop start).take (stop + 1 - start)))
  else none

/-- A record of two fields. -/
def readPair {α β γ : Type} (first : String) (readFirst : Json → Option α) (second : String)
    (readSecond : Json → Option β) (f : α → β → γ) (v : Json) : Option γ :=
  if v.fits 2 then do
    let a ← member v first 0 readFirst none
    let b ← member v second 1 readSecond none
    pure (f a b)
  else none

/-- The answer to an extraction is read. -/
def affectedOfJson : Json → Option AffectedConcepts :=
  readPair "affected_existing" (Json.asVec Json.asString) "new_concepts" (Json.asVec Json.asString) .mk

/-- The answer to a synthesis is read. -/
def synthOfJson : Json → Option WikiSynth :=
  readPair "content" Json.asString "source_refs" (Json.asVec Json.asString) .mk

/-- The answer in a reply, for the task named. -/
def answered {α : Type} (name : String) (ofJson : Json → Option α)
    (fromStr : String → Option Json) (reply : Reply) : Except LlmError α := do
  let content ← complete fromStr reply
  match extractJson content with
  | none => .error (.parse s!"{name}: no JSON in response: {content}")
  | some text =>
    match (fromStr text).bind ofJson with
    | some a => .ok a
    | none => .error .json

/-- The answer to an extraction, from the reply. -/
def extract : (String → Option Json) → Reply → Except LlmError AffectedConcepts :=
  answered "extract" affectedOfJson

/-- The answer to a synthesis, from the reply. -/
def synthesize : (String → Option Json) → Reply → Except LlmError WikiSynth :=
  answered "synthesize" synthOfJson

end LlmMemory.Llm
