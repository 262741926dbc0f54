import LlmMemory.Vegapunk.Requests

/-!
# The canonicalizer

Texts may be rewritten by a language model, given the names of the entities of
the catalogue: the prompt made of them and of the text (`buildPrompt`), the cap
on the bytes of the answer (`outputCapFor`), and the reading of the answer, a
JSON value (`extractText`).
-/

namespace LlmMemory.Vegapunk

/-- The longest text that is sent. -/
def MAX_TEXT_BYTES : ℕ := 32 * 1024
/-- The most names in a prompt. -/
def MAX_CATALOGUE_ENTRIES : ℕ := 200
/-- The least cap on an answer. -/
def OUTPUT_ABSOLUTE_MIN_BYTES : ℕ := 256
/-- The bytes counted for a token. -/
def OUTPUT_BYTES_PER_TOKEN_FLOOR : ℕ := 2
/-- The longest name in a prompt. -/
def MAX_CATALOGUE_NAME_BYTES : ℕ := 128

/-- Why there is no canonicalized text. -/
inductive CanonicalizeError
  | http
  | api (status : ℕ)
  | parse (message : String)
  | outputRejected (message : String)
  deriving DecidableEq, Repr

/-! ## The prompt -/

/-- The characters of the category `Cc`. -/
def isControl (c : Char) : Bool := c.toNat < 0x20 || (0x7F ≤ c.toNat && c.toNat ≤ 0x9F)

/-- A line break, or another control, is a space. -/
def sanitizeChar (c : Char) : Char :=
  if isControl c || c.toNat = 0x2028 || c.toNat = 0x2029 then ' ' else c

/-- The characters sanitized, as many as fit, after `buf`. -/
def sanitizeChars (buf : List Char) : List Char → List Char
  | [] => buf
  | c :: cs =>
    if MAX_CATALOGUE_NAME_BYTES < len buf + (sanitizeChar c).utf8Size then buf
    else sanitizeChars (buf ++ [sanitizeChar c]) cs

/-- A name as it is put in the prompt: on one line, cut, and trimmed. -/
def sanitizeCatalogueName (raw : String) : String :=
  String.ofList (trim (sanitizeChars [] raw.toList))

/-- The names as they are put in the prompt, those that are left. -/
def sanitizeCatalogueNamesForPrompt (catalogueNames : List String) : List String :=
  ((catalogueNames.map sanitizeCatalogueName).filter (· ≠ "")).take MAX_CATALOGUE_ENTRIES

/-- The prompt, with the names and the text. -/
def buildPrompt (sanitizedNames : List String) (text : String) : String :=
  let entities := "\n".intercalate (sanitizedNames.map fun n => "- " ++ n)
  "You are a text canonicalization helper for a knowledge graph ingest pipeline.\n\n" ++
  "You will be given:\n" ++
  "1. A list of canonical entity names that already exist in the graph.\n" ++
  "2. A piece of text that is about to be ingested.\n\n" ++
  "Your task is to rewrite the text so that any clear reference to an existing canonical " ++
  "entity uses the canonical name verbatim. This includes:\n" ++
  "- Typos (e.g. 'vegpunk' -> 'Vegapunk')\n" ++
  "- Possessives and particles (e.g. 'Vegapunk's', 'Vegapunkの')\n" ++
  "- Abbreviations and alternate spellings that obviously refer to the canonical entity\n\n" ++
  "Strict rules:\n" ++
  "- Only rewrite when you are highly confident (>90%) that the reference matches a listed " ++
  "entity.\n" ++
  "- Do NOT add or remove information, summarize, or rephrase non-entity content.\n" ++
  "- Preserve all other words, punctuation, line breaks, and formatting verbatim.\n" ++
  "- If you are unsure, leave the word unchanged.\n" ++
  "- Output ONLY the rewritten text. No commentary, no markdown fences, no preamble.\n\n" ++
  "Canonical entities:\n" ++ entities ++ "\n\nText:\n" ++ text ++ "\n\nRewritten text:"

/-! ## The answer -/

/-- The most bytes of an answer: `1.5` times those of the text, rounded up. (In
    32-bit floats this is exact for the texts that are sent, of at most
    `MAX_TEXT_BYTES`.) -/
def outputCapFor (input : String) : ℕ :=
  max OUTPUT_ABSOLUTE_MIN_BYTES ((3 * input.utf8ByteSize + 1) / 2)

/-- The most tokens of an answer. -/
def requestMaxOutputTokensFor (outputCapBytes : ℕ) : ℕ :=
  min (max (outputCapBytes / OUTPUT_BYTES_PER_TOKEN_FLOOR) 1) 32768

/-- An answer must not be too long. -/
def validateOutputSize (input output : String) : Except CanonicalizeError Unit :=
  let cap := outputCapFor input
  if cap < output.utf8ByteSize then
    .error (.outputRejected (s!"output bytes {output.utf8ByteSize} exceed cap {cap} " ++
      s!"(input bytes {input.utf8ByteSize})"))
  else .ok ()

/-- The value at a path, whose tokens are names in objects, and decimal positions in
    arrays. -/
def pointer : List String → Json → Option Json
  | [], v => some v
  | token :: tokens, .obj fields => (fields.lookup token).bind (pointer tokens)
  | token :: tokens, .arr vs =>
    ((vs.zipIdx.find? fun v => toString v.2 = token).map (·.1)).bind (pointer tokens)
  | _, _ => none

/-- The texts of the parts, one after the other. -/
def partsText (parts : List Json) : String :=
  String.join (parts.filterMap fun p =>
    (asObject p).bind fun fields => (fields.lookup "text").bind Json.asString)

/-- The text of the first candidate, unless it was cut off. -/
def extractText (payload : Json) : Except CanonicalizeError String :=
  if (pointer ["candidates", "0", "finishReason"] payload).bind Json.asString =
      some "MAX_TOKENS" then
    .error (.outputRejected "gemini finishReason=MAX_TOKENS; output likely truncated")
  else match (pointer ["candidates", "0", "content", "parts"] payload).bind asArray with
    | none => .error (.parse "missing candidates[0].content.parts")
    | some parts =>
      if partsText parts = "" then .error (.parse "candidates[0].content.parts had no text")
      else .ok (partsText parts)

/-! ## Calls -/

/-- A request to the language model. -/
structure GeminiRequest where
  prompt : String
  maxOutputTokens : ℕ
  deriving DecidableEq, Repr

/-- What came of a request: no answer, one with another status than success, or
    with a body that is not JSON, or a value. -/
inductive GeminiReply
  | transport
  | status (code : ℕ)
  | undecodable
  | payload (v : Json)

/-- The request to rewrite a text, unless it is left as it is. -/
def canonicalizeRequest (catalogueNames : List String) (text : String) : Option GeminiRequest :=
  if catalogueNames = [] then none
  else if trimmed text = "" then none
  else if MAX_TEXT_BYTES < text.utf8ByteSize then none
  else
    let sanitized := sanitizeCatalogueNamesForPrompt catalogueNames
    if sanitized = [] then none
    else some ⟨buildPrompt sanitized text, requestMaxOutputTokensFor (outputCapFor text)⟩

/-- What the canonicalizer makes of a reply to the request for a text. -/
def canonicalizeReply (text : String) : GeminiReply → Except CanonicalizeError String
  | .transport => .error .http
  | .status code => .error (.api code)
  | .undecodable => .error (.parse "json decode")
  | .payload v => do
    let output ← extractText v
    let _ ← validateOutputSize text output
    .ok output

end LlmMemory.Vegapunk
