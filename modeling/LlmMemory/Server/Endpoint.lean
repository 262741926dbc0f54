import LlmMemory.Lib.Unwinding
import LlmMemory.Server.ReadCalls
import LlmMemory.Server.Transport
import LlmMemory.Server.WriteTools

/-!
# The endpoint of the tools

All that happens to the state that the tools answer from (`Endpoint.step`): calls of
any users, in flight at the same time, each numbered by its caller; accounts being
deleted; and what the rebuild workers do, which is to write pages and to change
whether an owner has a worker. Calls begin as far as the first query, which they
then wait for; with each of their queries (`Endpoint.go`) they go on to the next one,
so that anything may happen in between, or are answered.
-/

namespace LlmMemory

open TokenBucket (Buckets)

/-- What a call in flight waits for. -/
inductive Work
  | read (w : ReadCall)
  | write (w : WriteCall)

/-- A call of a tool in flight. -/
structure Pending where
  rpcId : Option Json
  tool : String
  work : Work

/-- The endpoint: what it shares with the workers, the buckets of the users, and the calls
    that are pending. -/
structure Endpoint where
  shared : Shared
  /-- The time of the rate limiter, in seconds. -/
  secs : ℚ
  buckets : Buckets ℚ (String × String)
  pending : String × ℕ → Option Pending

/-- What happens: a user calls a tool, a call goes on, a user deletes their account, a
    page is written, the entry of an owner in the states of the rebuilds changes, or
    time passes. -/
inductive EndpointEvent
  | call (userId : String) (n : ℕ) (rpcId : Option Json) (params : Json) (ulid : String)
  | go (userId : String) (n : ℕ) (ok : Bool)
  | deleteMe (userId : String)
  | page (key : OwnerKey) (concept content : String) (sourceRefs : List String) (t : Int)
  | slot (key : OwnerKey) (e : Option RebuildState)
  | tick (dt : ℕ) (secs : ℚ)

/-- The response to the call numbered `n` of a user. -/
structure Answer where
  userId : String
  n : ℕ
  response : JsonRpc.JsonRpcResponse

/-- The name of the tool called. -/
def calledTool (params : Json) : String := ((params.get "name").bind Json.asString).getD ""

/-- What a call does before it waits. -/
def startWork (userId ulid : String) (now : Int) (name : String) (args : Json) :
    Except ToolError Work :=
  match name with
  | "raw_append" => (WriteTool.rawAppend.start userId ulid now args).map .write
  | "raw_read" => (ReadTool.start userId args .rawRead).map .read
  | "raw_search" => (ReadTool.start userId args .rawSearch).map .read
  | "wiki_read" => (ReadTool.start userId args .wikiRead).map .read
  | "wiki_list" => (ReadTool.start userId args .wikiList).map .read
  | "wiki_rebuild" => (WriteTool.wikiRebuild.start userId ulid now args).map .write
  | "schema_read" => (ReadTool.start userId args .schemaRead).map .read
  | "schema_update" => (WriteTool.schemaUpdate.start userId ulid now args).map .write
  | "export" => (ReadTool.start userId args .export).map .read
  | _ => .error .args

/-- A call that waits is one of a tool that reads, or of one that writes. -/
theorem startWork_ok {userId ulid name : String} {now : Int} {args : Json} {work : Work}
    (h : startWork userId ulid now name args = .ok work) :
    (∃ t w, ReadTool.start userId args t = .ok w ∧ name = t.name ∧ work = .read w) ∨
      ∃ t w, WriteTool.start userId ulid now args t = .ok w ∧ name = t.name ∧ work = .write w := by
  have hread : ∀ t : ReadTool, (t.start userId args).map Work.read = .ok work →
      ∃ t' w, ReadTool.start userId args t' = .ok w ∧ t.name = t'.name ∧ work = .read w :=
    fun t h => by
      cases hstart : t.start userId args <;> rw [hstart] at h <;> cases h
      exact ⟨t, _, hstart, rfl, rfl⟩
  have hwrite : ∀ t : WriteTool, (t.start userId ulid now args).map Work.write = .ok work →
      ∃ t' w, WriteTool.start userId ulid now args t' = .ok w ∧ t.name = t'.name ∧
        work = .write w := fun t h => by
    cases hstart : t.start userId ulid now args <;> rw [hstart] at h <;> cases h
    exact ⟨t, _, hstart, rfl, rfl⟩
  unfold startWork at h
  split at h
  · exact .inr (hwrite _ h)
  · exact .inl (hread _ h)
  · exact .inl (hread _ h)
  · exact .inl (hread _ h)
  · exact .inl (hread _ h)
  · exact .inr (hwrite _ h)
  · exact .inl (hread _ h)
  · exact .inr (hwrite _ h)
  · exact .inl (hread _ h)
  · cases h

/-- The result of a call. -/
def callResult (name : String) : Except ToolError Json → Json
  | .ok v => callToolResultOk v
  | .error _ => callToolResultErr s!"tool '{name}' failed"

namespace Endpoint

/-- A call is set, or done. -/
def setPending (s : Endpoint) (k : String × ℕ) (p : Option Pending) : Endpoint :=
  { s with pending := Function.update s.pending k p }

@[simp] theorem setPending_self {s : Endpoint} {k : String × ℕ} {p : Option Pending} :
    (s.setPending k p).pending k = p := Function.update_self ..

theorem setPending_of_ne {s : Endpoint} {k k' : String × ℕ} {p : Option Pending} (h : k' ≠ k) :
    (s.setPending k p).pending k' = s.pending k' := Function.update_of_ne h ..

/-- A call comes in; `ulid` is the id of a raw that it may insert. -/
def call (s : Endpoint) (userId : String) (n : ℕ) (rpcId : Option Json) (params : Json)
    (ulid : String) : Endpoint × List Answer :=
  let name := calledTool params
  let args := (params.get "arguments").getD (.object [])
  match RateLimiter.call ⟨s.secs, userId, name⟩ s.buckets with
  | (.unknownTool code message, buckets) =>
    ({ s with buckets := buckets }, [⟨userId, n, .failure rpcId code message⟩])
  | (.rateLimited result, buckets) =>
    ({ s with buckets := buckets }, [⟨userId, n, .success rpcId result⟩])
  | (.admitted, buckets) =>
    match startWork userId ulid s.shared.now name args with
    | .ok work =>
      ({ s with buckets := buckets }.setPending (userId, n) (some ⟨rpcId, name, work⟩), [])
    | .error e =>
      ({ s with buckets := buckets }, [⟨userId, n, .success rpcId (callResult name (.error e))⟩])

/-- The query that a call waits for is done, `ok` being whether it succeeds: the call goes
    on to its next query, or is answered. -/
def go (fts : Fts) (s : Endpoint) (userId : String) (n : ℕ) (ok : Bool) (p : Pending) :
    Endpoint × List Answer :=
  let answered (result : Except ToolError Json) : List Answer :=
    [⟨userId, n, .success p.rpcId (callResult p.tool result)⟩]
  match p.work with
  | .read w =>
    match w.next fts userId s.shared ok with
    | .inl w' => (s.setPending (userId, n) (some { p with work := .read w' }), [])
    | .inr result => (s.setPending (userId, n) none, answered result)
  | .write w =>
    let (r, es) := w.next userId s.shared ok
    let s := { s with shared := es.foldl Shared.effect s.shared }
    match r with
    | .inl w' => (s.setPending (userId, n) (some { p with work := .write w' }), [])
    | .inr result => (s.setPending (userId, n) none, answered result)

/-- A step. A number in use is not taken again, and only a call in flight goes on. -/
def step (fts : Fts) (s : Endpoint) : EndpointEvent → Endpoint × List Answer
  | .call userId n rpcId params ulid =>
    if (s.pending (userId, n)).isSome then (s, []) else s.call userId n rpcId params ulid
  | .go userId n ok =>
    match s.pending (userId, n) with
    | some p => go fts s userId n ok p
    | none => (s, [])
  | .deleteMe userId => ({ s with shared := s.shared.effect (.deleteUser userId) }, [])
  | .page key concept content sourceRefs t =>
    ({ s with shared := s.shared.upsertWiki key concept content sourceRefs t }, [])
  | .slot key e =>
    ({ s with shared := { s.shared with map := Function.update s.shared.map key e } }, [])
  | .tick dt secs => ({ s with shared := s.shared.tick dt, secs := s.secs + secs }, [])

end Endpoint

/-- The ids drawn for the raws that calls may insert. -/
def EndpointEvent.ulid? : EndpointEvent → Option String
  | .call _ _ _ _ ulid => some ulid
  | _ => none

/-- The events that concern a user: their calls, what happens to what they may see, and
    the passing of time. -/
def EndpointEvent.concerns (u : String) : EndpointEvent → Bool
  | .call userId _ _ _ _ => userId = u
  | .go userId _ _ => userId = u
  | .deleteMe userId => userId = u
  | .page key _ _ _ _ => Visible u key
  | .slot key _ => key = .personal u
  | .tick _ _ => true

end LlmMemory
