import LlmMemory.Vegapunk.Guard

/-!
# Ingestions of a schema, one after the other

An ingestion takes the lock of the schema of its user, and holds it until it is
over, however that comes about: so of the ingestions into a schema one at a time is
in its critical section, where it does all else that it does (`ingest_serialized`).

* `State.Keyed`: the locks of two schemas are not the same;
* `Stage`: how far an ingestion has come;
* `Locked`: the locks held are those taken by the calls in flight.
-/

namespace LlmMemory.Vegapunk

open Effects Runs Serving

/-! ## Locks -/

section Locks

variable {n : ℕ} {input : Input} {s : State} {schema schema' : String} {l : ℕ}

/-- The locks are numbered, and no two schemas have the same one. -/
structure State.Keyed (s : State) : Prop where
  lt : ∀ schema l, s.schemas.lookup schema = some l → l < s.schemas.length
  inj : ∀ schema schema' l, s.schemas.lookup schema = some l → s.schemas.lookup schema' = some l →
    schema = schema'

theorem lockFor_held : (s.lockFor schema).2.held = s.held := by
  rw [State.lockFor]
  split <;> rfl

/-- The lock of a schema that has one stays the same. -/
theorem lockFor_lookup (h : s.schemas.lookup schema' = some l) :
    (s.lockFor schema).2.schemas.lookup schema' = some l := by
  rw [State.lockFor]
  split
  · exact h
  · rw [List.lookup_append, h, Option.some_or]

/-- The schema has the lock that was given. -/
theorem lockFor_self : (s.lockFor schema).2.schemas.lookup schema = some (s.lockFor schema).1 := by
  rw [State.lockFor]
  split
  · assumption
  · next hnone => simp [List.lookup_append, hnone]

theorem lockFor_again (h : s.schemas.lookup schema = some l) : s.lockFor schema = (l, s) := by
  rw [State.lockFor, h]

/-- The locks of schemas stay apart. -/
theorem State.Keyed.lockFor (h : s.Keyed) : (s.lockFor schema).2.Keyed := by
  rw [State.lockFor]
  split
  · exact h
  next hnone =>
  -- the schema has a new lock, and the others keep theirs
  have hlookup : ∀ schema' l, (s.schemas ++ [(schema, s.schemas.length)]).lookup schema' = some l →
      s.schemas.lookup schema' = some l ∨ schema' = schema ∧ l = s.schemas.length := by
    intro schema' l hl
    rw [List.lookup_append, Option.or_eq_some_iff] at hl
    rcases hl with hl | ⟨-, hl⟩
    · exact .inl hl
    · rw [List.lookup_cons] at hl
      by_cases hs : schema' = schema
      · simp only [hs, beq_self_eq_true] at hl
        exact .inr ⟨hs, (Option.some.inj hl).symm⟩
      · simp [beq_false_of_ne hs] at hl
  refine ⟨fun schema' l hl => ?_, fun schema₁ schema₂ l h₁ h₂ => ?_⟩
  · rw [List.length_append]
    rcases hlookup _ _ hl with hl | ⟨-, rfl⟩
    · exact Nat.lt_succ_of_lt (h.lt _ _ hl)
    · exact Nat.lt_succ_self _
  · rcases hlookup _ _ h₁ with hl₁ | ⟨hs₁, hl₁⟩
    · rcases hlookup _ _ h₂ with hl₂ | ⟨-, hl₂⟩
      · exact h.inj _ _ _ hl₁ hl₂
      · exact absurd (hl₂ ▸ h.lt _ _ hl₁) (Nat.lt_irrefl _)
    · rcases hlookup _ _ h₂ with hl₂ | ⟨hs₂, -⟩
      · exact absurd (hl₁ ▸ h.lt _ _ hl₂) (Nat.lt_irrefl _)
      · exact hs₁.trans hs₂.symm

/-- An operation that is not one on the locks leaves them as they are. -/
theorem perform_locks {o : Op} {x : o.Ans × State} (ho : o.LockFree)
    (h : perform n input o s = some x) : x.2.schemas = s.schemas ∧ x.2.held = s.held := by
  unfold perform at h
  split at h
  · split at h
    · split at h <;> cases h <;> exact ⟨rfl, rfl⟩
    · cases h; exact ⟨rfl, rfl⟩
    · cases h
  · split at h
    · split at h <;> cases h <;> exact ⟨rfl, rfl⟩
    · cases h; exact ⟨rfl, rfl⟩
    · cases h
  · split at h
    · cases h; exact ⟨rfl, rfl⟩
    · cases h; exact ⟨rfl, rfl⟩
    · cases h
  · exact ho.elim
  · exact ho.elim
  · cases h; exact ⟨rfl, rfl⟩
  · split at h
    · obtain ⟨a, -, rfl⟩ := Option.map_eq_some_iff.1 h
      exact ⟨rfl, rfl⟩
    · cases h

/-- A lock is taken by nobody else. -/
theorem perform_lock {x : Unit × State} (h : perform n input (.lock l) s = some x) :
    (∀ x ∈ s.held, x.1 ≠ l) ∧ x.2 = { s with held := s.held ++ [(l, n)] } := by
  simp only [perform] at h
  split at h
  · cases h
  · next hfree =>
    cases h
    exact ⟨fun x hx he => hfree ⟨x, hx, he⟩, rfl⟩

end Locks

/-! ## Sections -/

/-- The `n`-th call was given the lock `l` of the schema, to take it. -/
def Asked (t : List Done) (n : ℕ) (schema : String) (l : ℕ) : Prop :=
  ∃ req, .did n req (.lockFor schema) l ∈ t

/-- The `n`-th call took the lock. -/
def Took (t : List Done) (n l : ℕ) : Prop := ∃ req r, .did n req (.lock l) r ∈ t

/-- The `n`-th call has taken the lock of the schema. -/
def Admitted (t : List Done) (n : ℕ) (schema : String) : Prop :=
  ∃ l, Asked t n schema l ∧ Took t n l

/-- The `n`-th call has taken the lock of the schema, and is not over. -/
def InSection (s : Sys) (n : ℕ) (schema : String) : Prop :=
  n ∈ Server.ids s.handling ∧ Admitted s.conf.trace n schema

/-- The schema of an ingestion. -/
def Request.ingestsInto : Request → Option String
  | .tool user params =>
    match readCall params with
    | .ok (name, _) => if name.ingests then some user.vegapunkSchema else none
    | .error _ => none
  | _ => none

section Stages

variable {t t' : List Done} {n l : ℕ} {schema : String}

theorem Asked.mono (h : Asked t n schema l) (hsub : t ⊆ t') : Asked t' n schema l := by
  obtain ⟨req, he⟩ := h
  exact ⟨req, hsub he⟩

theorem Took.mono (h : Took t n l) (hsub : t ⊆ t') : Took t' n l := by
  obtain ⟨req, r, he⟩ := h
  exact ⟨req, r, hsub he⟩

theorem Admitted.mono (h : Admitted t n schema) (hsub : t ⊆ t') : Admitted t' n schema := by
  obtain ⟨l, hasked, htook⟩ := h
  exact ⟨l, hasked.mono hsub, htook.mono hsub⟩

/-- How far an ingestion into the schema has come, and what is left to do. -/
inductive Stage (t : List Done) (n : ℕ) (schema : String) : Tool Reply → Prop
  | ended {a : Except Exit Reply} : Stage t n schema (Prog.ret a : Tool Reply)
  | asks {q : ℕ → Tool Reply} (hq : ∀ l, (q l).Does Op.LockFree fun _ => True) :
      Stage t n schema (Prog.op (.lockFor schema) fun l => .op (.lock l) fun _ => q l : Tool Reply)
  | waits {l : ℕ} {k : Unit → Tool Reply} (hl : Asked t n schema l)
      (hk : (k ()).Does Op.LockFree fun _ => True) :
      Stage t n schema (Prog.op (.lock l) k : Tool Reply)
  | inside {p : Tool Reply} (hin : Admitted t n schema) (hp : p.Does Op.LockFree fun _ => True) :
      Stage t n schema p

theorem Stage.mono {p : Tool Reply} (h : Stage t n schema p) (hsub : t ⊆ t') :
    Stage t' n schema p := by
  cases h with
  | ended => exact .ended
  | asks hq => exact .asks hq
  | waits hl hk => exact .waits (hl.mono hsub) hk
  | inside hin hp => exact .inside (hin.mono hsub) hp

/-- An operation brings an ingestion to its next stage. -/
theorem Stage.next {req : Request} {o : Op} {k : o.Ans → Tool Reply}
    (h : Stage t n schema (Prog.op o k : Tool Reply)) (r : o.Ans) :
    Stage (t ++ [.did n req o r]) n schema (k r) := by
  have hsub : t ⊆ t ++ [.did n req o r] := List.subset_append_left _ _
  have hmem : .did n req o r ∈ t ++ [.did n req o r] := List.mem_append_right _ List.mem_cons_self
  cases h with
  | asks hq => exact .waits ⟨req, hmem⟩ (hq r)
  | waits hl hk => exact .inside ⟨_, hl.mono hsub, req, r, hmem⟩ hk
  | inside hin hp => exact .inside (hin.mono hsub) (hp.2 r)

/-- An operation on no lock is done in the section. -/
theorem Stage.admitted {o : Op} {k : o.Ans → Tool Reply}
    (h : Stage t n schema (Prog.op o k : Tool Reply)) (ho : o.LockFree) : Admitted t n schema := by
  cases h with
  | asks hq => exact ho.elim
  | waits hl hk => exact ho.elim
  | inside hin hp => exact hin

/-- The lock taken is the one asked for. -/
theorem Stage.asked {k : Unit → Tool Reply}
    (h : Stage t n schema (Prog.op (.lock l) k : Tool Reply)) : Asked t n schema l := by
  cases h with
  | waits hl hk => exact hl
  | inside hin hp => exact hp.1.elim

/-- An ingestion is at a stage, and another request takes no lock. -/
structure Staged (t : List Done) (h : Handling ToolSig Request (Except Exit Reply)) : Prop where
  ingestion : ∀ schema, h.req.ingestsInto = some schema → Stage t h.id schema h.prog
  other : h.req.ingestsInto = none → h.prog.Does Op.LockFree fun _ => True

theorem Staged.mono {h : Handling ToolSig Request (Except Exit Reply)} (hs : Staged t h)
    (hsub : t ⊆ t') : Staged t' h :=
  ⟨fun schema hreq => (hs.ingestion schema hreq).mono hsub, hs.other⟩

/-- An operation brings a request on. -/
theorem Staged.next {req : Request} {o : Op} {k : o.Ans → Tool Reply}
    (h : Staged t ⟨n, req, Prog.op o k⟩) (r : o.Ans) :
    Staged (t ++ [.did n req o r]) ⟨n, req, k r⟩ :=
  ⟨fun schema hreq => (h.ingestion schema hreq).next r, fun hreq => (h.other hreq).2 r⟩

end Stages

/-! ### Handlers -/

section Handlers

variable {cfg : Config} {user : AuthenticatedUser} {params : Json}

theorem lockFree_of_plain {o : Op} (h : o.plain = true) : o.LockFree := by
  cases o <;> trivial

/-- What is within the schemas is on no lock. -/
theorem lockFree_of_within {p : Tool Json} (h : Does (Within cfg user) (fun _ => True) p) :
    (p >>= fun content => (pure (Reply.content content) : Tool Reply)).Does Op.LockFree
      fun _ => True :=
  ((Does.bind h fun _ _ => Does.pure trivial : Does _ (fun _ => True) _).imp
    fun _ h => h.lockFree).mono fun _ _ => trivial

/-- An ingestion whose request was built asks for its lock first. -/
theorem stage_of_built {α : Type} {t : List Done} {n : ℕ} {schema method : String}
    {x : Except String α} {p : α → Tool Json}
    (hp : ∀ r, x = .ok r → Does (Within cfg user) (fun _ => True) (p r)) :
    Stage t n schema ((built method x >>= fun r => acquireIngestSerializer schema >>= fun _ => p r)
      >>= fun content => (pure (Reply.content content) : Tool Reply)) := by
  cases x with
  | ok r => exact .asks fun _ => lockFree_of_within (hp r rfl)
  | error e => exact .ended

/-- A call is at its first stage, if it is an ingestion. -/
theorem runTool_stage {t : List Done} {n : ℕ} {args : Json} {tool : ToolName}
    (h : tool.ingests = true) : Stage t n user.vegapunkSchema
      (runTool cfg user args tool >>= fun content => (pure (Reply.content content) : Tool Reply)) := by
  cases tool with
  | ingest => exact stage_of_built fun _ hr => ingest_inside (buildIngestRequest_schema hr)
  | ingestRaw => exact stage_of_built fun _ hr => ingestRaw_inside (buildIngestRawRequest_schema hr)
  | _ => cases h

/-- A request without an ingestion is on no lock. -/
theorem staged_of_lockFree {t : List Done} {n : ℕ} {req : Request} {p : Tool Reply}
    (hreq : req.ingestsInto = none) (hp : Does Op.LockFree (fun _ => True) p) :
    Staged t ⟨n, req, p⟩ := by
  refine ⟨fun schema h => ?_, fun _ => hp.mono fun _ _ => trivial⟩
  rw [hreq] at h
  cases h

/-- Every request is at its first stage, or takes no lock. -/
theorem handle_staged (t : List Done) (n : ℕ) (req : Request) :
    Staged t ⟨n, req, handle cfg req⟩ := by
  cases req with
  | tool user params =>
    cases hread : readCall params with
    | error e =>
      have hcall : handle cfg (.tool user params) = (Prog.ret (.error e) : Tool Reply) := by
        rw [handle, call, hread]
        rfl
      exact hcall ▸ staged_of_lockFree (by simp [Request.ingestsInto, hread]) Does.fail
    | ok x =>
      obtain ⟨tool, args⟩ := x
      have hcall : handle cfg (.tool user params) =
          (runTool cfg user args tool >>= fun content => pure (.content content)) := by
        rw [handle, call, hread]
        rfl
      -- only the tools that ingest take the lock of the schema
      by_cases htool : tool.ingests = true
      · have hinto : (Request.tool user params).ingestsInto = some user.vegapunkSchema := by
          simp [Request.ingestsInto, hread, htool]
        refine ⟨fun schema h => ?_, fun h => absurd (hinto.symm.trans h) (Option.some_ne_none _)⟩
        rw [← Option.some.inj (hinto.symm.trans h), hcall]
        exact runTool_stage htool
      · refine hcall ▸ staged_of_lockFree (by simp [Request.ingestsInto, hread, htool]) ?_
        exact Does.bind (runTool_does.imp fun _ h => h.lockFree (Bool.eq_false_iff.2 htool))
          fun _ _ => Does.pure trivial
  | record kind foreignId userId =>
    refine staged_of_lockFree rfl ?_
    exact Does.bind (record_does fun _ => lockFree_of_plain) fun _ _ => Does.pure trivial
  | recordMany kind foreignIds userId =>
    refine staged_of_lockFree rfl ?_
    exact Does.bind (recordMany_does fun _ => lockFree_of_plain) fun _ _ => Does.pure trivial
  | verify kind foreignId userId =>
    refine staged_of_lockFree rfl ?_
    exact Does.bind (verify_does fun _ => lockFree_of_plain) fun _ _ => Does.pure trivial

end Handlers

/-! ## Runs -/

/-- The locks held are those taken by the calls in flight, `ns`, and no lock is held
    twice. -/
structure Locked (c : Conf) (ns : List ℕ) : Prop where
  keyed : c.state.Keyed
  asked : ∀ n schema l, Asked c.trace n schema l → c.state.schemas.lookup schema = some l
  held : ∀ l n, (l, n) ∈ c.state.held ↔ n ∈ ns ∧ Took c.trace n l
  once : (c.state.held.map (·.1)).Nodup

section Events

variable {t : List Done} {e : Done} {n l : ℕ} {schema : String}

theorem asked_concat : Asked (t ++ [e]) n schema l ↔
    Asked t n schema l ∨ ∃ req, e = .did n req (.lockFor schema) l := by
  simp only [Asked, List.mem_append, List.mem_singleton, exists_or, eq_comm]

theorem took_concat : Took (t ++ [e]) n l ↔
    Took t n l ∨ ∃ req r, e = .did n req (.lock l) r := by
  simp only [Took, List.mem_append, List.mem_singleton, exists_or, eq_comm]

end Events

namespace Locked

variable {c c' : Conf} {ns : List ℕ} {n : ℕ}

/-- A change that is not about locks. -/
theorem same (h : Locked c ns) (hschemas : c'.state.schemas = c.state.schemas)
    (hheld : c'.state.held = c.state.held)
    (hasked : ∀ n schema l, Asked c'.trace n schema l → Asked c.trace n schema l)
    (htook : ∀ n l, Took c'.trace n l ↔ Took c.trace n l) : Locked c' ns := by
  refine ⟨⟨?_, ?_⟩, fun n schema l hl => ?_, fun l n => ?_, ?_⟩
  · rw [hschemas]
    exact h.keyed.lt
  · rw [hschemas]
    exact h.keyed.inj
  · rw [hschemas]
    exact h.asked n schema l (hasked n schema l hl)
  · rw [hheld, htook]
    exact h.held l n
  · rw [hheld]
    exact h.once

/-- A call is over: it releases the locks that it holds. -/
theorem ended {ns' : List ℕ} (h : Locked c ns) (hst : c'.state = c.state.release n)
    (hasked : ∀ n schema l, Asked c'.trace n schema l → Asked c.trace n schema l)
    (htook : ∀ n l, Took c'.trace n l ↔ Took c.trace n l)
    (hns : ∀ m, m ∈ ns' ↔ m ∈ ns ∧ m ≠ n) : Locked c' ns' := by
  refine ⟨?_, fun n schema l hl => ?_, fun l m => ?_, ?_⟩
  · rw [hst]
    exact ⟨h.keyed.lt, h.keyed.inj⟩
  · rw [hst]
    exact h.asked n schema l (hasked n schema l hl)
  · rw [hst, State.release, List.mem_filter, h.held, hns, htook, decide_eq_true_iff]
    exact and_right_comm
  · rw [hst, State.release]
    exact h.once.sublist (List.filter_sublist.map _)

/-- A call is given the lock of a schema. -/
theorem lockFor {req : Request} {schema : String} (h : Locked c ns) :
    Locked (c.next (c.state.lockFor schema).2
      (.did n req (.lockFor schema) (c.state.lockFor schema).1)) ns := by
  refine ⟨h.keyed.lockFor, fun m schema' l hl => ?_, fun l m => ?_, ?_⟩
  · rcases asked_concat.1 hl with hl | ⟨req', he⟩
    · exact lockFor_lookup (h.asked m schema' l hl)
    · cases he
      exact lockFor_self
  · rw [Conf.next_state, lockFor_held, h.held, Conf.next_trace, took_concat]
    refine and_congr_right fun _ => (or_iff_left ?_).symm
    rintro ⟨req', r', he⟩
    cases he
  · rw [Conf.next_state, lockFor_held]
    exact h.once

/-- A call in flight takes a lock that is not held. -/
theorem lock {req : Request} {l : ℕ} {r : Unit} (h : Locked c ns) (hn : n ∈ ns)
    (hfree : ∀ x ∈ c.state.held, x.1 ≠ l) :
    Locked (c.next { c.state with held := c.state.held ++ [(l, n)] } (.did n req (.lock l) r))
      ns := by
  refine ⟨⟨h.keyed.lt, h.keyed.inj⟩, fun m schema' l' hl => ?_, fun l' m => ?_, ?_⟩
  · rcases asked_concat.1 hl with hl | ⟨req', he⟩
    · exact h.asked m schema' l' hl
    · cases he
  · rw [Conf.next_state, List.mem_append, h.held, Conf.next_trace, took_concat, and_or_left]
    refine or_congr_right ?_
    rw [List.mem_singleton]
    constructor
    · intro he
      cases he
      exact ⟨hn, req, r, rfl⟩
    · rintro ⟨-, req', r', he⟩
      cases he
      rfl
  · rw [Conf.next_state, List.map_append]
    refine List.Nodup.append h.once (List.nodup_singleton _) (List.disjoint_singleton.2 ?_)
    intro hmem
    obtain ⟨x, hx, he⟩ := List.mem_map.1 hmem
    exact hfree x hx he

/-- A call in flight does an operation. -/
theorem did {req : Request} {input : Input} {o : Op} {r : o.Ans} {st : State} (h : Locked c ns)
    (hn : n ∈ ns) (hp : perform n input o c.state = some (r, st)) :
    Locked (c.next st (.did n req o r)) ns := by
  by_cases ho : o.LockFree
  · obtain ⟨hschemas, hheld⟩ := perform_locks ho hp
    refine h.same hschemas hheld (fun m schema l hl => ?_) fun m l => ?_
    · refine (asked_concat.1 hl).resolve_right ?_
      rintro ⟨req', he⟩
      cases he
      exact ho
    · refine took_concat.trans (or_iff_left ?_)
      rintro ⟨req', r', he⟩
      cases he
      exact ho
  · cases o with
    | lockFor schema =>
      have hx : c.state.lockFor schema = (r, st) := Option.some.inj hp
      obtain rfl : (c.state.lockFor schema).1 = r := congrArg Prod.fst hx
      obtain rfl : (c.state.lockFor schema).2 = st := congrArg Prod.snd hx
      exact h.lockFor
    | lock l =>
      obtain ⟨hfree, hst⟩ := perform_lock hp
      obtain rfl : st = _ := hst
      exact h.lock hn hfree
    | _ => exact absurd trivial ho

end Locked

variable {cfg : Config} {ok : Sys → Serving.Move Request Input World → Prop} {s : Sys}

theorem asked_concat_other {t : List Done} {e : Done} (he : ∀ n req o r, e ≠ .did n req o r)
    (n : ℕ) (schema : String) (l : ℕ) (h : Asked (t ++ [e]) n schema l) : Asked t n schema l := by
  refine (asked_concat.1 h).resolve_right ?_
  rintro ⟨req, hreq⟩
  exact he _ _ _ _ hreq

theorem took_concat_other {t : List Done} {e : Done} (he : ∀ n req o r, e ≠ .did n req o r)
    (n l : ℕ) : Took (t ++ [e]) n l ↔ Took t n l := by
  refine took_concat.trans (or_iff_left ?_)
  rintro ⟨req, r, hreq⟩
  exact he _ _ _ _ hreq

/-- In every system reached, the locks held agree with the trace. -/
theorem locked (h : Reached cfg ok s) : Locked s.conf (Server.ids s.handling) := by
  refine Reach.invariant (P := fun s : Sys => Locked s.conf (Server.ids s.handling))
    (fun s hs => ?_) (fun s m s' hr hs _ hst => ?_) h
  · obtain ⟨st, ⟨-, hschemas, hheld⟩, rfl⟩ := hs
    refine ⟨⟨fun schema l hl => ?_, fun schema schema' l hl => ?_⟩, fun n schema l hl => ?_,
      fun l n => ?_, ?_⟩
    · simp [Serving.Sys.start, hschemas] at hl
    · simp [Serving.Sys.start, hschemas] at hl
    · simp [Serving.Sys.start, Asked] at hl
    · simp [Serving.Sys.start, hheld, Server.ids]
    · simp [Serving.Sys.start, hheld]
  · cases m with
    | request req =>
      cases hst
      -- a call that just came in has taken nothing
      have hnew : ∀ l, ¬Took s.conf.trace s.received l := by
        rintro l ⟨req', r, he⟩
        exact absurd ((Server.numbered hr).did _ _ _ _ he) (Nat.lt_irrefl _)
      refine ⟨hs.keyed, hs.asked, fun l n => ?_, hs.once⟩
      refine (hs.held l n).trans (and_congr_left fun htook => ?_)
      refine ((or_iff_left ?_).symm.trans Server.mem_ids_concat.symm)
      rintro rfl
      exact hnew l htook
    | drop i =>
      rcases Server.step_drop hst with rfl | ⟨hd, hi, rfl⟩
      · exact hs
      · exact hs.ended rfl (fun _ _ _ hl => hl) (fun _ _ => Iff.rfl) fun m =>
          Server.mem_ids_eraseIdx (Server.distinct hr) hi
    | world w =>
      cases hst
      have he : ∀ n req o r, (.world w : Done) ≠ .did n req o r := by
        intro n req o r he
        cases he
      exact hs.same rfl rfl (asked_concat_other he) (took_concat_other he)
    | handling i input =>
      rcases Server.step_handling hst with ⟨n, req, a, hi, rfl⟩ | ⟨n, req, o, k, r, st, hi, hp, rfl⟩
      · have he : ∀ m req' o r, (.answered n req a : Done) ≠ .did m req' o r := by
          intro m req' o r he
          cases he
        -- a call that is answered gives its locks back
        exact hs.ended rfl (asked_concat_other he) (took_concat_other he) fun m =>
          Server.mem_ids_eraseIdx (Server.distinct hr) hi
      · have hids : Server.ids (s.handling.set i ⟨n, req, k r⟩) = Server.ids s.handling :=
          Server.ids_set hi rfl
        exact hids ▸ hs.did (Server.mem_ids_of_getElem? hi) hp

/-- Every request in flight is at its stage. -/
theorem staged (h : Reached cfg ok s) : ∀ hd ∈ s.handling, Staged s.conf.trace hd := by
  refine Reach.invariant (P := fun s : Sys => ∀ hd ∈ s.handling, Staged s.conf.trace hd)
    (fun s hs => ?_) (fun s m s' _ hs _ hst => ?_) h
  · obtain ⟨st, -, rfl⟩ := hs
    exact fun _ hh => absurd hh List.not_mem_nil
  · cases m with
    | request req =>
      cases hst
      intro hd hh
      rcases List.mem_append.1 hh with hh | hh
      · exact hs hd hh
      · rw [List.mem_singleton.1 hh]
        exact handle_staged _ _ req
    | drop i =>
      rcases Server.step_drop hst with rfl | ⟨-, -, rfl⟩
      · exact hs
      · exact fun hd hh => hs hd (List.mem_of_mem_eraseIdx hh)
    | world w =>
      cases hst
      exact fun hd hh => (hs hd hh).mono (List.subset_append_left _ _)
    | handling i input =>
      rcases Server.step_handling hst with ⟨n, req, a, -, rfl⟩ | ⟨n, req, o, k, r, st, hi, -, rfl⟩
      · exact fun hd hh => (hs hd (List.mem_of_mem_eraseIdx hh)).mono (List.subset_append_left _ _)
      · intro hd hh
        rcases List.mem_or_eq_of_mem_set hh with hh | rfl
        · exact (hs hd hh).mono (List.subset_append_left _ _)
        · exact (hs _ (List.mem_of_getElem? hi)).next r

/-- A lock taken was asked for. -/
theorem asked_of_took (h : Reached cfg ok s) :
    ∀ n l, Took s.conf.trace n l → ∃ schema, Asked s.conf.trace n schema l := by
  refine Reach.invariant
    (P := fun s : Sys => ∀ n l, Took s.conf.trace n l → ∃ schema, Asked s.conf.trace n schema l)
    (fun s hs => ?_) (fun s m s' hr hs _ hst => ?_) h
  · obtain ⟨st, -, rfl⟩ := hs
    rintro n l ⟨req, r, he⟩
    exact absurd he List.not_mem_nil
  · have hkeep : ∀ {t'} {n l : ℕ}, s.conf.trace ⊆ t' → Took s.conf.trace n l →
        ∃ schema, Asked t' n schema l := by
      intro t' n l hsub htook
      obtain ⟨schema, hasked⟩ := hs n l htook
      exact ⟨schema, hasked.mono hsub⟩
    cases m with
    | request req =>
      cases hst
      exact hs
    | drop i =>
      rcases Server.step_drop hst with rfl | ⟨-, -, rfl⟩ <;> exact hs
    | world w =>
      cases hst
      intro n l htook
      rcases took_concat.1 htook with htook | ⟨req, r, he⟩
      · exact hkeep (List.subset_append_left _ _) htook
      · cases he
    | handling i input =>
      rcases Server.step_handling hst with ⟨n, req, a, -, rfl⟩ | ⟨n, req, o, k, r, st, hi, -, rfl⟩
      · intro n' l htook
        rcases took_concat.1 htook with htook | ⟨req', r, he⟩
        · exact hkeep (List.subset_append_left _ _) htook
        · cases he
      · intro n' l htook
        rcases took_concat.1 htook with htook | ⟨req', r', he⟩
        · exact hkeep (List.subset_append_left _ _) htook
        · cases he
          -- a call that takes a lock asked for it before: it is at that stage
          have hstage := staged hr _ (List.mem_of_getElem? hi)
          cases hreq : req.ingestsInto with
          | some schema =>
            exact ⟨schema, (hstage.ingestion schema hreq).asked.mono (List.subset_append_left _ _)⟩
          | none => exact (hstage.other hreq).1.elim

/-! ## Ingestions, one after the other -/

/-- In the run, each schema has a lock of its own, that it keeps; of the ingestions
    into a schema, at most one is in its section, and does there all that it does
    but for taking the lock; the catalogue is fetched when those admitted before are
    over; and a call is kept waiting only by one in the section of its schema. -/
structure Serialized (cfg : Config) (s : Sys) : Prop where
  own : ∀ n n' schema schema' l l', Asked s.conf.trace n schema l →
    Asked s.conf.trace n' schema' l' → (l = l' ↔ schema = schema')
  same : ∀ n schema l, Asked s.conf.trace n schema l →
    s.conf.state.lockFor schema = (l, s.conf.state)
  exclusive : ∀ n n' schema, InSection s n schema → InSection s n' schema → n = n'
  inside : ∀ h ∈ s.handling, ∀ schema o k, h.req.ingestsInto = some schema → h.prog = .op o k →
    o.LockFree → InSection s h.id schema
  fetches : ∀ h ∈ s.handling, ∀ schema r k, h.req.ingestsInto = some schema →
    h.prog = .op (.queryNodes r) k → ∀ n, Admitted s.conf.trace n schema → n ≠ h.id →
    n ∉ Server.ids s.handling
  asks : ∀ i input h schema k, s.handling[i]? = some h → h.prog = .op (.lockFor schema) k →
    ((server cfg).step s (.handling i input)).isSome
  enters : ∀ i input h schema l k, s.handling[i]? = some h → h.req.ingestsInto = some schema →
    h.prog = .op (.lock l) k →
    ((server cfg).step s (.handling i input) = none ↔ ∃ n, InSection s n schema)

/-- A lock that is held keeps a call waiting. -/
theorem step_lock_eq_none {i : ℕ} {input : Input} {n l : ℕ} {req : Request}
    {k : Unit → Prog ToolSig (Except Exit Reply)}
    (hi : s.handling[i]? = some ⟨n, req, .op (.lock l) k⟩) :
    (server cfg).step s (.handling i input) = none ↔ ∃ m, (l, m) ∈ s.conf.state.held := by
  simp only [Server.step, hi, Option.bind_some, Server.advance, Option.map_eq_none_iff]
  rw [show (server cfg).perform n req input (.lock l) s.conf.state =
    perform n input (.lock l) s.conf.state from rfl, perform]
  split
  · next hx =>
    obtain ⟨⟨l', m⟩, hmem, rfl⟩ := hx
    exact iff_of_true rfl ⟨m, hmem⟩
  · next hx =>
    refine iff_of_false (Option.some_ne_none _) ?_
    rintro ⟨m, hmem⟩
    exact hx ⟨_, hmem, rfl⟩

/-- In every run, the ingestions into a schema are serialized. -/
theorem ingest_serialized (h : Reached cfg ok s) : Serialized cfg s := by
  have hlocked := locked h
  have hown : ∀ n n' schema schema' l l', Asked s.conf.trace n schema l →
      Asked s.conf.trace n' schema' l' → (l = l' ↔ schema = schema') := by
    intro n n' schema schema' l l' ha ha'
    have hl := hlocked.asked n schema l ha
    have hl' := hlocked.asked n' schema' l' ha'
    constructor
    · rintro rfl
      exact hlocked.keyed.inj _ _ _ hl hl'
    · rintro rfl
      exact Option.some.inj (hl.symm.trans hl')
  have hexclusive : ∀ n n' schema, InSection s n schema → InSection s n' schema → n = n' := by
    rintro n n' schema ⟨hn, l, hasked, htook⟩ ⟨hn', l', hasked', htook'⟩
    -- the two hold one lock, that is held once
    obtain rfl := (hown _ _ _ _ _ _ hasked hasked').2 rfl
    have hmem := (hlocked.held l n).2 ⟨hn, htook⟩
    have hmem' := (hlocked.held l n').2 ⟨hn', htook'⟩
    exact congrArg Prod.snd (List.inj_on_of_nodup_map hlocked.once hmem hmem' rfl)
  have hinside : ∀ h ∈ s.handling, ∀ schema o k, h.req.ingestsInto = some schema →
      h.prog = .op o k → o.LockFree → InSection s h.id schema := by
    rintro ⟨n, req, p⟩ hh schema o k hreq rfl ho
    exact ⟨List.mem_map.2 ⟨_, hh, rfl⟩, ((staged h _ hh).ingestion schema hreq).admitted ho⟩
  refine ⟨hown, fun n schema l ha => lockFor_again (hlocked.asked n schema l ha), hexclusive,
    hinside, fun hd hh schema r k hreq hp n hn hne hflight => ?_,
    fun i input hd schema k hi hp => ?_, fun i input hd schema l k hi hreq hp => ?_⟩
  · exact hne (hexclusive n hd.id schema ⟨hflight, hn⟩ (hinside hd hh schema _ k hreq hp trivial))
  · obtain ⟨n, req, p⟩ := hd
    obtain rfl : p = _ := hp
    simp only [Server.step, hi, Option.bind_some, Server.advance, Option.isSome_map]
    rfl
  · obtain ⟨n, req, p⟩ := hd
    obtain rfl : p = _ := hp
    have hasked := ((staged h _ (List.mem_of_getElem? hi)).ingestion schema hreq).asked
    refine (step_lock_eq_none hi).trans (exists_congr fun m => ?_)
    refine (hlocked.held l m).trans (and_congr_right fun hm => ⟨fun htook => ?_, ?_⟩)
    · obtain ⟨schema', hasked'⟩ := asked_of_took h m l htook
      obtain rfl := (hown _ _ _ _ _ _ hasked hasked').1 rfl
      exact ⟨l, hasked', htook⟩
    · rintro ⟨l', hasked', htook⟩
      obtain rfl := (hown _ _ _ _ _ _ hasked hasked').2 rfl
      exact htook

/-! ### Two ingestions into a schema, and one into another -/

/-- A raw ingestion. -/
def sampleRaw : Json :=
  sampleCall "ingest_raw" [("text", .str "a"), ("metadata", .obj [("source_type", .str "chat")])]

/-- The first and the third call take their locks, and the second one waits. -/
def threeIngestions : List (Serving.Move Request Input World) :=
  [.request (.tool sampleUser sampleRaw), .request (.tool sampleUser sampleRaw),
    .request (.tool ⟨"u2", "c2", "user_2"⟩ sampleRaw), .handling 1 .ok, .handling 0 .ok,
    .handling 0 .ok, .handling 2 .ok, .handling 2 .ok]

/-- Three ingestions into two schemas, of which one waits. -/
theorem ingest_serialized_three : ∃ s, Reached .sample (fun _ _ => True) s ∧
    s.conf.state.held = [(0, 0), (1, 2)] ∧
    (server .sample).step s (.handling 1 .ok) = none ∧ Serialized .sample s := by
  obtain ⟨s, hs, hx⟩ : ∃ s, exec (server .sample).step (fun _ _ => true)
      (.start sampleStart) threeIngestions = some s ∧
      (s.conf.state.held, ((server .sample).step s (.handling 1 .ok)).isNone) =
        ([(0, 0), (1, 2)], true) :=
    Option.map_eq_some_iff.1 (by decide)
  obtain ⟨hheld, hwaits⟩ := Prod.ext_iff.1 hx
  have hr : Reached .sample (fun _ _ => True) s :=
    .exec (fun _ _ _ => trivial) (.init ⟨_, sampleStart_starts, rfl⟩) hs
  exact ⟨s, hr, hheld, Option.isNone_iff_eq_none.1 hwaits, ingest_serialized hr⟩

end LlmMemory.Vegapunk
