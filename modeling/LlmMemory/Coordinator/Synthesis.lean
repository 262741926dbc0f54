import Mathlib.Data.List.InsertIdx
import LlmMemory.Coordinator.Worker
import LlmMemory.Lib.Alone
import LlmMemory.Lib.Runs

/-!
# Synthesizing side by side

An iteration synthesizes its concepts side by side, `CONCEPT_CONCURRENCY` at a time, in
any interleaving (`Round`). The model is taken to answer as a function of the prompt,
and so are the queries that fail given (`Answers`).

A synthesis reads the raws, and the page of its own concept, and writes this page, at
the end (`SynthTask.Allows`): nothing that another one writes meanwhile. So it ends as if
it was run alone at the beginning (`pageOf`), and the pages written in whatever order
are those of such runs (`Round.Kept`).
-/

namespace LlmMemory

open Effects Runs Wikis

/-! ## A synthesis -/

/-- What was noted of a synthesis: its prompt, whether it tried to write its page, and
    the page it wrote. -/
structure Memo where
  prompt : Option Prompt := none
  tried : Bool := false
  page : Option Wiki := none

/-- What a synthesis notes of an operation: the prompt it issued, that it tried to write,
    and the page it wrote. -/
def Memo.note (m : Memo) : (o : Op) → o.Ans → Memo
  | .prompt _ p, _ => { m with prompt := some p }
  | .wikiUpsert key c content refs t, .ok _ =>
    { m with tried := true, page := some ⟨key.scope, key.ownerId, c, content, refs, t⟩ }
  | .wikiUpsert _ _ _ _ _, .error _ => { m with tried := true, page := none }
  | _, _ => m

/-- What the model replies to a prompt, unless it fails, and which other operations of a
    synthesis fail. -/
structure Answers where
  reply : Prompt → Option WikiSynth
  fails : SynthTask → Op → Bool

/-- How an operation comes out. -/
def Answers.input (a : Answers) (t : SynthTask) (m : Memo) : Op → Input
  | .synthesized => ((m.prompt.bind a.reply).map Input.synth).getD .fail
  | o => if a.fails t o then .fail else .ok

/-- The operation is one of those by which the synthesis reads. -/
def Op.ReadsFor (t : SynthTask) : Op → Prop
  | .wikiGet key c => key = t.key ∧ c = t.concept
  | .rawsGet _ | .searchRaws _ | .built _ | .prompt _ _ | .synthesized => True
  | _ => False

/-- The references are ids of the raws in the prompt for the concept. -/
def Memo.Refers (m : Memo) (concept : String) (refs : List String) : Prop :=
  ∃ existing raws, m.prompt = some (.synthesize concept existing raws) ∧ refs ⊆ raws.map (·.1)

/-- The operation writes the page of the synthesis. -/
def Op.WritesFor (t : SynthTask) (m : Memo) : Op → Prop
  | .wikiUpsert key c _ refs time =>
    key = t.key ∧ c = t.concept ∧ time = t.startedAt ∧ m.Refers t.concept refs
  | _ => False

/-- The synthesis may do the operation: nothing after its page was written. -/
def SynthTask.Allows (t : SynthTask) (m : Memo) (o : Op) : Prop :=
  m.tried = false ∧ (o.ReadsFor t ∨ o.WritesFor t m)

/-- The page `w` is one that the synthesis may write. -/
structure SynthTask.Page (t : SynthTask) (m : Memo) (w : Wiki) : Prop where
  key : primaryKey w = (t.key, t.concept)
  time : w.lastRebuiltAt = t.startedAt
  refers : m.Refers t.concept w.sourceRefs

variable {t : SynthTask}

theorem Op.ReadsFor.unnoted {o : Op} (h : o.ReadsFor t) (hp : ∀ k p, o ≠ .prompt k p) {m : Memo}
    (r : o.Ans) : m.note o r = m := by
  cases o <;> first | rfl | exact h.elim | exact absurd rfl (hp _ _)

namespace SynthTask

open Attempt.Notes

/-- The page is written if and only if the synthesis succeeds, as the last thing it does. -/
theorem synthesizeOne_notes (t : SynthTask) : (synthesizeOne t).Notes Memo.note t.Allows
    (fun m _ => ∃ w, m.page = some w ∧ t.Page m w) (fun m => m.page = none) {} := by
  refine andThen (B := fun m _ => m = {}) (call ⟨rfl, .inl ⟨rfl, rfl⟩⟩ fun r => ?_) ?_
  · cases r <;> exact rfl
  rintro _ existing rfl
  refine andThen (unnoted (A := fun o => o.ReadsFor t ∧ ∀ k p, o ≠ .prompt k p)
    (InputBuilder.build_only (fun _ => ⟨trivial, nofun⟩) fun _ => ⟨trivial, nofun⟩)
    (fun o h => ⟨⟨rfl, .inl h.1⟩, h.1.unnoted h.2⟩) rfl) ?_
  rintro _ inputs rfl
  refine andThen (B := fun m _ => m = {}) (call ⟨rfl, .inl trivial⟩ fun _ => by exact rfl) ?_
  rintro _ _ rfl
  generalize hraws : inputs.map (fun r => (r.id, r.title, r.content)) = raws
  have hids : inputs.map (·.id) = raws.map (·.1) := by
    rw [← hraws, List.map_map]
    rfl
  refine andThen (B := fun m _ => m.tried = false ∧ m.page = none ∧ ∃ e,
    m.prompt = some (.synthesize t.concept e raws)) ?_ ?_
  · refine andThen (B := fun m _ => m.tried = false ∧ m.page = none ∧ ∃ e,
      m.prompt = some (.synthesize t.concept e raws)) (call ⟨rfl, .inl trivial⟩ fun _ => ?_) ?_
    · exact ⟨rfl, rfl, _, rfl⟩
    · intro m _ hm
      refine call ⟨hm.1, .inl trivial⟩ fun r => ?_
      cases r with
      | ok w => exact hm
      | error e => exact hm.2.1
  · intro m result hm
    obtain ⟨htried, hpage, e, hprompt⟩ := hm
    -- the references kept are ids of rows in the prompt
    have hrefs : m.Refers t.concept (result.sourceRefs.filter (InputBuilder.seen inputs)) := by
      refine ⟨e, raws, hprompt, fun ref href => ?_⟩
      obtain ⟨x, hx, hid⟩ := List.any_eq_true.1 (List.mem_filter.1 href).2
      rw [← hids, ← of_decide_eq_true hid]
      exact List.mem_map_of_mem hx
    refine call ⟨htried, .inr ⟨rfl, rfl, rfl, hrefs⟩⟩ fun r => ?_
    cases r with
    | ok _ => exact ⟨_, rfl, rfl, rfl, hrefs⟩
    | error _ => exact rfl

theorem synthesizeOne_forks_none (t : SynthTask) :
    (synthesizeOne t).Only (fun _ => True) fun _ => False :=
  (synthesizeOne_only rfl).mono fun _ _ => trivial

end SynthTask

namespace Answers

variable (a : Answers) (fts : Fts) (s : Shared) (t : SynthTask)

/-- The answers of the operations of a synthesis, in a state. -/
def inState (m : Memo) (o : Op) : Option o.Ans := (perform fts (a.input t m o) o s).map (·.1)

/-- The synthesis, run alone in the state, succeeds, and leaves the memo `m`. -/
def Succeeds (m : Memo) : Prop :=
  ∃ os, (synthesizeOne t).alone Memo.note (a.inState fts s t) {} = some (os, .ok (), m)

/-- The page that what is left of a synthesis writes, run alone in the state. -/
def fate (m : Memo) (p : Prog RebuildSig Unit) : Option Wiki :=
  (p.alone Memo.note (a.inState fts s t) m).bind fun x => x.2.2.page

/-- The page that a synthesis writes, run alone in the state, if it succeeds. -/
def pageOf : Option Wiki := a.fate fts s t {} (synthesizeTask t)

variable {a fts s t} {m : Memo} {o : Op}

/-- The operations of a synthesis are answered. -/
theorem exists_inState (h : t.Allows m o) : ∃ r, a.inState fts s t m o = some r := by
  obtain ⟨_, h⟩ := h
  have hperf : ∀ {inp : Input}, (inp = .ok ∨ inp = .fail) → (∀ key rs, o ≠ .extracted key rs) →
      o ≠ .synthesized → ∃ r, (perform fts inp o s).map (·.1) = some r := by
    rintro _ (rfl | rfl) hne hne'
    · cases o <;> first | exact ⟨_, rfl⟩ | exact absurd rfl (hne _ _) | exact absurd rfl hne'
    · cases o <;> exact ⟨_, rfl⟩
  by_cases hs : o = .synthesized
  · subst hs
    rw [inState, input]
    cases m.prompt.bind a.reply with
    | none => exact ⟨_, rfl⟩
    | some w => exact ⟨_, rfl⟩
  · refine hperf ?_ ?_ hs
    · cases o <;> first | exact absurd rfl hs | (dsimp only [input]; split <;> simp)
    · rintro key rs rfl
      exact h.elim id id

/-- An operation, and then the rest. -/
theorem fate_op {k : o.Ans → Prog RebuildSig Unit} {r : o.Ans}
    (h : a.inState fts s t m o = some r) :
    a.fate fts s t m (.op o k) = a.fate fts s t (m.note o r) (k r) := by
  rw [fate, Prog.alone_op h, fate, Option.bind_map]
  rfl

/-- The synthesis writes its page, or fails. -/
theorem run_cases (a : Answers) (fts : Fts) (s : Shared) (t : SynthTask) :
    (∃ m w, a.Succeeds fts s t m ∧ a.pageOf fts s t = some w ∧ m.page = some w ∧ t.Page m w) ∨
      ((∀ m, ¬ a.Succeeds fts s t m) ∧ a.pageOf fts s t = none) := by
  have hnotes := SynthTask.synthesizeOne_notes t
  obtain ⟨⟨os, r, m⟩, hx⟩ : ∃ x, (synthesizeOne t).alone Memo.note (a.inState fts s t) {} =
      some x :=
    hnotes.exists_alone (fun _ _ h => exists_inState h) (SynthTask.synthesizeOne_forks_none t)
  have hpage : a.pageOf fts s t = m.page := by
    have htask : (synthesizeTask t).alone Memo.note (a.inState fts s t) {} =
        some (os ++ [], (), m) := Prog.alone_bind hx rfl
    rw [pageOf, fate, htask]
    rfl
  have hresult := hnotes.alone hx
  cases r with
  | ok _ =>
    obtain ⟨w, hw, hp⟩ := hresult
    exact .inl ⟨m, w, ⟨os, hx⟩, hpage.trans hw, hw, hp⟩
  | error e =>
    refine .inr ⟨?_, hpage.trans hresult⟩
    rintro m' ⟨os', hx'⟩
    cases hx.symm.trans hx'

/-- The answer is that from outside. -/
theorem answer_fst {α : Type} {x : α} {inp : Input} {s : Shared} :
    ((answer x inp).map (·, s)).map (·.1) = answer x inp := by
  cases answer x inp <;> rfl

/-- What may be answered only depends on the raws and the page of the concept. -/
theorem inState_congr {s' : Shared} (h : t.Allows m o) (hraws : s'.db.raws = s.db.raws)
    (hpage : Wikis.get s'.db t.key t.concept = Wikis.get s.db t.key t.concept) :
    a.inState fts s' t m o = a.inState fts s t m o := by
  obtain ⟨_, h | h⟩ := h
  · have hsearch : ∀ q, Search.raws fts s'.db q = Search.raws fts s.db q := fun q => by
      simp only [Search.raws, Search.candidates, hraws]
    have hget : ∀ id, Raws.get s'.db id = Raws.get s.db id := fun id => by
      simp only [Raws.get, hraws]
    unfold inState
    cases o with
    | wikiGet key c =>
      obtain ⟨rfl, rfl⟩ := h
      simp only [perform, hpage]
      exact answer_fst.trans answer_fst.symm
    | rawsGet id =>
      simp only [perform, hget]
      exact answer_fst.trans answer_fst.symm
    | searchRaws q =>
      simp only [perform, hsearch]
      exact answer_fst.trans answer_fst.symm
    | synthesized =>
      simp only [perform]
      cases a.input t m .synthesized <;> rfl
    | built i => rfl
    | prompt key p => rfl
    | _ => exact h.elim
  · unfold inState
    cases o with
    | wikiUpsert key c content refs time =>
      simp only [perform]
      cases a.input t m (.wikiUpsert key c content refs time) <;> rfl
    | _ => exact h.elim

end Answers

/-! ## Side by side -/

/-- A synthesis being run: its task, what was noted of it, and what is left. -/
structure Synthesis where
  task : SynthTask
  memo : Memo
  prog : Prog RebuildSig Unit

/-- Syntheses that run side by side, and those still waiting to start. -/
structure Round where
  waiting : List SynthTask
  running : List Synthesis

namespace Round

/-- The syntheses as the tasks of a thread, which goes on with `k` after them. -/
def thread {α : Type} (k : Prog RebuildSig α) (r : Round) : Thread RebuildSig α :=
  .par CONCEPT_CONCURRENCY (r.running.map (·.prog)) r.waiting k

/-- How the operation that a move does comes out. -/
def input (a : Answers) (r : Round) : Move → Input
  | .task j =>
    match r.running[j]? with
    | some ⟨t, m, .op o _⟩ => a.input t m o
    | _ => .ok
  | _ => .ok

/-- A step: the next synthesis starts, or the `j`-th one goes on, or has ended. -/
def step (fts : Fts) (a : Answers) (x : Round × Shared) : Move → Option (Round × Shared)
  | .main => none
  | .start =>
    match x.1.waiting with
    | [] => none
    | t :: w =>
      if x.1.running.length < CONCEPT_CONCURRENCY then
        some (⟨w, x.1.running ++ [⟨t, {}, synthesizeTask t⟩]⟩, x.2)
      else none
  | .task j =>
    match x.1.running[j]? with
    | some ⟨t, m, .op o k⟩ =>
      (perform fts (a.input t m o) o x.2).map fun y =>
        (⟨x.1.waiting, x.1.running.set j ⟨t, m.note o y.1, k y.1⟩⟩, y.2)
    | some ⟨_, _, .ret _⟩ => some (⟨x.1.waiting, x.1.running.eraseIdx j⟩, x.2)
    | _ => none

/-- The steps are those of the thread. -/
theorem thread_step {α : Type} {k : Prog RebuildSig α} {fts : Fts} {a : Answers} {m : Move}
    {x : Round × Shared} (hm : m ≠ .main) :
    (x.1.thread k).step synthesizeTask (perform fts (x.1.input a m)) m x.2 =
      (step fts a x m).map fun y => (y.1.thread k, y.2) := by
  obtain ⟨⟨w, run⟩, s⟩ := x
  cases m with
  | main => exact absurd rfl hm
  | start =>
    cases w with
    | nil => rfl
    | cons t w =>
      simp only [thread, Thread.step, step, List.length_map]
      split
      · simp
      · rfl
  | task j =>
    simp only [thread, Thread.step, step, input, List.getElem?_map]
    cases hj : run[j]? with
    | none => rfl
    | some d =>
      obtain ⟨t, m, p⟩ := d
      cases p with
      | ret u => simp [List.eraseIdx_map]
      | op o k' =>
        simp only [Option.map_some, Option.map_map]
        congr 1
        funext y
        simp [List.map_set]
      | fork n ts k' => rfl

/-- The tasks of an iteration, as it forks them. -/
def tasks (key : OwnerKey) (newRaws : List Raw) (startedAt : Int) (affected : List String) :
    List SynthTask :=
  affected.map fun c => ⟨key, c, newRaws, startedAt⟩

/-- From `s`, the syntheses end in `s'`, in some interleaving. -/
def Interleaved (fts : Fts) (a : Answers) (ts : List SynthTask) (s s' : Shared) : Prop :=
  Reach (· = (⟨ts, []⟩, s)) (step fts a) (fun _ _ => True) (⟨[], []⟩, s')

/-- From `s`, the syntheses end in `s'`, one after the other. -/
def OneByOne (fts : Fts) (a : Answers) (ts : List SynthTask) (s s' : Shared) : Prop :=
  Reach (· = (⟨ts, []⟩, s)) (step fts a) (fun x m => m = .start → x.1.running = []) (⟨[], []⟩, s')

end Round

/-! ## What a step keeps -/

/-- Whose page a synthesis writes, and of which concept. -/
def SynthTask.slot (t : SynthTask) : OwnerKey × String := (t.key, t.concept)

/-- The page of a slot, by its primary key. -/
theorem get_eq_find? (db : Db) (key : OwnerKey) (c : String) :
    Wikis.get db key c = db.wikis.find? fun w => primaryKey w = (key, c) := by
  rw [Wikis.get]
  congr 1
  funext w
  simp [primaryKey]

/-- The database `db` with the pages `rows` written. -/
def withPages (db : Db) (rows : List Wiki) : Db :=
  { db with wikis := Rows.merge primaryKey db.wikis rows }

theorem withPages_append (db : Db) (rows : List Wiki) (w : Wiki) : withPages db (rows ++ [w]) =
    { withPages db rows with wikis := Rows.upsert primaryKey w (withPages db rows).wikis } := by
  simp [withPages, Rows.merge, List.foldl_append]

/-- A page of another slot is found as before. -/
theorem get_withPages {db : Db} {rows : List Wiki} {key : OwnerKey} {c : String}
    (h : (key, c) ∉ rows.map primaryKey) :
    Wikis.get (withPages db rows) key c = Wikis.get db key c := by
  rw [get_eq_find?, get_eq_find?]
  exact Rows.find?_merge h

/-- A synthesis that is run, the pages `rows` having been written since `s₀`. -/
structure Synthesis.Ok (fts : Fts) (a : Answers) (s₀ : Shared) (rows : List Wiki) (d : Synthesis) :
    Prop where
  notes : d.prog.Notes Memo.note d.task.Allows (fun _ _ => True) d.memo
  only : d.prog.Only (fun _ => True) fun _ => False
  fate : a.fate fts s₀ d.task d.memo d.prog = a.pageOf fts s₀ d.task
  fresh : d.memo.tried = false → d.memo.page = none ∧ d.task.slot ∉ rows.map primaryKey
  written : ∀ w, d.memo.page = some w → w ∈ rows

namespace Synthesis.Ok

variable {fts : Fts} {a : Answers} {s₀ s s' : Shared} {rows : List Wiki} {d : Synthesis} {m : Memo}
  {o : Op} {r : o.Ans}

/-- A synthesis that was not started is as it should be. -/
theorem start (h : t.slot ∉ rows.map primaryKey) : Ok fts a s₀ rows ⟨t, {}, synthesizeTask t⟩ :=
  ⟨(SynthTask.synthesizeOne_notes t).bind fun _ _ _ => trivial,
    (synthesizeTask_only rfl).mono fun _ _ => trivial, rfl, fun _ => ⟨rfl, h⟩, nofun⟩

/-- Another page is written. -/
theorem append (h : d.Ok fts a s₀ rows) {w : Wiki} (hne : primaryKey w ≠ d.task.slot) :
    d.Ok fts a s₀ (rows ++ [w]) := by
  refine ⟨h.notes, h.only, h.fate, fun ht => ⟨(h.fresh ht).1, fun hmem => ?_⟩,
    fun w' hw' => List.mem_append_left _ (h.written w' hw')⟩
  rw [List.map_append, List.mem_append] at hmem
  rcases hmem with hmem | hmem
  · exact (h.fresh ht).2 hmem
  · exact hne (List.mem_singleton.1 hmem).symm

/-- The operations that read change nothing that matters. -/
theorem reads (h : o.ReadsFor t) {inp : Input} (hp : perform fts inp o s = some (r, s')) :
    s'.db = s.db ∧ (m.note o r).tried = m.tried ∧ (m.note o r).page = m.page := by
  have hdb : s'.db = s.db := by
    rcases perform_state hp with rfl | hw
    · rfl
    · cases hw <;> first | rfl | exact h.elim
  refine ⟨hdb, ?_⟩
  cases o <;> first | exact ⟨rfl, rfl⟩ | exact h.elim

/-- An operation of a synthesis: it reads, or writes the page that a run alone would. -/
theorem op {k : o.Ans → Prog RebuildSig Unit} (h : Ok fts a s₀ rows ⟨t, m, .op o k⟩)
    (hdb : s.db = withPages s₀.db rows) (hp : perform fts (a.input t m o) o s = some (r, s')) :
    ∃ rows', (rows' = rows ∨ ∃ w, rows' = rows ++ [w] ∧ primaryKey w = t.slot ∧
        t.slot ∉ rows.map primaryKey ∧ a.pageOf fts s₀ t = some w) ∧
      s'.db = withPages s₀.db rows' ∧ Ok fts a s₀ rows' ⟨t, m.note o r, k r⟩ := by
  have hallow : t.Allows m o := h.notes.1
  obtain ⟨hpage, hslot⟩ := h.fresh hallow.1
  -- the answer is the one of a run alone
  have hans : a.inState fts s₀ t m o = some r := by
    have hs : a.inState fts s t m o = some r := by
      rw [Answers.inState, hp]
      rfl
    rw [← hs]
    refine (Answers.inState_congr hallow (by rw [hdb]; rfl) ?_).symm
    rw [hdb]
    exact get_withPages hslot
  have hfate : a.fate fts s₀ t (m.note o r) (k r) = a.pageOf fts s₀ t :=
    (Answers.fate_op hans).symm.trans h.fate
  rcases hallow.2 with hread | hwrite
  · obtain ⟨hdb', htried, hpage'⟩ := reads (m := m) hread hp
    refine ⟨rows, .inl rfl, hdb'.trans hdb, h.notes.2 r, h.only.2 r, hfate, fun _ => ?_, ?_⟩
    · exact ⟨hpage'.trans hpage, hslot⟩
    · intro w hw
      rw [hpage', hpage] at hw
      cases hw
  · cases o with
    | wikiUpsert key c content refs time =>
      obtain ⟨rfl, rfl, rfl, _⟩ := hwrite
      simp only [perform] at hp
      cases hin : a.input t m (.wikiUpsert t.key t.concept content refs t.startedAt) with
      | ok =>
        rw [hin] at hp
        cases hp
        -- nothing is left of the synthesis
        have hret : ∃ u, k (.ok ()) = .ret u := by
          cases hk : k (.ok ()) with
          | ret u => exact ⟨u, rfl⟩
          | op o' k' =>
            have hnext := h.notes.2 (.ok ())
            rw [hk] at hnext
            cases hnext.1.1
          | fork n ts k' =>
            have hnext := h.only.2 (.ok ())
            rw [hk] at hnext
            exact hnext.1.elim
        obtain ⟨u, hu⟩ := hret
        refine ⟨rows ++ [⟨t.key.scope, t.key.ownerId, t.concept, content, refs, t.startedAt⟩],
          .inr ⟨_, rfl, rfl, hslot, ?_⟩, ?_, h.notes.2 (.ok ()), h.only.2 (.ok ()), hfate, nofun, ?_⟩
        · rw [← hfate, hu]
          rfl
        · rw [withPages_append, ← hdb]
          rfl
        · intro w hw
          cases hw
          exact List.mem_append_right _ (List.mem_singleton_self _)
      | fail =>
        rw [hin] at hp
        cases hp
        exact ⟨rows, .inl rfl, hdb, h.notes.2 (.error .storage), h.only.2 (.error .storage), hfate,
          nofun, nofun⟩
      | affected x =>
        rw [hin] at hp
        cases hp
      | synth x =>
        rw [hin] at hp
        cases hp
    | _ => exact hwrite.elim

/-- A synthesis that has ended has written its page, if it has one. -/
theorem ended {u : Unit} (h : Ok fts a s₀ rows ⟨t, m, .ret u⟩) {w : Wiki}
    (hw : a.pageOf fts s₀ t = some w) : w ∈ rows :=
  h.written w (h.fate.trans hw)

end Synthesis.Ok

/-- An element of a list after another one was replaced, with where it was before. -/
theorem mem_set_cases {α : Type} {l : List α} {j : ℕ} {x y : α} (h : x ∈ l.set j y) :
    x = y ∨ ∃ i, i ≠ j ∧ l[i]? = some x := by
  obtain ⟨i, hi⟩ := List.getElem?_of_mem h
  by_cases hij : j = i
  · rw [List.getElem?_set, if_pos hij] at hi
    split at hi
    · exact .inl (Option.some.inj hi).symm
    · cases hi
  · rw [List.getElem?_set_ne hij] at hi
    exact .inr ⟨i, Ne.symm hij, hi⟩

namespace Round

/-- What is kept of syntheses for the tasks `ts`, since `s₀`, the pages `rows` having been
    written. -/
structure Kept (fts : Fts) (a : Answers) (s₀ : Shared) (ts : List SynthTask) (rows : List Wiki)
    (x : Round × Shared) : Prop where
  db : x.2.db = withPages s₀.db rows
  nodup : (rows.map primaryKey).Nodup
  pages : ∀ w ∈ rows, ∃ t ∈ ts, a.pageOf fts s₀ t = some w
  slots : ((x.1.running.map (·.task) ++ x.1.waiting).map SynthTask.slot).Nodup
  tasks : ∀ t ∈ x.1.running.map (·.task) ++ x.1.waiting, t ∈ ts
  waiting : ∀ t ∈ x.1.waiting, t.slot ∉ rows.map primaryKey
  running : ∀ d ∈ x.1.running, d.Ok fts a s₀ rows
  covered : ∀ t ∈ ts, t ∈ x.1.waiting ∨ (∃ d ∈ x.1.running, d.task = t) ∨
    ∀ w, a.pageOf fts s₀ t = some w → w ∈ rows

namespace Kept

variable {fts : Fts} {a : Answers} {s₀ s s' : Shared} {ts : List SynthTask} {rows : List Wiki}
  {x x' : Round × Shared}

/-- Before the first synthesis is started, nothing is written. -/
theorem init (h : (ts.map SynthTask.slot).Nodup) :
    Kept fts a s₀ ts [] (⟨ts, []⟩, s₀) :=
  ⟨rfl, List.nodup_nil, nofun, h, fun _ ht => ht, fun _ _ => List.not_mem_nil, nofun,
    fun _ ht => .inl ht⟩

/-- The slots of two syntheses that run are not the same. -/
theorem slot_ne (h : Kept fts a s₀ ts rows x) {i j : ℕ} {d d' : Synthesis} (hij : i ≠ j)
    (hi : x.1.running[i]? = some d) (hj : x.1.running[j]? = some d') :
    d.task.slot ≠ d'.task.slot := by
  have hnodup : (x.1.running.map fun d => d.task.slot).Nodup := by
    have hslots := h.slots
    rw [List.map_append, List.map_map] at hslots
    exact hslots.of_append_left
  intro he
  obtain ⟨hlt, _⟩ := List.getElem?_eq_some_iff.1 hi
  refine hij ((List.getElem?_inj (by rwa [List.length_map]) hnodup).1 ?_)
  rw [List.getElem?_map, List.getElem?_map, hi, hj, Option.map_some, Option.map_some, he]

/-- Its slot is not that of one that waits. -/
theorem slot_ne_waiting (h : Kept fts a s₀ ts rows x) {d : Synthesis} {t : SynthTask}
    (hd : d ∈ x.1.running) (ht : t ∈ x.1.waiting) : d.task.slot ≠ t.slot := by
  have hslots := h.slots
  rw [List.map_append] at hslots
  intro he
  exact List.disjoint_of_nodup_append hslots (List.mem_map_of_mem (List.mem_map_of_mem hd))
    (he ▸ List.mem_map_of_mem ht)

theorem start {t : SynthTask} {w : List SynthTask} {run : List Synthesis}
    (h : Kept fts a s₀ ts rows (⟨t :: w, run⟩, s)) :
    Kept fts a s₀ ts rows (⟨w, run ++ [⟨t, {}, synthesizeTask t⟩]⟩, s) := by
  have hlist : (run ++ [(⟨t, {}, synthesizeTask t⟩ : Synthesis)]).map (·.task) ++ w =
      run.map (·.task) ++ t :: w := by
    rw [List.map_append, List.map_singleton, List.append_assoc]
    rfl
  refine ⟨h.db, h.nodup, h.pages, ?_, ?_, fun t' ht' => h.waiting t' (List.mem_cons_of_mem _ ht'),
    fun d hd => ?_, fun t' ht' => ?_⟩
  · dsimp only
    rw [hlist]
    exact h.slots
  · dsimp only
    rw [hlist]
    exact h.tasks
  · rcases List.mem_append.1 hd with hd | hd
    · exact h.running d hd
    · rw [List.mem_singleton.1 hd]
      exact Synthesis.Ok.start (h.waiting t List.mem_cons_self)
  · rcases h.covered t' ht' with hw | ⟨d, hd, he⟩ | hw
    · rcases List.mem_cons.1 hw with rfl | hw
      · exact .inr (.inl ⟨_, List.mem_append_right _ (List.mem_singleton_self _), rfl⟩)
      · exact .inl hw
    · exact .inr (.inl ⟨d, List.mem_append_left _ hd, he⟩)
    · exact .inr (.inr hw)

/-- A synthesis does an operation. -/
theorem op {j : ℕ} {t : SynthTask} {m : Memo} {o : Op} {k : o.Ans → Prog RebuildSig Unit}
    {w : List SynthTask} {run : List Synthesis} {r : o.Ans}
    (h : Kept fts a s₀ ts rows (⟨w, run⟩, s)) (hj : run[j]? = some ⟨t, m, .op o k⟩)
    (hp : perform fts (a.input t m o) o s = some (r, s')) :
    ∃ rows', Kept fts a s₀ ts rows' (⟨w, run.set j ⟨t, m.note o r, k r⟩⟩, s') := by
  have hmem : ⟨t, m, .op o k⟩ ∈ run := List.mem_of_getElem? hj
  obtain ⟨rows', hrows', hdb, hok⟩ := (h.running _ hmem).op h.db hp
  obtain ⟨hlt, hget⟩ := List.getElem?_eq_some_iff.1 hj
  -- the synthesis that ran the operation still is about its task
  have htasks : (run.set j ⟨t, m.note o r, k r⟩).map (·.task) = run.map (·.task) := by
    rw [List.map_set]
    refine List.ext_getElem? fun i => ?_
    rw [List.getElem?_set]
    split
    · next he => simp [← he, hlt, hget]
    · rfl
  -- at most the row of the task's slot is new
  have hsubset : ∀ row ∈ rows, row ∈ rows' := by
    intro row hrow
    rcases hrows' with rfl | ⟨_, rfl, _⟩
    · exact hrow
    · exact List.mem_append_left _ hrow
  have hkeys : ∀ {slot}, slot ∉ rows.map primaryKey → slot ≠ t.slot →
      slot ∉ rows'.map primaryKey := by
    intro slot hslot hne
    rcases hrows' with rfl | ⟨row, rfl, hrow, _⟩
    · exact hslot
    · rw [List.map_append, List.mem_append, not_or]
      refine ⟨hslot, fun hs => hne ?_⟩
      rw [List.mem_singleton.1 hs]
      exact hrow
  refine ⟨rows', hdb, ?_, ?_, ?_, ?_, ?_, ?_, ?_⟩
  · rcases hrows' with rfl | ⟨row, rfl, hrow, hnew, _⟩
    · exact h.nodup
    · rw [List.map_append, List.map_singleton, hrow]
      rw [← List.concat_eq_append]
      exact h.nodup.concat hnew
  · intro row hrow
    rcases hrows' with rfl | ⟨row', rfl, _, _, hpage⟩
    · exact h.pages row hrow
    · rcases List.mem_append.1 hrow with hrow | hrow
      · exact h.pages row hrow
      · rw [List.mem_singleton.1 hrow]
        exact ⟨t, h.tasks t (List.mem_append_left _ (List.mem_map_of_mem hmem)), hpage⟩
  · dsimp only
    rw [htasks]
    exact h.slots
  · dsimp only
    rw [htasks]
    exact h.tasks
  · intro t' ht'
    exact hkeys (h.waiting t' ht') (h.slot_ne_waiting hmem ht').symm
  · intro d hd
    rcases mem_set_cases hd with rfl | ⟨i, hij, hi⟩
    · exact hok
    · -- another synthesis, of another concept
      have hd' := h.running d (List.mem_of_getElem? hi)
      rcases hrows' with rfl | ⟨row, rfl, hrow, _⟩
      · exact hd'
      · refine hd'.append ?_
        rw [hrow]
        exact (h.slot_ne hij hi hj).symm
  · intro t' ht'
    rcases h.covered t' ht' with hw | ⟨d, hd, rfl⟩ | hw
    · exact .inl hw
    · have hin : d.task ∈ (run.set j ⟨t, m.note o r, k r⟩).map (·.task) :=
        htasks ▸ List.mem_map_of_mem hd
      obtain ⟨d', hd', he⟩ := List.mem_map.1 hin
      exact .inr (.inl ⟨d', hd', he⟩)
    · exact .inr (.inr fun row hrow => hsubset row (hw row hrow))

theorem ret {j : ℕ} {t : SynthTask} {m : Memo} {u : Unit} {w : List SynthTask} {run : List Synthesis}
    (h : Kept fts a s₀ ts rows (⟨w, run⟩, s)) (hj : run[j]? = some ⟨t, m, .ret u⟩) :
    Kept fts a s₀ ts rows (⟨w, run.eraseIdx j⟩, s) := by
  have hsub : ((run.eraseIdx j).map (·.task) ++ w).Sublist (run.map (·.task) ++ w) :=
    ((List.eraseIdx_sublist run j).map _).append (.refl _)
  refine ⟨h.db, h.nodup, h.pages, h.slots.sublist (hsub.map _),
    fun t' ht' => h.tasks t' (hsub.subset ht'), h.waiting,
    fun d hd => h.running d (List.mem_of_mem_eraseIdx hd), fun t' ht' => ?_⟩
  rcases h.covered t' ht' with hw | ⟨d, hd, rfl⟩ | hw
  · exact .inl hw
  · obtain ⟨i, hi⟩ := List.getElem?_of_mem hd
    by_cases hij : i = j
    · -- the synthesis that ended
      subst hij
      cases hi.symm.trans hj
      exact .inr (.inr fun row hrow => (h.running _ hd).ended hrow)
    · exact .inr (.inl ⟨d, List.mem_eraseIdx_iff_getElem?.2 ⟨i, hij, hi⟩, rfl⟩)
  · exact .inr (.inr hw)

/-- Every step keeps what is known of the round. -/
theorem step {mv : Move} (h : Kept fts a s₀ ts rows x) (hs : Round.step fts a x mv = some x') :
    ∃ rows', Kept fts a s₀ ts rows' x' := by
  obtain ⟨⟨w, run⟩, s⟩ := x
  cases mv with
  | main => cases hs
  | start =>
    cases w with
    | nil => cases hs
    | cons t w =>
      simp only [Round.step] at hs
      split at hs
      · cases hs
        exact ⟨rows, h.start⟩
      · cases hs
  | task j =>
    simp only [Round.step] at hs
    split at hs
    · next t m o k hj =>
      obtain ⟨⟨r, s'⟩, hp, he⟩ := Option.map_eq_some_iff.1 hs
      cases he
      exact h.op hj hp
    · next t m u hj =>
      cases hs
      exact ⟨rows, h.ret hj⟩
    · cases hs

theorem reach {ok : Round × Shared → Move → Prop} (h : (ts.map SynthTask.slot).Nodup)
    (hr : Reach (· = (⟨ts, []⟩, s₀)) (Round.step fts a) ok x) :
    ∃ rows, Kept fts a s₀ ts rows x :=
  hr.invariant (P := fun x => ∃ rows, Kept fts a s₀ ts rows x)
    (fun _ hx => by cases hx; exact ⟨[], .init h⟩)
    fun _ _ _ _ ⟨_, hx⟩ _ hst => hx.step hst

/-- In the end, the pages written are those of the runs alone. -/
theorem finished (h : Kept fts a s₀ ts rows (⟨[], []⟩, s)) {w : Wiki} :
    w ∈ rows ↔ ∃ t ∈ ts, a.pageOf fts s₀ t = some w := by
  refine ⟨h.pages w, ?_⟩
  rintro ⟨t, ht, hw⟩
  rcases h.covered t ht with hmem | ⟨d, hd, _⟩ | hrows
  · cases hmem
  · cases hd
  · exact hrows w hw

end Kept

/-! ## One after the other -/

section OneByOne

variable {fts : Fts} {a : Answers} {s₀ s : Shared} {ts : List SynthTask}

/-- The only synthesis that runs goes on to its end. -/
theorem exists_finish (h : (ts.map SynthTask.slot).Nodup) {w : List SynthTask} {t : SynthTask}
    {m : Memo} {p : Prog RebuildSig Unit}
    (hr : Reach (· = (⟨ts, []⟩, s₀)) (step fts a) (fun x m => m = .start → x.1.running = [])
      (⟨w, [⟨t, m, p⟩]⟩, s)) :
    ∃ s', Reach (· = (⟨ts, []⟩, s₀)) (step fts a) (fun x m => m = .start → x.1.running = [])
      (⟨w, []⟩, s') := by
  induction p generalizing m s with
  | ret u =>
    exact ⟨s, hr.step (l := .task 0) nofun rfl⟩
  | op o k ih =>
    obtain ⟨rows, hkept⟩ := Kept.reach h hr
    have hok := hkept.running ⟨t, m, .op o k⟩ List.mem_cons_self
    obtain ⟨r, hans⟩ : ∃ r, a.inState fts s t m o = some r :=
      Answers.exists_inState hok.notes.1
    obtain ⟨⟨r', s'⟩, hp, _⟩ := Option.map_eq_some_iff.1 hans
    refine ih r' (m := m.note o r') (s := s') (hr.step (l := .task 0) nofun ?_)
    simp only [step, List.getElem?_cons_zero]
    rw [hp]
    rfl
  | fork n us k ih =>
    obtain ⟨rows, hkept⟩ := Kept.reach h hr
    exact (hkept.running ⟨t, m, .fork n us k⟩ List.mem_cons_self).only.1.elim

/-- The syntheses can be run one after the other. -/
theorem exists_oneByOne (h : (ts.map SynthTask.slot).Nodup) (s₀ : Shared) :
    ∃ s', OneByOne fts a ts s₀ s' := by
  suffices hall : ∀ w s, Reach (· = (⟨ts, []⟩, s₀)) (step fts a)
      (fun x m => m = .start → x.1.running = []) (⟨w, []⟩, s) → ∃ s', OneByOne fts a ts s₀ s' from
    hall ts s₀ (.init rfl)
  intro w
  induction w with
  | nil => exact fun s hr => ⟨s, hr⟩
  | cons t w ih =>
    intro s hr
    obtain ⟨s', hr'⟩ := exists_finish h (hr.step (l := .start) (fun _ => rfl) rfl)
    exact ih s' hr'

end OneByOne

/-- The tasks of a round are for different slots. -/
theorem nodup_slots {key : OwnerKey} {newRaws : List Raw} {startedAt : Int}
    {affected : List String} (h : affected.Nodup) :
    ((tasks key newRaws startedAt affected).map SynthTask.slot).Nodup := by
  rw [tasks, List.map_map]
  exact h.map fun _ _ he => (Prod.mk.inj he).2

/-- The pages written by two rounds of the same tasks, in any order. -/
theorem Kept.perm {fts : Fts} {a : Answers} {s₀ s s' : Shared} {ts ts' : List SynthTask}
    {rows rows' : List Wiki} (hts : ∀ t, t ∈ ts ↔ t ∈ ts')
    (hkeys : (s₀.db.wikis.map primaryKey).Nodup) (h : Kept fts a s₀ ts rows (⟨[], []⟩, s))
    (h' : Kept fts a s₀ ts' rows' (⟨[], []⟩, s')) : s.db.wikis.Perm s'.db.wikis := by
  have hrows : rows.Perm rows' := by
    refine (List.perm_ext_iff_of_nodup h.nodup.of_map h'.nodup.of_map).2 fun w => ?_
    rw [h.finished, h'.finished]
    simp only [hts]
  have hdb := h.db
  have hdb' := h'.db
  dsimp only at hdb hdb'
  rw [hdb, hdb']
  exact Rows.merge_perm hkeys h.nodup hrows

end Round

open Round in
/-- Side by side, in any interleaving, the concepts are synthesized as one after the other,
    in any order. A concept whose synthesis succeeds, run alone on the state before, has
    its page with the time of the iteration, and with references that its prompt names;
    the other pages are unchanged. The watermark is the time of the iteration if one of
    them succeeds, and unchanged otherwise. -/
theorem synthesized_in_any_order {fts : Fts} {a : Answers} {key : OwnerKey}
    {affected : List String} {newRaws : List Raw} {startedAt : Int} {s₀ s : Shared}
    (hnd : affected.Nodup) (hkeys : (s₀.db.wikis.map primaryKey).Nodup)
    (htime : ∀ w ∈ ofOwner s₀.db key, w.lastRebuiltAt ≤ startedAt)
    (hrun : Interleaved fts a (tasks key newRaws startedAt affected) s₀ s) :
    (∀ order, order.Perm affected →
      (∃ s', OneByOne fts a (tasks key newRaws startedAt order) s₀ s') ∧
      ∀ s', OneByOne fts a (tasks key newRaws startedAt order) s₀ s' →
        s'.db.wikis.Perm s.db.wikis) ∧
    (∀ c ∈ affected, ∀ m, a.Succeeds fts s₀ ⟨key, c, newRaws, startedAt⟩ m →
      ∃ w, Wikis.get s.db key c = some w ∧ w.lastRebuiltAt = startedAt ∧
        m.Refers c w.sourceRefs) ∧
    (∀ k c, ¬ (k = key ∧ c ∈ affected ∧ ∃ m, a.Succeeds fts s₀ ⟨key, c, newRaws, startedAt⟩ m) →
      Wikis.get s.db k c = Wikis.get s₀.db k c) ∧
    ((∃ c ∈ affected, ∃ m, a.Succeeds fts s₀ ⟨key, c, newRaws, startedAt⟩ m) →
      maxLastRebuiltAt s.db key = startedAt) ∧
    ((∀ c ∈ affected, ∀ m, ¬ a.Succeeds fts s₀ ⟨key, c, newRaws, startedAt⟩ m) →
      s.db = s₀.db) := by
  obtain ⟨rows, hkept⟩ := Kept.reach (nodup_slots hnd) hrun
  have hdb : s.db = withPages s₀.db rows := hkept.db
  -- the pages written, each by a synthesis that succeeds
  have hrow : ∀ w ∈ rows, ∃ c ∈ affected, primaryKey w = (key, c) ∧ w.lastRebuiltAt = startedAt ∧
      ∃ m, a.Succeeds fts s₀ ⟨key, c, newRaws, startedAt⟩ m := by
    intro w hw
    obtain ⟨t, ht, hpage⟩ := hkept.finished.1 hw
    obtain ⟨c, hc, rfl⟩ := List.mem_map.1 ht
    rcases a.run_cases fts s₀ ⟨key, c, newRaws, startedAt⟩ with ⟨m, w', hm, hw', _, hp⟩ | ⟨_, hnone⟩
    · cases hpage.symm.trans hw'
      exact ⟨c, hc, hp.key, hp.time, m, hm⟩
    · cases hpage.symm.trans hnone
  have hsucc : ∀ c ∈ affected, ∀ m, a.Succeeds fts s₀ ⟨key, c, newRaws, startedAt⟩ m →
      ∃ w ∈ rows, w ∈ s.db.wikis ∧ primaryKey w = (key, c) ∧ w.lastRebuiltAt = startedAt ∧
        m.Refers c w.sourceRefs := by
    intro c hc m hm
    rcases a.run_cases fts s₀ ⟨key, c, newRaws, startedAt⟩ with ⟨m', w, hm', hw, _, hp⟩ | ⟨hno, _⟩
    · obtain ⟨os, hos⟩ := hm
      obtain ⟨os', hos'⟩ := hm'
      cases hos.symm.trans hos'
      have hmem : w ∈ rows := hkept.finished.2 ⟨_, List.mem_map_of_mem hc, hw⟩
      refine ⟨w, hmem, ?_, hp.key, hp.time, hp.refers⟩
      rw [hdb]
      exact Rows.mem_merge_of_mem hkept.nodup hmem
    · exact absurd hm (hno m)
  refine ⟨fun order horder => ⟨exists_oneByOne (nodup_slots (horder.nodup_iff.2 hnd)) s₀,
    fun s' hs' => ?_⟩, fun c hc m hm => ?_, fun k c hno => ?_, ?_, fun hnone => ?_⟩
  · obtain ⟨rows', hkept'⟩ := Kept.reach (nodup_slots (horder.nodup_iff.2 hnd)) hs'
    refine hkept'.perm (fun t => ?_) hkeys hkept
    exact (horder.map _).mem_iff
  · obtain ⟨w, _, hmem, hkey, htime', hrefs⟩ := hsucc c hc m hm
    refine ⟨w, ?_, htime', hrefs⟩
    rw [get_eq_find?]
    refine Rows.find?_key ?_ hmem hkey
    rw [hdb]
    exact Rows.nodup_merge hkeys
  · rw [hdb]
    refine get_withPages fun hmem => hno ?_
    obtain ⟨w, hw, he⟩ := List.mem_map.1 hmem
    obtain ⟨c', hc', hkey, _, hm⟩ := hrow w hw
    cases he.symm.trans hkey
    exact ⟨rfl, hc', hm⟩
  · rintro ⟨c, hc, m, hm⟩
    obtain ⟨w, _, hmem, hkey, htime', _⟩ := hsucc c hc m hm
    have hown : w ∈ ofOwner s.db key := mem_ofOwner.2 ⟨hmem, (Prod.mk.inj hkey).1⟩
    rw [maxLastRebuiltAt_eq hown, htime']
    intro w' hw'
    obtain ⟨hw', hk⟩ := mem_ofOwner.1 hw'
    rw [hdb] at hw'
    rw [htime']
    rcases Rows.mem_or_mem_of_mem_merge hw' with hold | hnew
    · exact htime w' (mem_ofOwner.2 ⟨hold, hk⟩)
    · obtain ⟨_, _, _, ht, _⟩ := hrow w' hnew
      exact ht.le
  · have hnil : rows = [] := List.eq_nil_iff_forall_not_mem.2 fun w hw => by
      obtain ⟨c, hc, _, _, m, hm⟩ := hrow w hw
      exact hnone c hc m hm
    rw [hdb, hnil]
    rfl

/-- The model has a page for the concept `alpha` only. -/
def onlyAlpha : Answers where
  reply
    | .synthesize c _ _ => if c = "alpha" then some ⟨"page", ["r1", "r2"]⟩ else none
    | .extract _ _ => none
  fails _ _ := false

/-- A raw to be synthesized, and no page yet. -/
def noPages : Shared where
  now := 5
  db := ⟨[], [], [⟨"r1", .personal, "u", "title", "content", "manual", none, some "u", 1⟩], [], [], []⟩

/-- Two syntheses by turns, the second of which fails. -/
def byTurns : List Move :=
  [.start, .start] ++ (List.replicate 5 [.task 0, .task 1]).flatten ++
    [.task 0, .task 1, .task 0]

open Round in
theorem synthesized_in_any_order_two : ∃ s s' : Shared,
    s.db.wikis.map (fun w => (w.concept, w.sourceRefs)) = [("alpha", ["r1"])] ∧
    OneByOne Fts.nothing onlyAlpha (tasks (.personal "u") noPages.db.raws 5 ["beta", "alpha"])
      noPages s' ∧ s'.db.wikis.Perm s.db.wikis := by
  obtain ⟨⟨⟨w, run⟩, s⟩, hx, he⟩ : ∃ x, exec (step Fts.nothing onlyAlpha) (fun _ _ => true)
      (⟨tasks (.personal "u") noPages.db.raws 5 ["alpha", "beta"], []⟩, noPages) byTurns = some x ∧
      (x.1.waiting.length, x.1.running.length,
        x.2.db.wikis.map fun w => (w.concept, w.sourceRefs)) = (0, 0, [("alpha", ["r1"])]) :=
    Option.map_eq_some_iff.1 (by decide)
  obtain ⟨hw, hrest⟩ := Prod.mk.inj he
  obtain ⟨hrun, hpages⟩ := Prod.mk.inj hrest
  cases List.length_eq_zero_iff.1 hw
  cases List.length_eq_zero_iff.1 hrun
  have hreach : Interleaved Fts.nothing onlyAlpha
      (tasks (.personal "u") noPages.db.raws 5 ["alpha", "beta"]) noPages s :=
    .exec (fun _ _ _ => trivial) (.init rfl) hx
  obtain ⟨⟨s', hs'⟩, hperm⟩ := (synthesized_in_any_order (by decide) (by exact List.nodup_nil)
    (by simp [noPages, ofOwner]) hreach).1 ["beta", "alpha"] (.swap _ _ _)
  exact ⟨s, s', hpages, hs', hperm s' hs'⟩

end LlmMemory
