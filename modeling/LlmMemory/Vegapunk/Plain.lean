import LlmMemory.Lib.Outcomes
import LlmMemory.Vegapunk.Handlers

/-!
# Plain operations

Most of what the handlers do besides requests to the graph server is plain
(`Op.plain`): statements on the table of ownership, calls of the canonicalizer,
polling, and clocks. Here are the parts of the handlers that do nothing else,
whatever the answers.
-/

namespace LlmMemory.Vegapunk

open Effects

/-- The operation is not a request to the graph server that a tool stands for, nor
    one on a lock. -/
def Op.plain : Op → Bool
  | .pollJobStatus _ _ | .listJobs _ _ _ | .insertOwner _ | .insertOwners _ | .selectOwner _ _
  | .gemini _ | .geminiWithin _ _ | .nowMs | .instant | .sleep _ => true
  | _ => false

section Plain

variable {P : Op → Prop} {α : Type} {Q : α → Prop}

theorem perf_does {o : Op} (ho : P o) : Does P (fun _ => True) (perf o) :=
  Does.call (E := ToolSig) ho fun _ _ _ => trivial

theorem built_does {method : String} {x : Except String α} (h : ∀ r, x = .ok r → Q r) :
    Does P Q (built method x) := by
  cases x with
  | ok r => exact Does.pure (h r rfl)
  | error e => exact Does.fail

theorem orStatus_does {method : String} {x : Except Status α} :
    Does P (fun _ => True) (orStatus method x) := by
  cases x with
  | ok r => exact Does.pure trivial
  | error e => exact Does.fail

theorem ite_does {c : Prop} [Decidable c] {p q : Tool α} (hp : Does P Q p) (hq : Does P Q q) :
    Does P Q (if c then p else q) := by
  split
  · exact hp
  · exact hq

theorem pickChain_does {personal shared : Except Status (List ChainLink)} :
    Does P (fun _ => True) (pickChain personal shared) := by
  match personal, shared with
  | .ok p, .ok s => exact Does.pure trivial
  | .ok p, .error _ => exact Does.pure trivial
  | .error e, .ok s => exact ite_does (Does.pure trivial) Does.fail
  | .error e, .error _ => exact Does.fail

theorem acquire_does {schema : String} (hfor : P (.lockFor schema)) (hlock : ∀ l, P (.lock l)) :
    Does P (fun _ => True) (acquireIngestSerializer schema) :=
  Does.bind (perf_does hfor) fun l _ => perf_does (hlock l)

/-! ## The catalogue -/

theorem fetchEntityNames_does {schema nodeType : String}
    (h : ∀ r : QueryNodesRequest, r.schema = schema → P (.queryNodes r)) :
    Does P (fun _ => True) (fetchEntityNames schema nodeType) := by
  refine Does.bind (perf_does (h _ rfl)) fun x _ => ?_
  cases x <;> exact Does.pure trivial

/-- The catalogue is made of queries for the two schemas. -/
theorem collectDedupCatalogue_does {U : Unicode} {sharedSchema userSchema : String}
    (h : ∀ r : QueryNodesRequest, r.schema = sharedSchema ∨ r.schema = userSchema →
      P (.queryNodes r)) :
    Does P (fun _ => True) (collectDedupCatalogue U sharedSchema userSchema) := by
  have hcollect : ∀ types catalogue, Does P (fun _ => True)
      (collectEntities U sharedSchema userSchema types catalogue) := by
    intro types
    induction types with
    | nil => exact fun _ => Does.pure trivial
    | cons nodeType types ih =>
      intro catalogue
      refine Does.bind (fetchEntityNames_does fun r hr => h r (.inl hr)) fun sharedNames _ => ?_
      refine Does.bind (fetchEntityNames_does fun r hr => h r (.inr hr)) fun personalNames _ => ?_
      exact ih _
  exact hcollect _ _

/-! ## Parts that are plain -/

variable (hP : ∀ o : Op, o.plain = true → P o)
include hP

theorem verify_does {kind : OwnershipKind} {foreignId userId : String} :
    Does P (fun _ => True) (verify kind foreignId userId) := by
  refine Does.bind (perf_does (hP _ rfl)) fun x _ => ?_
  cases x <;> exact Does.pure trivial

theorem record_does {kind : OwnershipKind} {foreignId userId : String} :
    Does P (fun _ => True) (record kind foreignId userId) := by
  refine Does.bind (perf_does (hP _ rfl)) fun now _ => Does.bind (perf_does (hP _ rfl)) fun x _ => ?_
  match x with
  | .ok true => exact Does.pure trivial
  | .ok false => exact verify_does hP
  | .error e => exact Does.pure trivial

theorem recordSearch_does {user : AuthenticatedUser} {searchId : String} :
    Does P (fun _ => True) (recordSearch user searchId) := by
  refine ite_does (Does.pure trivial) (Does.bind (record_does hP) fun x _ => ?_)
  cases x <;> exact Does.pure trivial

theorem recordSharedSearch_does {user : AuthenticatedUser} {searchId : Option String} :
    Does P (fun _ => True) (recordSharedSearch user searchId) := by
  cases searchId with
  | some sid => exact recordSearch_does hP
  | none => exact Does.pure trivial

theorem verifyAll_does {kind : OwnershipKind} {userId : String} {ids : List String} :
    Does P (fun _ => True) (verifyAll kind userId ids) := by
  induction ids with
  | nil => exact Does.pure trivial
  | cons id ids ih =>
    refine Does.bind (verify_does hP) fun x _ => ?_
    match x with
    | .ok true => exact ih
    | .ok false => exact Does.pure trivial
    | .error e => exact Does.pure trivial

theorem recordMany_does {kind : OwnershipKind} {foreignIds : List String} {userId : String} :
    Does P (fun _ => True) (recordMany kind foreignIds userId) := by
  rw [recordMany]
  split
  · exact Does.pure trivial
  · refine Does.bind (perf_does (hP _ rfl)) fun now _ =>
      Does.bind (perf_does (hP _ rfl)) fun x _ => ?_
    cases x with
    | ok u => exact verifyAll_does hP
    | error e => exact Does.pure trivial

theorem sleepUntil_does {deadline : Int} : Does P (fun _ => True) (sleepUntil deadline) := by
  refine Does.bind (perf_does (hP _ rfl)) fun now _ => ?_
  exact ite_does (Does.pure trivial) (perf_does (hP _ rfl))

theorem pollChunks_does {deadline : Int} {chunks : List (List String)} :
    Does P (fun _ => True) (pollChunks deadline chunks) := by
  induction chunks with
  | nil => exact Does.pure trivial
  | cons chunk chunks ih =>
    refine Does.bind (perf_does (hP _ rfl)) fun now _ => ?_
    split
    · exact Does.pure trivial
    · exact Does.bind (perf_does (hP _ rfl)) fun _ _ => Does.bind ih fun _ _ => Does.pure trivial

theorem awaitRounds_does {deadline : Int} {rounds : ℕ} {pending : List String} {sawNonOk : Bool} :
    Does P (fun _ => True) (awaitRounds deadline rounds pending sawNonOk) := by
  induction rounds generalizing pending sawNonOk with
  | zero => exact Does.pure trivial
  | succ rounds ih =>
    rw [awaitRounds]
    split
    · exact Does.pure trivial
    · refine Does.bind (perf_does (hP _ rfl)) fun now _ => ?_
      split
      · exact Does.pure trivial
      · refine Does.bind (pollChunks_does hP) fun results _ => ?_
        dsimp only
        split
        · exact Does.pure trivial
        · exact Does.bind (sleepUntil_does hP) fun _ _ => ih

theorem awaitMsgIdsComplete_does {msgIds : List String} :
    Does P (fun _ => True) (awaitMsgIdsComplete msgIds) := by
  rw [awaitMsgIdsComplete]
  split
  · exact Does.pure trivial
  · exact Does.bind (perf_does (hP _ rfl)) fun _ _ => awaitRounds_does hP

theorem listPages_does {sinceMs timeoutMs offset : Int} {pages : ℕ} {cap : Option Int}
    {byId : List JobInfo} :
    Does P (fun _ => True) (listPages sinceMs timeoutMs pages offset cap byId) := by
  induction pages generalizing offset cap byId with
  | zero => exact Does.pure trivial
  | succ pages ih =>
    rw [listPages]
    refine Does.bind (perf_does (hP _ rfl)) fun x _ => ?_
    match x with
    | .roundTimedOut => exact Does.pure trivial
    | .rpcTimedOut => exact Does.pure trivial
    | .reply (.error s) => exact Does.pure trivial
    | .reply (.ok inner) =>
      refine ite_does ?_ ?_
      · exact Does.pure trivial
      · refine ite_does ?_ ?_
        · exact Does.pure trivial
        · exact ih

theorem awaitExtraction_does {schemaPrefix : String} {sinceMs deadline expectedCount : Int}
    {rounds : ℕ} {baseline : Option (Int × Int)} : Does P (fun _ => True)
      (awaitExtraction schemaPrefix sinceMs deadline expectedCount rounds baseline) := by
  induction rounds generalizing baseline with
  | zero => exact Does.pure trivial
  | succ rounds ih =>
    refine Does.bind (perf_does (hP _ rfl)) fun now _ => ?_
    split
    · exact Does.pure trivial
    · refine Does.bind (listPages_does hP) fun x _ => ?_
      match x with
      | none => exact Does.pure trivial
      | some (.error _) => exact Does.bind (sleepUntil_does hP) fun _ _ => ih
      | some (.ok jobs) =>
        dsimp only
        split
        · exact Does.pure trivial
        · exact Does.bind (sleepUntil_does hP) fun _ _ => ih

theorem awaitExtractionJobsForSchema_does {userSchema : String} {sinceMs expectedCount : Int} :
    Does P (fun _ => True) (awaitExtractionJobsForSchema userSchema sinceMs expectedCount) := by
  rw [awaitExtractionJobsForSchema]
  split
  · exact Does.pure trivial
  · exact Does.bind (perf_does (hP _ rfl)) fun _ _ => awaitExtraction_does hP

end Plain

end LlmMemory.Vegapunk
