import LlmMemory.Server.Separation

/-!
# The calls of the tools as requests

The tools that write do what the requests of the system do (`Sys.step`): a call of the
endpoint that waits for a write, or for the coordinator, is a request in flight
(`WriteCall.toCall`), and each step of the endpoint is done by steps of the system
(`Simulates.step`), so that a run of it is one of the system (`Simulates.run`). What the
rebuild workers do to the endpoint they do to the system in the same way
(`Worker.Moves.events`).

In the system a request comes in for a user who exists, so the users who call tools that
write are to exist when they do (`Authenticated`).
-/

namespace LlmMemory

open Runs

/-! ## The requests -/

namespace WriteCall

/-- The request in flight that the call is. -/
def toCall (userId : String) : WriteCall → Call
  | .insertRaw r => .insertRaw userId r
  | .notifyAppend _ => .notifyAppend userId
  | .upsertSchema content now => .upsertSchema userId content now
  | .requestManual concept => .authenticated userId (.wikiRebuild concept)

/-- The concept asked for is one. -/
def Valid : WriteCall → Prop
  | .requestManual concept => concept.all Concept.isValid = true
  | _ => True

/-- A call goes on as the request that it is. -/
theorem next_toCall {userId : String} {s : Shared} {ok : Bool} {w : WriteCall} (id : String)
    (h : w.Valid) : (w.toCall userId).next s id ok =
      ((w.next userId s ok).1.elim (fun w' => some (w'.toCall userId)) fun _ => none,
        (w.next userId s ok).2) := by
  cases w with
  | insertRaw r =>
    rw [toCall, Call.next, next]
    split <;> rfl
  | notifyAppend rawId => rfl
  | upsertSchema content now => cases ok <;> rfl
  | requestManual concept =>
    have hvalid : concept.all Concept.isValid = true := h
    rw [toCall, Call.next, if_pos hvalid, next]
    rfl

/-- A call of a tool that writes begins validly. -/
theorem start_valid {userId ulid : String} {now : Int} {args : Json} {t : WriteTool} {w : WriteCall}
    (h : t.start userId ulid now args = .ok w) : w.Valid := by
  cases t with
  | rawAppend =>
    obtain ⟨a, -, h⟩ := bind_ok h
    split at h
    · cases h
    · split at h <;> cases h
      trivial
  | schemaUpdate =>
    obtain ⟨content, -, h⟩ := bind_ok h
    cases h
    trivial
  | wikiRebuild =>
    obtain ⟨concept, -, h⟩ := bind_ok h
    cases concept with
    | none =>
      cases h
      rfl
    | some c =>
      change (if _ then _ else _) = _ at h
      split at h <;> cases h
      exact not_not.1 ‹_›

theorem next_valid {userId : String} {s : Shared} {ok : Bool} {w w' : WriteCall} {es : List Effect}
    (h : w.next userId s ok = (.inl w', es)) : w'.Valid := by
  cases w with
  | insertRaw r =>
    rw [next] at h
    split at h
    · cases h
      trivial
    · cases h
  | notifyAppend rawId => cases h
  | upsertSchema content now => cases ok <;> cases h
  | requestManual concept => cases h

end WriteCall

/-! ## Steps of the system -/

namespace Sys

variable {fts : Fts} {s s' : Sys} {userId : String}

/-- The system may get from one state to the other. -/
abbrev Reaches (fts : Fts) (s : Sys) : Sys → Prop :=
  Reach (fun s' => s' = s) (Sys.step fts) fun _ _ => True

theorem Reaches.trans {s'' : Sys} (h : Reaches fts s s') (h' : Reaches fts s' s'') :
    Reaches fts s s'' :=
  h.append h'

theorem Reaches.single {l : Step} (h : s.step fts l = some s') : Reaches fts s s' :=
  .step (.init rfl) trivial h

theorem tick_zero (s : Sys) : s.tick 0 = s := by
  have hshared : s.shared.tick 0 = s.shared := by
    rw [Shared.tick, Nat.cast_zero, add_zero]
  rw [tick, hshared]

/-- A step whose effects are known. -/
theorem step_of_effects {l : Step} {es : List Effect} {calls : List Call}
    (h : (s.tick l.dt).effects l.event = some (es, calls)) :
    s.step fts l = some (es.foldl effect { s.tick l.dt with calls := calls }) := by
  rw [step]
  simp only [h]

/-- A request comes in after some time, for a user who exists. -/
theorem reaches_request (fts : Fts) (dt : ℕ) (req : Request)
    (hu : (Users.findById s.shared.db userId).isSome) :
    Reaches fts s { s.tick dt with calls := s.calls ++ [.authenticated userId req] } := by
  have heffects : (s.tick dt).effects (.request userId req) =
      some ([], s.calls ++ [.authenticated userId req]) := if_pos hu
  exact .single (step_of_effects (l := ⟨dt, .request userId req⟩) heffects)

/-- The `i`-th request goes on after some time. -/
theorem reaches_call (fts : Fts) (dt : ℕ) {i : ℕ} {c : Call} {id : String} {ok : Bool}
    {next : Option Call} {es : List Effect} (hi : s.calls[i]? = some c)
    (h : c.next (s.tick dt).shared id ok = (next, es)) :
    Reaches fts s (es.foldl effect
      { s.tick dt with calls := next.elim (s.calls.eraseIdx i) fun c' => s.calls.set i c' }) := by
  refine .single (l := ⟨dt, .call i id ok⟩) (step_of_effects ?_)
  have hi' : (s.tick dt).calls[i]? = some c := hi
  simp only [effects, hi', Option.map_some, h]
  cases next <;> rfl

/-- A request comes in, and goes on at once. -/
theorem reaches_begun (fts : Fts) (dt : ℕ) (req : Request) {id : String} {ok : Bool}
    {next : Option Call} {es : List Effect} (hu : (Users.findById s.shared.db userId).isSome)
    (h : (Call.authenticated userId req).next (s.tick dt).shared id ok = (next, es)) :
    Reaches fts s (es.foldl effect { s.tick dt with calls := s.calls ++ next.toList }) := by
  refine (reaches_request fts dt req hu).trans ?_
  have hi : (s.calls ++ [Call.authenticated userId req])[s.calls.length]? =
      some (.authenticated userId req) := by simp
  have hcalls : next.elim ((s.calls ++ [Call.authenticated userId req]).eraseIdx s.calls.length)
      (fun c' => (s.calls ++ [Call.authenticated userId req]).set s.calls.length c') =
      s.calls ++ next.toList := by
    cases next <;> simp [List.eraseIdx_append_of_length_le]
  have hnext : (Call.authenticated userId req).next
      (tick { s.tick dt with calls := s.calls ++ [.authenticated userId req] } 0).shared id ok =
        (next, es) := by
    rw [tick_zero]
    exact h
  have hstep := reaches_call fts 0 hi hnext
  rw [tick_zero, hcalls] at hstep
  exact hstep

/-- A call of a tool begins, for a user who exists, as a request does. -/
theorem reaches_start (fts : Fts) {dt : ℕ} {ulid : String} {args : Json} {t : WriteTool}
    {w : WriteCall} (hu : (Users.findById s.shared.db userId).isSome)
    (h : t.start userId ulid (s.shared.tick dt).now args = .ok w) :
    Reaches fts s { s.tick dt with calls := s.calls ++ [w.toCall userId] } := by
  cases t with
  | rawAppend =>
    obtain ⟨a, -, h⟩ := bind_ok h
    have hnext : (Call.authenticated userId (.rawAppend a)).next (s.tick dt).shared ulid true =
        (some (w.toCall userId), []) := by
      rw [Call.next, AppendArgs.toRaw]
      split at h
      · cases h
      · split at h <;> cases h
        rw [if_neg ‹_›, if_neg ‹_›]
        rfl
    exact reaches_begun fts dt (.rawAppend a) hu hnext
  | schemaUpdate =>
    obtain ⟨content, -, h⟩ := bind_ok h
    cases h
    have hnext : (Call.authenticated userId (.schemaUpdate content)).next (s.tick dt).shared ulid
        true = (some (.upsertSchema userId content (s.shared.tick dt).now), []) := rfl
    exact reaches_begun fts dt (.schemaUpdate content) hu hnext
  | wikiRebuild =>
    obtain ⟨concept, -, h⟩ := bind_ok h
    have hw : w = .requestManual concept := by
      cases concept with
      | none => cases h; rfl
      | some c =>
        change (if _ then _ else _) = _ at h
        split at h <;> cases h
        rfl
    rw [hw]
    exact reaches_request fts dt (.wikiRebuild concept) hu

end Sys

/-! ## Lists matched by their keys -/

section Matched

variable {α β : Type} {R R' : α → β → Prop} {ks : List α} {cs : List β} {k : α}

/-- A relation that only changes for another key. -/
theorem forall₂_of_not_mem (h : List.Forall₂ R ks cs) (hk : k ∉ ks)
    (hR : ∀ k' ≠ k, ∀ c, R k' c → R' k' c) : List.Forall₂ R' ks cs := by
  induction h with
  | nil => exact .nil
  | @cons k' c ks cs hc _ ih =>
    obtain ⟨hne, hk⟩ := not_or.1 (mt List.mem_cons.2 hk)
    exact .cons (hR k' (Ne.symm hne) c hc) (ih hk)

theorem getElem?_of_forall₂ (h : List.Forall₂ R ks cs) (hk : k ∈ ks) :
    ∃ (i : ℕ) (c : β), ks[i]? = some k ∧ cs[i]? = some c ∧ R k c := by
  induction h with
  | nil => cases hk
  | @cons k' c ks cs hc _ ih =>
    rcases List.mem_cons.1 hk with rfl | hk
    · exact ⟨0, c, rfl, rfl, hc⟩
    · obtain ⟨i, c, hi, hci, hc⟩ := ih hk
      exact ⟨i + 1, c, hi, hci, hc⟩

/-- What a key is matched with is replaced. -/
theorem forall₂_set_key (h : List.Forall₂ R ks cs) (hnodup : ks.Nodup) {i : ℕ}
    (hi : ks[i]? = some k) {c : β} (hc : R' k c) (hR : ∀ k' ≠ k, ∀ c, R k' c → R' k' c) :
    List.Forall₂ R' ks (cs.set i c) := by
  induction h generalizing i with
  | nil => exact .nil
  | @cons k' c' ks cs hc' htail ih =>
    obtain ⟨hk', hnodup⟩ := List.nodup_cons.1 hnodup
    cases i with
    | zero =>
      obtain rfl : k' = k := Option.some.inj hi
      exact .cons hc (forall₂_of_not_mem htail hk' hR)
    | succ i =>
      have hne : k' ≠ k := fun he => hk' (he ▸ List.mem_of_getElem? hi)
      exact .cons (hR k' hne c' hc') (ih hnodup hi)

/-- A key goes, with what it is matched with. -/
theorem forall₂_erase_key (h : List.Forall₂ R ks cs) (hnodup : ks.Nodup) {i : ℕ}
    (hi : ks[i]? = some k) (hR : ∀ k' ≠ k, ∀ c, R k' c → R' k' c) :
    List.Forall₂ R' (ks.eraseIdx i) (cs.eraseIdx i) := by
  induction h generalizing i with
  | nil => exact .nil
  | @cons k' c' ks cs hc' htail ih =>
    obtain ⟨hk', hnodup⟩ := List.nodup_cons.1 hnodup
    cases i with
    | zero =>
      obtain rfl : k' = k := Option.some.inj hi
      exact forall₂_of_not_mem htail hk' hR
    | succ i =>
      have hne : k' ≠ k := fun he => hk' (he ▸ List.mem_of_getElem? hi)
      exact .cons (hR k' hne c' hc') (ih hnodup hi)

end Matched

/-! ## The simulation -/

/-- The write, or the coordinator, that is waited for. -/
def Work.writing : Work → Option WriteCall
  | .read _ => none
  | .write w => some w

namespace Endpoint

/-- The write that the call `k` waits for. -/
def writing (s : Endpoint) (k : String × ℕ) : Option WriteCall :=
  (s.pending k).bind fun p => p.work.writing

variable {s : Endpoint} {k k' : String × ℕ} {p : Option Pending}

/-- The call that is written of, as it is set. -/
theorem writing_setPending_self :
    (s.setPending k p).writing k = p.bind fun p => p.work.writing := by
  rw [writing, setPending_self]

/-- The other calls are as before. -/
theorem writing_setPending_of_ne (h : k' ≠ k) : (s.setPending k p).writing k' = s.writing k' := by
  rw [writing, setPending_of_ne h, writing]

/-- A call is set that writes as before. -/
theorem writing_setPending_eq (h : (p.bind fun p => p.work.writing) = s.writing k) :
    (s.setPending k p).writing = s.writing := by
  funext k'
  by_cases hk : k' = k
  · rw [hk, writing_setPending_self, h]
  · exact writing_setPending_of_ne hk

end Endpoint

/-- The request in flight is the call `k` of the endpoint. -/
def Endpoint.Matches (s : Endpoint) (k : String × ℕ) (c : Call) : Prop :=
  ∃ w, s.writing k = some w ∧ w.Valid ∧ c = w.toCall k.1

/-- The system has the state of the endpoint, but for the time that passed since its last
    step, and its requests in flight are the calls that write. -/
structure Simulates (s : Endpoint) (sys : Sys) : Prop where
  shared : ∃ dt, (sys.tick dt).shared = s.shared
  calls : ∃ keys : List (String × ℕ), keys.Nodup ∧ (∀ k, (s.writing k).isSome → k ∈ keys) ∧
    List.Forall₂ s.Matches keys sys.calls

/-- The user who calls a tool, or deletes their account, exists, and the event is none of
    the rebuild workers. -/
def EndpointEvent.Authenticated (s : Endpoint) : EndpointEvent → Prop
  | .call userId _ _ _ _ => (Users.findById s.shared.db userId).isSome
  | .deleteMe userId => (Users.findById s.shared.db userId).isSome
  | .go _ _ _ => True
  | .tick _ _ => True
  | .page _ _ _ _ _ => False
  | .slot _ _ => False

/-- The effects of requests leave the requests in flight. -/
theorem Sys.effects_calls (es : List Effect) (s : Sys) : (es.foldl Sys.effect s).calls = s.calls := by
  induction es generalizing s with
  | nil => rfl
  | cons e es ih =>
    rw [List.foldl_cons, ih]
    cases e with
    | tryStart key mode =>
      rw [Sys.effect]
      split <;> rfl
    | _ => rfl

namespace Simulates

variable {fts : Fts} {s s' : Endpoint} {sys : Sys} {userId : String} {n : ℕ}

/-- Nothing happens to the state, nor to the calls that write. -/
theorem of_writing (h : Simulates s sys) (hshared : s'.shared = s.shared)
    (hwriting : s'.writing = s.writing) : Simulates s' sys := by
  obtain ⟨dt, hdt⟩ := h.shared
  obtain ⟨keys, hnodup, hkeys, hcalls⟩ := h.calls
  refine ⟨⟨dt, hdt.trans hshared.symm⟩, keys, hnodup, fun k hk => hkeys k (hwriting ▸ hk),
    hcalls.imp fun k c => ?_⟩
  rintro ⟨w, hw, hvalid, hc⟩
  exact ⟨w, hwriting ▸ hw, hvalid, hc⟩

/-- A call of a tool comes in. -/
theorem call (fts : Fts) (h : Simulates s sys) (rpcId : Option Json) (params : Json) (ulid : String)
    (hu : (Users.findById s.shared.db userId).isSome) :
    ∃ sys', Sys.Reaches fts sys sys' ∧
      Simulates (s.step fts (.call userId n rpcId params ulid)).1 sys' := by
  rw [Endpoint.step]
  split
  · exact ⟨sys, .init rfl, h⟩
  · next hpending =>
    have hnone : s.writing (userId, n) = none := by
      rw [Endpoint.writing, Option.not_isSome_iff_eq_none.1 hpending, Option.bind_none]
    rcases s.call_cases userId n rpcId params ulid with ⟨_, hcall⟩ | ⟨args, work, hwork, hcall⟩ <;>
      rw [hcall]
    · exact ⟨sys, .init rfl, h.of_writing rfl rfl⟩
    · rcases startWork_ok hwork with ⟨_, w, -, -, rfl⟩ | ⟨t, w, hstart, -, rfl⟩
      · have hsame : Simulates { s with buckets := _ } sys := h.of_writing rfl rfl
        exact ⟨sys, .init rfl, hsame.of_writing rfl (Endpoint.writing_setPending_eq hnone.symm)⟩
      · obtain ⟨dt, hdt⟩ := h.shared
        obtain ⟨keys, hnodup, hkeys, hcalls⟩ := h.calls
        have hnew : (userId, n) ∉ keys := fun hk => by
          obtain ⟨i, c, -, -, w, hw, -⟩ := getElem?_of_forall₂ hcalls hk
          rw [hnone] at hw
          cases hw
        have husers : (Users.findById sys.shared.db userId).isSome := by
          rw [← hdt] at hu
          exact hu
        have hnow : (sys.shared.tick dt).now = s.shared.now := congrArg Shared.now hdt
        refine ⟨_, Sys.reaches_start fts husers (hnow ▸ hstart), ⟨0, ?_⟩, keys ++ [(userId, n)], ?_,
          fun k hk => ?_, ?_⟩
        · rw [Sys.tick_zero]
          exact hdt
        · exact List.nodup_append.2 ⟨hnodup, List.nodup_singleton _, fun k hk k' hk' he => by
            rw [List.mem_singleton.1 hk'] at he
            exact hnew (he ▸ hk)⟩
        · by_cases hk' : k = (userId, n)
          · exact List.mem_append.2 (.inr (List.mem_singleton.2 hk'))
          · rw [Endpoint.writing_setPending_of_ne hk'] at hk
            exact List.mem_append.2 (.inl (hkeys k hk))
        · refine List.rel_append (forall₂_of_not_mem hcalls hnew fun k' hk' c => ?_) (.cons ?_ .nil)
          · rintro ⟨w', hw', hc⟩
            exact ⟨w', (Endpoint.writing_setPending_of_ne hk').trans hw', hc⟩
          · exact ⟨w, Endpoint.writing_setPending_self, WriteCall.start_valid hstart, rfl⟩

/-- A call goes on. -/
theorem go (fts : Fts) (h : Simulates s sys) (ok : Bool) : ∃ sys', Sys.Reaches fts sys sys' ∧
    Simulates (s.step fts (.go userId n ok)).1 sys' := by
  rw [Endpoint.step]
  split
  · next p hp =>
    obtain ⟨rpcId, tool, work⟩ := p
    cases work with
    | read w =>
      have hnone : s.writing (userId, n) = none := by
        rw [Endpoint.writing, hp]
        rfl
      unfold Endpoint.go
      dsimp only
      cases w.next fts userId s.shared ok with
      | inl w' =>
        exact ⟨sys, .init rfl, h.of_writing rfl (Endpoint.writing_setPending_eq hnone.symm)⟩
      | inr result =>
        exact ⟨sys, .init rfl, h.of_writing rfl (Endpoint.writing_setPending_eq hnone.symm)⟩
    | write w =>
      have hwriting : s.writing (userId, n) = some w := by
        rw [Endpoint.writing, hp]
        rfl
      obtain ⟨dt, hdt⟩ := h.shared
      obtain ⟨keys, hnodup, hkeys, hcalls⟩ := h.calls
      obtain ⟨i, c, hi, hci, w', hw', hvalid, rfl⟩ :=
        getElem?_of_forall₂ hcalls (hkeys (userId, n) (by rw [hwriting]; rfl))
      obtain rfl : w = w' := Option.some.inj (hwriting.symm.trans hw')
      have hnext : (w.toCall userId).next s.shared "" ok = _ := WriteCall.next_toCall "" hvalid
      unfold Endpoint.go
      dsimp only
      obtain ⟨⟨r, es⟩, hr⟩ : ∃ x, w.next userId s.shared ok = x := ⟨_, rfl⟩
      rw [hr, ← hdt] at hnext
      rw [hr]
      have hold : ∀ {p : Option Pending} {k' c}, k' ≠ (userId, n) → s.Matches k' c →
          ({ s with shared := es.foldl Shared.effect s.shared }.setPending (userId, n) p).Matches
            k' c := by
        rintro p k' c hk' ⟨w', hw', hc⟩
        exact ⟨w', (Endpoint.writing_setPending_of_ne hk').trans hw', hc⟩
      have hshared : ∀ calls, ((es.foldl Sys.effect { sys.tick dt with calls := calls }).tick 0).shared =
          es.foldl Shared.effect s.shared := fun calls => by
        rw [Sys.tick_zero, Sys.effects_shared]
        exact congrArg (es.foldl Shared.effect) hdt
      cases r with
      | inl w' =>
        have hstep : Sys.Reaches fts sys (es.foldl Sys.effect
            { sys.tick dt with calls := sys.calls.set i (w'.toCall userId) }) :=
          Sys.reaches_call fts dt hci hnext
        refine ⟨_, hstep, ⟨0, hshared _⟩, keys, hnodup, fun k hk => ?_, ?_⟩
        · by_cases hk' : k = (userId, n)
          · exact hk' ▸ List.mem_of_getElem? hi
          · exact hkeys k ((Endpoint.writing_setPending_of_ne hk') ▸ hk)
        · rw [Sys.effects_calls]
          exact forall₂_set_key hcalls hnodup hi
            ⟨w', Endpoint.writing_setPending_self, WriteCall.next_valid hr, rfl⟩
            fun k' hk' c => hold hk'
      | inr result =>
        have hstep : Sys.Reaches fts sys (es.foldl Sys.effect
            { sys.tick dt with calls := sys.calls.eraseIdx i }) :=
          Sys.reaches_call fts dt hci hnext
        refine ⟨_, hstep, ⟨0, hshared _⟩, keys.eraseIdx i, hnodup.eraseIdx i, fun k hk => ?_, ?_⟩
        · have hk' : k ≠ (userId, n) := by
            rintro rfl
            rw [Endpoint.writing_setPending_self] at hk
            cases hk
          obtain ⟨j, hj⟩ := List.mem_iff_getElem?.1
            (hkeys k ((Endpoint.writing_setPending_of_ne hk') ▸ hk))
          refine List.mem_eraseIdx_iff_getElem?.2 ⟨j, ?_, hj⟩
          rintro rfl
          exact hk' (Option.some.inj (hj.symm.trans hi))
        · rw [Sys.effects_calls]
          exact forall₂_erase_key hcalls hnodup hi fun k' hk' c => hold hk'
  · exact ⟨sys, .init rfl, h⟩

/-- The steps of the endpoint are done by steps of the system. -/
theorem step (fts : Fts) (h : Simulates s sys) {e : EndpointEvent} (he : e.Authenticated s) :
    ∃ sys', Sys.Reaches fts sys sys' ∧ Simulates (s.step fts e).1 sys' := by
  cases e with
  | call userId n rpcId params ulid => exact h.call fts rpcId params ulid he
  | go userId n ok => exact h.go fts ok
  | deleteMe userId =>
    obtain ⟨dt, hdt⟩ := h.shared
    obtain ⟨keys, hnodup, hkeys, hcalls⟩ := h.calls
    have husers : (Users.findById sys.shared.db userId).isSome := by
      have he : (Users.findById s.shared.db userId).isSome := he
      rw [← hdt] at he
      exact he
    have hbegun : (Call.authenticated userId .deleteMe).next (sys.tick dt).shared "" true =
        (none, [.deleteUser userId]) := rfl
    refine ⟨_, Sys.reaches_begun fts dt .deleteMe husers hbegun, ⟨0, ?_⟩, keys, hnodup, hkeys, ?_⟩
    · rw [Sys.tick_zero, Sys.effects_shared]
      exact congrArg (fun sh : Shared => sh.effect (.deleteUser userId)) hdt
    · rw [Sys.effects_calls]
      show List.Forall₂ _ keys (sys.calls ++ [])
      rw [List.append_nil]
      exact hcalls
  | tick dt secs =>
    obtain ⟨dt', hdt⟩ := h.shared
    refine ⟨sys, .init rfl, ⟨dt' + dt, ?_⟩, h.calls⟩
    show sys.shared.tick (dt' + dt) = s.shared.tick dt
    rw [← hdt, Sys.tick, Shared.tick, Shared.tick, Shared.tick, Nat.cast_add, add_assoc]
  | page key concept content refs t => exact he.elim
  | slot key entry => exact he.elim

end Simulates

/-! ## Runs -/

/-- The events are each authenticated where they happen. -/
def AllAuthenticated (fts : Fts) : Endpoint → List EndpointEvent → Prop
  | _, [] => True
  | s, e :: es => e.Authenticated s ∧ AllAuthenticated fts (s.step fts e).1 es

/-- A run of the endpoint is done by a run of the system. -/
theorem Simulates.run (fts : Fts) {s : Endpoint} {sys : Sys} {es : List EndpointEvent}
    (h : Simulates s sys) (hes : AllAuthenticated fts s es) :
    ∃ sys', Sys.Reaches fts sys sys' ∧
      Simulates (Unwinding.run (Endpoint.step fts) s es).1 sys' := by
  induction es generalizing s sys with
  | nil => exact ⟨sys, .init rfl, h⟩
  | cons e es ih =>
    obtain ⟨sys₁, hreach, h₁⟩ := h.step fts hes.1
    obtain ⟨sys₂, hreach', h₂⟩ := ih h₁ hes.2
    exact ⟨sys₂, hreach.trans hreach', h₂⟩

/-- What the calls of the tools make of the state, the requests of the system make of it too:
    what holds in every run of the system holds of the endpoint. -/
theorem Endpoint.run_reached (fts : Fts) (db : Db) {es : List EndpointEvent}
    (hes : AllAuthenticated fts (.idle db) es) :
    ∃ sys, Reach Boot (Sys.step fts) (fun _ _ => True) sys ∧
      Simulates (Unwinding.run (Endpoint.step fts) (.idle db) es).1 sys := by
  have hboot : Boot ⟨(Endpoint.idle db).shared, [], []⟩ := ⟨rfl, rfl, rfl, rfl, rfl⟩
  have hidle : Simulates (.idle db) ⟨(Endpoint.idle db).shared, [], []⟩ :=
    ⟨⟨0, congrArg Sys.shared (Sys.tick_zero _)⟩, [], List.nodup_nil, nofun, .nil⟩
  obtain ⟨sys, hreach, h⟩ := hidle.run fts hes
  exact ⟨sys, (Reach.init hboot).append hreach, h⟩

end LlmMemory
