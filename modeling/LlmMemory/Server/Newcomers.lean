import LlmMemory.Server.App

/-!
# New accounts

What calls and rebuild workers in flight write late, after the account was deleted, stays
in the tables. It is under the id of the account, and so is all that the server has of a
user: rows, entries in the states of the rebuilds, buckets and calls. So a new account,
whose id is a new ulid, starts with nothing (`starts_empty`): to its user the server looks
as if there were only the shared rows, whoever else had an account, the same person
included.
-/

namespace LlmMemory

open Effects Runs Serving

/-! ## What is personal to a user -/

/-- Where the same is seen, there are no rows either. -/
theorem NoRows.of_sameView {u : String} {db db' : Db} (hn : NoRows u db) (h : SameView u db db') :
    NoRows u db' := by
  have hvisible : Visible u (.personal u) = true := visible_personal_iff.2 rfl
  refine ⟨fun r hr hk => ?_, fun w hw hk => ?_, fun c hc hk => ?_⟩
  · have hmem : r ∈ db.raws.filter fun r => Visible u r.key :=
      h.raws ▸ List.mem_filter.2 ⟨hr, hk ▸ hvisible⟩
    exact hn.raws r (List.mem_of_mem_filter hmem) hk
  · have hmem : w ∈ db.wikis.filter fun w => Visible u w.key :=
      h.wikis ▸ List.mem_filter.2 ⟨hw, hk ▸ hvisible⟩
    exact hn.wikis w (List.mem_of_mem_filter hmem) hk
  · have hmem : c ∈ db.schemas.filter fun c => Visible u c.key :=
      h.schemas ▸ List.mem_filter.2 ⟨hc, hk ▸ hvisible⟩
    exact hn.schemas c (List.mem_of_mem_filter hmem) hk

namespace Endpoint

/-- Nothing that the endpoint has is the user's. -/
structure Untouched (u : String) (s : Endpoint) : Prop where
  rows : NoRows u s.shared.db
  slot : s.shared.map (.personal u) = none
  buckets : ∀ tier, s.buckets (u, tier) = none
  pending : ∀ n, s.pending (u, n) = none

/-- The endpoint with the shared rows only. -/
def sharedOnly (s : Endpoint) : Endpoint where
  shared := { s.shared with
    db := { s.shared.db with
      raws := s.shared.db.raws.filter fun r => r.scope = .shared
      wikis := s.shared.db.wikis.filter fun w => w.scope = .shared
      schemas := s.shared.db.schemas.filter fun c => c.scope = .shared }
    map := fun _ => none }
  secs := s.secs
  buckets := RateLimiter.new
  pending := fun _ => none

/-- The raws that calls wait to insert are of their users. -/
def Owned (s : Endpoint) : Prop := ∀ k r, s.Inserting k r → r.key = .personal k.1

section Events

variable {fts : Fts} {s : Endpoint} {u v : String} {n : ℕ}

/-- To a user who has nothing there are only the shared rows. -/
theorem Untouched.view (h : s.Untouched u) : EndpointView u s s.sharedOnly := by
  have hshared : ∀ k, k ≠ OwnerKey.personal u → Visible u k = decide (k.scope = .shared) :=
    fun k hk => by simp [Visible, hk]
  refine ⟨⟨rfl, ⟨rfl, ?_, ?_, ?_⟩, h.slot⟩, rfl, h.buckets, h.pending⟩ <;>
    rw [sharedOnly, List.filter_filter] <;> refine List.filter_congr fun x hx => ?_
  · rw [hshared _ (h.rows.raws x hx), Raw.key, Bool.and_self]
  · rw [hshared _ (h.rows.wikis x hx), Wiki.key, Bool.and_self]
  · rw [hshared _ (h.rows.schemas x hx), Schema.key, Bool.and_self]

/-- What is not touched does not depend on what others see. -/
theorem Untouched.sharedView {s' : Endpoint} (h : s.Untouched u)
    (hview : SharedView u s'.shared s.shared) (hbuckets : ∀ tier, s'.buckets (u, tier) = none)
    (hpending : ∀ n, s'.pending (u, n) = none) : s'.Untouched u :=
  ⟨h.rows.of_sameView hview.db.symm, hview.slot.trans h.slot, hbuckets, hpending⟩

/-- A call of another user touches nothing. -/
theorem Untouched.call (h : s.Untouched u) (hv : v ≠ u) {rpcId : Option Json} {params : Json}
    {ulid : String} : (s.step fts (.call v n rpcId params ulid)).1.Untouched u := by
  rw [step]
  split
  · exact h
  · have hbuckets : ∀ tier, (RateLimiter.call ⟨s.secs, v, calledTool params⟩ s.buckets).2
        (u, tier) = none := fun tier => by rw [RateLimiter.call_of_ne hv.symm, h.buckets]
    rcases s.call_cases v n rpcId params ulid with ⟨_, hcall⟩ | ⟨_, _, -, hcall⟩ <;>
      rw [hcall]
    · exact ⟨h.rows, h.slot, hbuckets, h.pending⟩
    · refine ⟨h.rows, h.slot, hbuckets, fun n' => ?_⟩
      rw [setPending_of_ne fun hk => hv (Prod.mk.inj hk).1.symm]
      exact h.pending n'

/-- A call keeps the owners of the raws to be inserted. -/
theorem Owned.call (h : s.Owned) {rpcId : Option Json} {params : Json} {ulid : String} :
    (s.step fts (.call v n rpcId params ulid)).1.Owned := by
  rw [step]
  split
  · exact h
  · rcases s.call_cases v n rpcId params ulid with ⟨_, hcall⟩ | ⟨args, work, hwork, hcall⟩ <;>
      rw [hcall]
    · exact h
    · intro k r hk
      rcases inserting_setPending hk with ⟨rfl, q, hq, hw⟩ | ⟨-, hk⟩
      · cases hq
        obtain rfl : work = .write (.insertRaw r) := hw
        exact (startWork_insertRaw hwork).2
      · exact h k r hk

/-- A call that comes in leaves the tables. -/
theorem call_shared {rpcId : Option Json} {params : Json} {ulid : String} :
    (s.step fts (.call v n rpcId params ulid)).1.shared = s.shared := by
  rw [step]
  split
  · rfl
  · rcases s.call_cases v n rpcId params ulid with ⟨_, hcall⟩ | ⟨_, _, -, hcall⟩
    · rw [hcall]
    · rw [hcall]
      rfl

/-- What the step of a call does to the rest is for its user. -/
theorem Owned.effects (h : s.Owned) {ok : Bool} :
    ∀ e ∈ s.effects v n ok, e.owner = .personal v := by
  rw [Endpoint.effects]
  split
  · next w hp => exact WriteCall.next_owner fun r hr => h _ r ⟨_, hp, by rw [hr]⟩
  · exact fun _ he => nomatch he

/-- A call that goes on has the effects of its step. -/
theorem go_shared {ok : Bool} : (s.step fts (.go v n ok)).1.shared =
    (s.effects v n ok).foldl Shared.effect s.shared := by
  rw [step, Endpoint.effects]
  cases s.pending (v, n) with
  | none => rfl
  | some p =>
    obtain ⟨rpcId, tool, work⟩ := p
    unfold go
    cases work with
    | read w =>
      dsimp only
      cases w.next fts v s.shared ok <;> rfl
    | write w =>
      dsimp only
      rcases w.next v s.shared ok with ⟨r | r, es⟩ <;> rfl

/-- A call that goes on changes what is pending of its user only, and is no insertion. -/
theorem go_pending (fts : Fts) (s : Endpoint) (v : String) (n : ℕ) (ok : Bool) :
    (s.step fts (.go v n ok)).1.buckets = s.buckets ∧
    (∀ k, k.1 ≠ v → (s.step fts (.go v n ok)).1.pending k = s.pending k) ∧
    ∀ k r, (s.step fts (.go v n ok)).1.Inserting k r → s.Inserting k r := by
  rw [step]
  split
  · next p hp =>
    obtain ⟨es, p', answers, hgo, -, hcont, -⟩ := go_cases fts s v n ok p
    rw [hgo]
    refine ⟨rfl, fun k hk => setPending_of_ne fun heq => hk (heq ▸ rfl), fun k r hk => ?_⟩
    rcases inserting_setPending hk with ⟨rfl, q, hq, hw⟩ | ⟨-, hk⟩
    · exact absurd hw ((hcont q hq).ne_insertRaw r)
    · exact hk
  · exact ⟨rfl, fun _ _ => rfl, fun _ _ hk => hk⟩

/-- The step of another user's call touches nothing. -/
theorem Untouched.go (h : s.Untouched u) (ho : s.Owned) (hv : v ≠ u) {ok : Bool} :
    (s.step fts (.go v n ok)).1.Untouched u := by
  obtain ⟨hbuckets, hpending, -⟩ := go_pending fts s v n ok
  refine h.sharedView ?_ (fun tier => hbuckets ▸ h.buckets tier) fun n' => ?_
  · rw [go_shared]
    exact SharedView.effects_unseen hv ho.effects
  · rw [hpending _ hv.symm]
    exact h.pending n'

theorem Owned.go (h : s.Owned) {ok : Bool} : (s.step fts (.go v n ok)).1.Owned :=
  fun k r hk => h k r ((go_pending fts s v n ok).2.2 k r hk)

/-- The deletion of another user touches nothing. -/
theorem Untouched.deleteMe (h : s.Untouched u) (hv : v ≠ u) :
    (s.step fts (.deleteMe v)).1.Untouched u := by
  have hview : SharedView u (s.shared.effect (.deleteUser v)) s.shared :=
    SharedView.effect_unseen hv rfl
  exact h.sharedView hview h.buckets h.pending

end Events

end Endpoint

/-- A worker writes pages of its owner. -/
theorem OwnMove.noRows {k : OwnerKey} {s s' : Shared} {u : String} (h : OwnMove k s s')
    (hk : k ≠ .personal u) (hn : NoRows u s.db) : NoRows u s'.db := by
  cases h with
  | none => exact hn
  | gauge n => exact hn
  | op ho hw =>
    cases hw with
    | @wikiUpsert key =>
      obtain rfl : key = k := ho
      refine ⟨hn.raws, fun w hmem => ?_, hn.schemas⟩
      rcases Rows.mem_or_eq_of_mem_upsert hmem with rfl | hmem
      · exact hk
      · exact hn.wikis w hmem
    | startSession | listSince _ | built | prompt | extracted => exact hn
  | mark =>
    unfold Shared.markIdleOrContinue
    split <;> exact hn
  | release r => cases r <;> exact hn

/-! ## Workers -/

/-- The workers that effects for an owner start are of that owner. -/
theorem Sys.mem_effects_workers {k : OwnerKey} {es : List Effect} {s : Sys} {w : Worker}
    (hes : ∀ e ∈ es, e.owner = k) (hw : w ∈ (es.foldl Sys.effect s).workers) :
    w ∈ s.workers ∨ w.key = k := by
  induction es generalizing s with
  | nil => exact .inl hw
  | cons e es ih =>
    refine (ih (fun e' he' => hes e' (List.mem_cons_of_mem _ he')) hw).elim (fun hw => ?_) .inr
    have he := hes e List.mem_cons_self
    cases e with
    | tryStart key mode =>
      obtain rfl : key = k := he
      simp only [Sys.effect] at hw
      split at hw
      · exact (List.mem_append.1 hw).imp_right fun hw => by rw [List.mem_singleton.1 hw]
      · exact .inl hw
    | insertRaw r | upsertSchema key content now | deleteUser v => exact .inl hw

/-- What every run keeps of the workers is up to the slots and the gauge. -/
theorem Sound.congr {fts : Fts} {s s' : Sys} (h : Sound fts s) (hw : s'.workers = s.workers)
    (hmap : s'.shared.map = s.shared.map) (hgauge : s'.shared.inFlight = s.shared.inFlight) :
    Sound fts s' := by
  refine ⟨⟨fun k => ?_, ?_⟩, fun k => (h.own k).env hw trivial⟩
  · rw [hw, running, hmap]
    exact h.slots.slots k
  · rw [hw, hgauge]
    exact h.slots.gauge

namespace App

/-- Nothing that the server has is the user's. -/
structure Untouched (u : String) (s : State) : Prop where
  endpoint : s.endpoint.Untouched u
  workers : ∀ w ∈ s.workers, w.key ≠ .personal u
  serving : ∀ x ∈ s.router.serving, x.user.userId ≠ u

/-! ## Steps -/

section Steps

variable {τ : Type} {cfg : WikiAuth.Router.Config τ} {fts : Fts} {s s' : State} {u : String}

/-- What the router does to other accounts touches nothing. -/
theorem withRouter_untouched {router : WikiAuth.Router.State} (h : s.endpoint.Untouched u) :
    (s.withRouter router).endpoint.Untouched u :=
  ⟨⟨h.rows.raws, h.rows.wikis, h.rows.schemas⟩, h.slot, h.buckets, h.pending⟩

/-- What follows from a move of the router touches nothing. -/
theorem follow_untouched (fts : Fts) (h : Untouched u s) (m : WikiAuth.Router.Move τ) :
    (s.follow fts m).endpoint.Untouched u ∧
      ∀ w ∈ (s.follow fts m).workers, w.key ≠ .personal u := by
  unfold State.follow
  split
  · split
    · next x hx =>
      have hdel : (s.endpoint.step fts (.deleteMe x.user.userId)).1.Untouched u :=
        h.endpoint.deleteMe (h.serving x (List.mem_of_getElem? hx))
      exact ⟨hdel, h.workers⟩
    · exact ⟨h.endpoint, h.workers⟩
  · exact ⟨⟨h.endpoint.rows, rfl, fun _ => rfl, fun _ => rfl⟩, fun _ hw => nomatch hw⟩
  · exact ⟨h.endpoint, h.workers⟩

/-- The move of a worker for others touches nothing. -/
theorem worker_untouched (h : Untouched u s) (hs : Sound fts s.toSys) {e : Event} {sys : Sys}
    (he : e.worker?.isSome) (hst : s.toSys.step fts ⟨0, e⟩ = some sys) :
    { s.endpoint with shared := sys.shared }.Untouched u ∧
      ∀ w ∈ sys.workers, w.key ≠ .personal u := by
  rcases Sys.step_cases hst with ⟨es, calls, heff, -⟩ | ⟨i, w, p, sh, -, hi, hm, rfl⟩
  -- the events of workers have no effects of requests
  · cases e with
    | request _ _ | call _ _ _ | rawAppend _ _ _ => cases he
    | worker _ _ _ | panic _ | cancel _ => cases heff
  · have hw : w ∈ s.workers := List.mem_of_getElem? hi
    have hk : w.key ≠ .personal u := h.workers w hw
    have hown : OwnMove w.key (s.toSys.shared.tick 0) sh :=
      ((hs.tick 0 []).own w.key).ownMove hw rfl hm
    refine ⟨⟨hown.noRows hk h.endpoint.rows, (moves_of_ne hm hk.symm).trans h.endpoint.slot,
      h.endpoint.buckets, h.endpoint.pending⟩, fun w' hw' => ?_⟩
    rcases List.mem_or_eq_of_mem_set hw' with hw' | rfl
    · exact h.workers w' hw'
    · exact hk

/-- A step gives nothing to a user who has nothing. -/
theorem Moves.untouched {m : Move τ} (hm : Moves cfg fts s m s') (h : Untouched u s)
    (ho : s.endpoint.Owned) (hs : Sound fts s.toSys) :
    s'.endpoint.Untouched u ∧ ∀ w ∈ s'.workers, w.key ≠ .personal u := by
  cases hm with
  | router hr =>
    obtain ⟨hendpoint, hworkers⟩ := follow_untouched fts h _
    exact ⟨withRouter_untouched hendpoint, hworkers⟩
  | call hx hmcp => exact ⟨h.endpoint.call (h.serving _ hx), h.workers⟩
  | go hx =>
    refine ⟨h.endpoint.go ho (h.serving _ hx), fun w hw => ?_⟩
    rcases Sys.mem_effects_workers ho.effects hw with hw | hw
    · exact h.workers w hw
    · rw [hw]
      exact fun hk => h.serving _ hx (OwnerKey.mk.inj hk).2
  | worker he hst => exact worker_untouched h hs he hst
  | @tick dt secs _ hr =>
    have htick : (s.happens fts (.tick dt secs)).endpoint.Untouched u :=
      ⟨h.endpoint.rows, h.endpoint.slot, h.endpoint.buckets, h.endpoint.pending⟩
    exact ⟨withRouter_untouched htick, h.workers⟩

/-- What follows from a move of the router keeps the owners. -/
theorem follow_owned (fts : Fts) (h : s.endpoint.Owned) (m : WikiAuth.Router.Move τ) :
    (s.follow fts m).endpoint.Owned := by
  unfold State.follow
  split
  · split <;> exact h
  · exact fun k r ⟨_, hp, _⟩ => nomatch hp
  · exact h

/-- Every move of the server keeps the owners. -/
theorem Moves.owned {m : Move τ} (hm : Moves cfg fts s m s') (h : s.endpoint.Owned) :
    s'.endpoint.Owned := by
  cases hm with
  | @router m _ hr => exact follow_owned fts h m
  | call hx hmcp => exact h.call
  | go hx => exact h.go
  | worker he hst => exact h
  | tick hr => exact h

/-- What follows from a move of the router keeps the workers sound. -/
theorem follow_sound (h : Sound fts s.toSys) (m : WikiAuth.Router.Move τ) :
    Sound fts (s.follow fts m).toSys := by
  unfold State.follow
  split
  · split
    · exact h.congr rfl rfl rfl
    · exact h
  · exact .boot ⟨rfl, rfl, rfl, rfl, rfl⟩
  · exact h

/-- The workers, with what they work on, are in a run of their own. -/
theorem Moves.sound {m : Move τ} (hm : Moves cfg fts s m s') (h : Sound fts s.toSys) :
    Sound fts s'.toSys := by
  cases hm with
  | @router m _ hr => exact (follow_sound h m).congr rfl rfl rfl
  | call hx hmcp =>
    refine h.congr rfl ?_ ?_ <;>
    · rw [State.toSys, State.happens, Endpoint.call_shared]
      rfl
  | go hx =>
    refine (h.effects (s.endpoint.effects _ _ _)).congr rfl ?_ ?_ <;>
    · rw [Sys.effects_shared]
      exact congrArg _ Endpoint.go_shared
  | worker he hst => exact (h.step hst).congr rfl rfl rfl
  | tick hr => exact h.congr rfl rfl rfl

/-- The router stays as it is, or makes a move of its own. -/
theorem Moves.router_step {m : Move τ} (hm : Moves cfg fts s m s') (hok : Fresh s m) :
    s'.router = s.router ∨ ∃ m', WikiAuth.Router.Fresh s.router m' ∧
      WikiAuth.Router.step cfg s.router m' = some s'.router := by
  cases hm with
  | router hr => exact .inr ⟨_, hok, hr⟩
  | call hx hmcp => exact .inl rfl
  | go hx => exact .inl rfl
  | worker he hst => exact .inl rfl
  | @tick dt _ _ hr => exact .inr ⟨.auth (.world dt), trivial, hr⟩

end Steps

/-! ## Runs -/

section Runs

open WikiAuth.Accounts (Upserted)

variable {τ : Type} {cfg : WikiAuth.Router.Config τ} {fts : Fts} {s s' : State} {u : String}

/-- The parts are each in a run of their own, and what the server has of a user is of one
    whose account was made. -/
structure Inv (cfg : WikiAuth.Router.Config τ) (fts : Fts) (s : State) : Prop where
  router : WikiAuth.Router.Inv cfg s.router
  owned : s.endpoint.Owned
  sound : Sound fts s.toSys
  untouched : ∀ u, ¬Upserted s.router.auth.conf.trace u → Untouched u s

theorem Inv.goes (h : Inv cfg fts s) {m : Move τ} (hok : Fresh s m)
    (hst : step cfg fts s m = some s') : WikiAuth.Router.Goes cfg s.router s'.router := by
  rcases (step_moves hst).router_step hok with heq | ⟨m', hok', hst'⟩
  · rw [heq]
    exact .of_subset (.init rfl) (List.Subset.refl _)
  · exact WikiAuth.Router.step_goes h.router.serving hok' hst'

/-- Every step keeps the invariant. -/
theorem Inv.step (h : Inv cfg fts s) {m : Move τ} (hok : Fresh s m)
    (hst : App.step cfg fts s m = some s') : Inv cfg fts s' := by
  have hg := h.goes hok hst
  have hm := step_moves hst
  refine ⟨h.router.goes hg, hm.owned h.owned, hm.sound h.sound, fun u hu => ?_⟩
  have hold : Untouched u s := h.untouched u fun hups => by
    obtain ⟨l, hl⟩ := hg.trace
    exact hu (hl ▸ hups.append)
  obtain ⟨hendpoint, hworkers⟩ := hm.untouched hold h.owned h.sound
  refine ⟨hendpoint, hworkers, fun x hx hid => ?_⟩
  rcases hg.serving x hx with hx | ⟨row, heq⟩
  · exact hold.serving x hx hid
  -- who is looked up was upserted
  · refine hu (hid ▸ (WikiAuth.Accounts.inv_reached (h.router.goes hg).auth).looked _ row ?_)
    rw [heq]
    exact Conf.mem_next.2 (.inr rfl)

/-- In every state reached, the invariant holds. -/
theorem inv_reached (h : Reached cfg fts s) : Inv cfg fts s := by
  refine h.invariant (fun s hs => ?_) fun s m s' _ hs hok hst => hs.step hok hst
  obtain ⟨db, hdb, hshared⟩ := hs.shared
  have howned : s.endpoint.Owned := fun k r ⟨p, hp, _⟩ => by rw [hs.pending] at hp; cases hp
  refine ⟨WikiAuth.Router.inv_reached (.init hs.router), howned,
    .boot ⟨?_, ?_, ?_, hs.workers, rfl⟩, fun u _ => ⟨⟨?_, ?_, ?_, ?_⟩, ?_, ?_⟩⟩
  · rw [State.toSys, hshared]
  · rw [State.toSys, hshared]
  · rw [State.toSys, hshared]
  · rw [hshared]
    exact ⟨(hdb u).raws, (hdb u).wikis, (hdb u).schemas⟩
  · rw [hshared]
  · rw [hs.buckets]
    exact fun _ => rfl
  · rw [hs.pending]
    exact fun _ => rfl
  · rw [hs.workers]
    exact fun _ hw => nomatch hw
  · rw [hs.router.2.2]
    exact fun _ hx => nomatch hx

/-- In every run, an account that is made starts with nothing: no rows, entries, buckets,
    calls, workers or requests are its user's, to whom there are only the shared rows,
    whatever of accounts deleted before is still there or in flight. -/
theorem starts_empty (h : Reached cfg fts s) {m : Move τ} (hok : Fresh s m)
    (hst : step cfg fts s m = some s') (hnew : s.router.auth.conf.state.db.findById u = none)
    (hmade : (s'.router.auth.conf.state.db.findById u).isSome) :
    Untouched u s' ∧ EndpointView u s'.endpoint s'.endpoint.sharedOnly := by
  have hinv := inv_reached h
  have hg := hinv.goes hok hst
  have hups : ¬Upserted s.router.auth.conf.trace u := by
    refine WikiAuth.Accounts.made hinv.router.auth hg.auth (fun x hx => ?_) ?_
    · simpa using List.find?_eq_none.1 hnew x hx
    · simpa using List.find?_isSome.1 hmade
  have hold := hinv.untouched u hups
  obtain ⟨hendpoint, hworkers⟩ := (step_moves hst).untouched hold hinv.owned hinv.sound
  refine ⟨⟨hendpoint, hworkers, fun x hx => ?_⟩, hendpoint.view⟩
  rcases hg.serving x hx with hx | ⟨row, heq⟩
  · exact hold.serving x hx
  -- a lookup makes no account
  · rw [heq, Conf.next_state, hnew] at hmade
    cases hmade

/-! ### A raw appended while its account is deleted -/

open WikiAuth.Router (registration signIn tokenFor refreshToken sampleBearer)

/-- Whether a text that comes in is no ulid that was drawn. -/
def checkFresh (s : State) : Move τ → Bool
  | .router m => WikiAuth.Router.checkFresh s.router m
  | _ => true

theorem fresh_of_check {m : Move τ} (h : checkFresh s m = true) : Fresh s m := by
  cases m with
  | router m => exact WikiAuth.Router.fresh_of_check h
  | _ => trivial

/-- The server on empty tables. -/
def sampleStart : State where
  router := WikiAuth.Router.sampleStart
  endpoint := {
    shared := { now := 1000000, db := ⟨[], [], [], [], [], []⟩ }
    secs := 0
    buckets := RateLimiter.new
    pending := fun _ => none }

theorem sampleStart_starts : Starts sampleStart :=
  ⟨⟨⟨_, rfl⟩, rfl, rfl⟩, ⟨⟨[], [], [], [], [], []⟩,
    fun _ => ⟨nofun, nofun, nofun⟩, rfl⟩, rfl, rfl, rfl⟩

/-- The raw is inserted, and a rebuild started, after the account was deleted; then the same
    person signs in, up to the upsert. -/
def lateWrites : List (Move (Auth.Jwt.Header × Auth.Claims × List UInt8)) :=
  (registration ++ signIn "u1" "code1" ++ tokenFor "code1" ++ refreshToken "tok1").map
    (fun m => .router (.auth m)) ++
  [.router (.request sampleBearer .mcp), .router (.lookup 0 true),
    .call 0 (some (.int 1)) (.object [("name", .str "raw_append"), ("arguments", .object
      [("title", .str "x"), ("content", .str "x"), ("source", .str "manual")])]) "r1",
    .router (.request sampleBearer .account), .router (.lookup 0 true), .router (.deleteMe 1 true),
    .go 0 true, .go 0 true] ++
  ((signIn "u2" "code2").take 13).map fun m => .router (.auth m)

theorem starts_empty_lateWrites : ∃ s s' m, Reached .sample Fts.nothing s ∧
    step .sample Fts.nothing s m = some s' ∧
    s.router.auth.conf.state.db.users = [] ∧
    s'.endpoint.shared.db.raws.map (fun r => (r.id, r.ownerId)) = [("r1", "u1")] ∧
    s'.workers.map (fun w => w.key) = [.personal "u1"] ∧
    s'.router.auth.conf.state.db.users.map (fun x => (x.id, x.subject)) = [("u2", "sub")] ∧
    Untouched "u2" s' ∧ EndpointView "u2" s'.endpoint s'.endpoint.sharedOnly := by
  obtain ⟨s, hs, hrest⟩ := Option.bind_eq_some_iff.1 (by decide +kernel :
    ((exec (step .sample Fts.nothing) checkFresh sampleStart lateWrites).bind fun s =>
      (step .sample Fts.nothing s (.router (.auth (.handling 0 (.of .ok))))).map fun s' =>
        decide (s.router.auth.conf.state.db.users = [] ∧
          s'.endpoint.shared.db.raws.map (fun r => (r.id, r.ownerId)) = [("r1", "u1")] ∧
          s'.workers.map (fun w => w.key) = [.personal "u1"] ∧
          s'.router.auth.conf.state.db.users.map (fun x => (x.id, x.subject)) = [("u2", "sub")] ∧
          s.router.auth.conf.state.db.findById "u2" = none ∧
          (s'.router.auth.conf.state.db.findById "u2").isSome)) = some true)
  obtain ⟨s', hs', hdata⟩ := Option.map_eq_some_iff.1 hrest
  obtain ⟨husers, hraws, hworkers, husers', hnew, hmade⟩ := of_decide_eq_true hdata
  have hr : Reached .sample Fts.nothing s :=
    .exec (fun _ _ => fresh_of_check) (.init sampleStart_starts) hs
  exact ⟨s, s', _, hr, hs', husers, hraws, hworkers, husers',
    starts_empty hr (by trivial) hs' hnew hmade⟩

end Runs

end App

end LlmMemory
