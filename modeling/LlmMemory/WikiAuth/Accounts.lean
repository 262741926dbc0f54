import LlmMemory.Storage
import LlmMemory.WikiAuth.Exchanges
import LlmMemory.WikiAuth.Tables

/-!
# The deletion of accounts

The authorization server, on tables from which accounts are deleted (`Db.deleteCascade`),
and in which the users of requests are looked up (`Db.findById`), while its requests are
in flight; and which is restarted, with its sessions gone. All this are moves of the world
(`World`), so that the trace has them in order.

If no ulid is drawn twice, the deletion of an account is final (`closed`): its id is in no
row of a user or a token from then on, and no event is one of it (`Gives`): it is not
looked up, nor found by a callback, and no refresh token is stored for it, or redeemed. The
one thing that could bring it back is an upsert under its id, but the handling that drew
the id upserts only once (`upserted_once`).
-/

namespace LlmMemory.WikiAuth

open Effects Auth Runs Serving

namespace Db

/-- The part of the deletion of a user with all that is personal to them that is in these
    tables. -/
def deleteCascade (db : Db) (userId : String) : Db :=
  { db with
    tokens := db.tokens.filter fun t => t.userId ≠ userId
    users := db.users.filter fun u => u.id ≠ userId }

/-- The row of an id. -/
def findById (db : Db) (id : String) : Option User := db.users.find? fun u => u.id = id

end Db

namespace Accounts

/-- What happens outside the handling of requests: time passes, a user is looked up, with
    the row that is found, an account is deleted, or the server is restarted. -/
inductive World
  | tick (dt : ℕ)
  | lookup (id : String) (row : Option User)
  | deleteAccount (id : String)
  | restart
  deriving DecidableEq, Repr

/-- What happens outside, to the tables, the clock and the sessions. -/
def world (w : World) (s : AsState) : Option AsState :=
  match w with
  | .tick dt => some { s with now := s.now + dt }
  | .lookup id row => if s.db.findById id = row then some s else none
  | .deleteAccount id => some { s with db := s.db.deleteCascade id }
  | .restart => some { s with sessions := {} }

theorem lookup_state {id : String} {row : Option User} {s s' : AsState}
    (h : world (.lookup id row) s = some s') : s' = s := by
  rw [world] at h
  split at h <;> cases h
  rfl

/-- The server of the wiki, with the accounts. -/
def server (pkgs : Packages) :
    Serving.Server WikiSig Auth.Request (Except Rejection Response) Input World AsState where
  handle := handle pkgs
  perform _ _ input := perform pkgs input
  finish _ _ _ s := s
  world := world

/-- What happened. -/
abbrev Done : Type := Serving.Event WikiSig Auth.Request (Except Rejection Response) World

/-- The trace and the state. -/
abbrev Conf : Type := Serving.Conf WikiSig Auth.Request (Except Rejection Response) World AsState

/-- The server with its requests in flight. -/
abbrev Sys : Type := Serving.Sys WikiSig Auth.Request (Except Rejection Response) World AsState

/-- What may happen next. -/
abbrev Move : Type := Serving.Move Auth.Request Input World

/-- A ulid that is drawn was not drawn before, and the account deleted is that of a user who
    was looked up. -/
def Allowed (s : Sys) : Move → Prop
  | .handling i (.of (.text x)) => ∀ h k, s.handling[i]? = some h → h.prog = .op .newUlid k →
      ∀ n req, .did n req .newUlid x ∉ s.conf.trace
  | .world (.deleteAccount id) => ∃ row, .world (.lookup id (some row)) ∈ s.conf.trace
  | _ => True

/-- The runs from empty tables: what is in them was written in the run. -/
abbrev Reached (pkgs : Packages) : Sys → Prop :=
  Reach (fun s => ∃ st, (∃ now, st = start ⟨[], [], []⟩ now) ∧ s = .start st) (server pkgs).step
    Allowed

/-! ## What the tables and the trace have of an account -/

/-- The id was upserted. -/
def Upserted (l : List Done) (id : String) : Prop :=
  ∃ n req u r, .did n req (.upsertUser u) r ∈ l ∧ u.id = id

/-- The event gives something to the account: its user is looked up, or found in a
    callback, or a refresh token is stored for it, or redeemed. -/
def Gives (id : String) : Done → Prop
  | .world (.lookup x (some _)) => x = id
  | .did _ _ (.findUser _ _) (.ok (some user)) => user.id = id
  | .did _ _ (.createRefresh _ userId _ _) (.ok _) => userId = id
  | .did _ _ (.validateAndRevoke _ _) (.ok (some (userId, _))) => userId = id
  | _ => False

/-- The account was deleted. -/
def Deleted (l : List Done) (id : String) : Prop := .world (.deleteAccount id) ∈ l

/-- Tokens are of users in the table, which were upserted; those deleted were, too, and are
    not there; and nothing was given to an account after its deletion. -/
structure Inv (c : Conf) : Prop where
  tokens : ∀ t ∈ c.state.db.tokens, ∃ x ∈ c.state.db.users, x.id = t.userId
  users : ∀ x ∈ c.state.db.users, Upserted c.trace x.id
  looked : ∀ id row, .world (.lookup id (some row)) ∈ c.trace → Upserted c.trace id
  deleted : ∀ id, Deleted c.trace id → Upserted c.trace id ∧ ∀ x ∈ c.state.db.users, x.id ≠ id
  drawn : ∀ n m req req' x, .did n req .newUlid x ∈ c.trace → .did m req' .newUlid x ∈ c.trace →
    n = m
  grounded : Logs.Grounded (fun l e => ∀ id, Gives id e → ¬Deleted l id) c.trace

section Steps

variable {pkgs : Packages} {c : Conf} {s s' : Sys} {l : List Done} {id : String}

theorem Upserted.append {l' : List Done} (h : Upserted l id) : Upserted (l ++ l') id :=
  h.imp fun _ h => h.imp fun _ h => h.imp fun _ h => h.imp fun _ h =>
    ⟨List.mem_append_left l' h.1, h.2⟩

/-- What happened stands on its grounds. -/
theorem recorded (h : Reached pkgs s) : Recorded (MayDo pkgs) Tells s :=
  Server.recorded (fun _ => handle_logs) h

/-- What is given is given to a user who is there. -/
theorem gives_live (h : Inv c) {n : ℕ} {req : Auth.Request} {input : Input} {o : Op} {r : o.Ans}
    {st : AsState} (hp : perform pkgs input o c.state = some (r, st))
    (hg : Gives id (.did n req o r)) : ∃ x ∈ c.state.db.users, x.id = id := by
  cases o with
  | findUser provider subject =>
    cases r with
    | error e => exact hg.elim
    | ok x =>
      cases x with
      | none => exact hg.elim
      | some user => exact ⟨user, findUser_perform hp, hg⟩
  | createRefresh tok userId clientId expiresAt =>
    cases r with
    | error e => exact hg.elim
    | ok u =>
      obtain ⟨x, hx, hid⟩ := (dbStep_perform hp).stored
      exact ⟨x, hx, hid.trans hg⟩
  | validateAndRevoke tok now =>
    cases r with
    | error e => exact hg.elim
    | ok x =>
      cases x with
      | none => exact hg.elim
      | some x =>
        obtain ⟨t, ht, huser⟩ := (dbStep_perform hp).redeemed
        obtain ⟨x', hx', hid⟩ := h.tokens t ht
        exact ⟨x', hx', hid.trans (huser.trans hg)⟩
  | _ => exact hg.elim

/-- An id is upserted once: by the handling that drew it, which does so once. -/
theorem upserted_once (h : Inv s.conf) (hrec : Recorded (MayDo pkgs) Tells s) {n : ℕ}
    {req : Auth.Request} {u : User} (hu : MayDo pkgs req (historyOf n s.conf.trace) (.upsertUser u)) :
    ¬Upserted s.conf.trace u.id := by
  rintro ⟨m, req', u', r, he, hid⟩
  obtain ⟨hdrew, hnone⟩ := hu
  obtain ⟨l, hl, ⟨hdrew', -⟩⟩ := hrec.of_mem he
  obtain ⟨req₁, he₁⟩ := mem_historyOf.1 hdrew
  obtain ⟨req₂, he₂⟩ := mem_historyOf.1 hdrew'
  obtain rfl : n = m := h.drawn n m req₁ req₂ u.id he₁ (hid ▸ hl he₂)
  have hagain := hnone ⟨.upsertUser u', r⟩ (mem_historyOf.2 ⟨req', he⟩)
  cases hagain

/-- A step that leaves the tables as they are, and is no event of an account. -/
theorem Inv.other (h : Inv c) {st : AsState} {e : Done} (hdb : st.db = c.state.db)
    (hgives : ∀ id, ¬Gives id e) (hdraws : ∀ n req x, e ≠ .did n req .newUlid x)
    (hlooked : ∀ id row, e ≠ .world (.lookup id (some row)))
    (hdeleted : ∀ id, e ≠ .world (.deleteAccount id)) : Inv (c.next st e) := by
  refine ⟨by rw [Conf.next_state, hdb]; exact h.tokens, fun x hx => ?_, fun id row he => ?_,
    fun id he => ?_, fun n m req req' x he he' => ?_,
    h.grounded.snoc fun id hg => absurd hg (hgives id)⟩
  · rw [Conf.next_state, hdb] at hx
    exact (h.users x hx).append
  · exact (h.looked id row ((Conf.mem_next.1 he).resolve_right fun heq =>
      hlooked _ _ heq.symm)).append
  · obtain ⟨hups, hgone⟩ := h.deleted id ((Conf.mem_next.1 he).resolve_right fun heq =>
      hdeleted _ heq.symm)
    rw [Conf.next_state, hdb]
    exact ⟨hups.append, hgone⟩
  · exact h.drawn n m req req' x
      ((Conf.mem_next.1 he).resolve_right fun heq => hdraws _ _ _ heq.symm)
      ((Conf.mem_next.1 he').resolve_right fun heq => hdraws _ _ _ heq.symm)

/-- An operation of a request. -/
theorem Inv.op (h : Inv s.conf) (hrec : Recorded (MayDo pkgs) Tells s) {n : ℕ}
    {req : Auth.Request} {input : Input} {o : Op} {r : o.Ans} {st : AsState}
    (hp : perform pkgs input o s.conf.state = some (r, st))
    (ho : MayDo pkgs req (historyOf n s.conf.trace) o)
    (hfresh : ∀ x m req', (.did n req o r : Done) = .did n req .newUlid x →
      .did m req' .newUlid x ∉ s.conf.trace) : Inv (s.conf.next st (.did n req o r)) := by
  have hst := dbStep_perform hp
  obtain ⟨hkept, hold⟩ := hst.users
  have hlive : ∀ id, (∃ x ∈ s.conf.state.db.users, x.id = id) → ¬Deleted s.conf.trace id :=
    fun id ⟨x, hx, hid⟩ hdel => (h.deleted id hdel).2 x hx hid
  refine ⟨fun t ht => ?_, fun x hx => ?_, fun id row he => ?_, fun id he => ?_,
    fun n₁ n₂ req₁ req₂ x he he' => ?_,
    h.grounded.snoc fun id hg => hlive id (gives_live h hp hg)⟩
  · have hthere : ∃ x ∈ s.conf.state.db.users, x.id = t.userId := by
      rcases hst.token ht with ⟨t₀, ht₀, huser⟩ | hthere
      · exact huser ▸ h.tokens t₀ ht₀
      · exact hthere
    obtain ⟨x, hx, hid⟩ := hthere
    obtain ⟨x', hx', hid'⟩ := hkept x hx
    exact ⟨x', hx', hid'.trans hid⟩
  · rcases hold x hx with ⟨x₀, hx₀, hid⟩ | ⟨u, rfl, hid⟩
    · exact hid ▸ (h.users x₀ hx₀).append
    · exact ⟨n, req, u, r, Conf.mem_next.2 (.inr rfl), hid.symm⟩
  · exact (h.looked id row ((Conf.mem_next.1 he).resolve_right nofun)).append
  · obtain ⟨hups, hgone⟩ := h.deleted id ((Conf.mem_next.1 he).resolve_right nofun)
    refine ⟨hups.append, fun x hx hid => ?_⟩
    rcases hold x hx with ⟨x₀, hx₀, hid'⟩ | ⟨u, rfl, hid'⟩
    · exact hgone x₀ hx₀ (hid'.trans hid)
    -- the id of the account is not upserted again
    · exact upserted_once h hrec ho (hid'.symm.trans hid ▸ hups)
  · rcases Conf.mem_next.1 he with hmem | heq
    · rcases Conf.mem_next.1 he' with hmem' | heq'
      · exact h.drawn n₁ n₂ req₁ req₂ x hmem hmem'
      · cases heq'
        exact absurd hmem (hfresh x n₁ req₁ rfl)
    · cases heq
      rcases Conf.mem_next.1 he' with hmem' | heq'
      · exact absurd hmem' (hfresh x n₂ req₂ rfl)
      · cases heq'
        rfl

/-- A move of the world. -/
theorem Inv.world (h : Inv c) {w : World} {st : AsState} (hw : world w c.state = some st)
    (hok : ∀ id, w = .deleteAccount id → ∃ row, .world (.lookup id (some row)) ∈ c.trace) :
    Inv (c.next st (.world w)) := by
  cases w with
  | tick dt =>
    cases hw
    exact h.other rfl (fun _ => id) nofun nofun nofun
  | restart =>
    cases hw
    exact h.other rfl (fun _ => id) nofun nofun nofun
  | lookup x row =>
    rw [Accounts.world] at hw
    split at hw
    · next hfound =>
      cases hw
      cases row with
      | none => exact h.other rfl (fun _ => id) nofun nofun nofun
      | some row =>
        have hmem := List.mem_of_find?_eq_some hfound
        have hid : row.id = x := by simpa using List.find?_some hfound
        have hups : Upserted c.trace x := hid ▸ h.users row hmem
        refine ⟨h.tokens, fun y hy => (h.users y hy).append, fun id row' he => ?_, fun id he => ?_,
          fun n m req req' y he he' => ?_, h.grounded.snoc fun id hg hdel => ?_⟩
        · rcases Conf.mem_next.1 he with he | heq
          · exact (h.looked id row' he).append
          · cases heq
            exact hups.append
        · obtain ⟨hups', hgone⟩ := h.deleted id ((Conf.mem_next.1 he).resolve_right nofun)
          exact ⟨hups'.append, hgone⟩
        · exact h.drawn n m req req' y ((Conf.mem_next.1 he).resolve_right nofun)
            ((Conf.mem_next.1 he').resolve_right nofun)
        · exact (h.deleted id hdel).2 row hmem (hid.trans hg)
    · cases hw
  | deleteAccount x =>
    cases hw
    obtain ⟨row, hlooked⟩ := hok x rfl
    refine ⟨fun t ht => ?_, fun y hy => ?_, fun id row' he => ?_, fun id he => ?_,
      fun n m req req' y he he' => ?_, h.grounded.snoc fun id hg => hg.elim⟩
    · obtain ⟨ht, hne⟩ := List.mem_filter.1 ht
      obtain ⟨y, hy, hid⟩ := h.tokens t ht
      exact ⟨y, List.mem_filter.2 ⟨hy, by simpa [hid] using hne⟩, hid⟩
    · exact (h.users y (List.mem_filter.1 hy).1).append
    · exact (h.looked id row' ((Conf.mem_next.1 he).resolve_right nofun)).append
    · rcases Conf.mem_next.1 he with he | heq
      · obtain ⟨hups, hgone⟩ := h.deleted id he
        exact ⟨hups.append, fun y hy => hgone y (List.mem_filter.1 hy).1⟩
      · cases heq
        exact ⟨(h.looked x row hlooked).append, fun y hy => by simpa using (List.mem_filter.1 hy).2⟩
    · exact h.drawn n m req req' y ((Conf.mem_next.1 he).resolve_right nofun)
        ((Conf.mem_next.1 he').resolve_right nofun)

/-- The invariant holds in every system reached. -/
theorem inv_reached (h : Reached pkgs s) : Inv s.conf := by
  refine h.invariant (P := fun s => Inv s.conf) (fun s hs => ?_) fun s m s' hr hs hok hst => ?_
  · obtain ⟨st, ⟨now, rfl⟩, rfl⟩ := hs
    exact ⟨fun _ ht => absurd ht List.not_mem_nil, fun _ hx => absurd hx List.not_mem_nil,
      fun _ _ he => absurd he List.not_mem_nil, fun _ he => absurd he List.not_mem_nil,
      fun _ _ _ _ _ he => absurd he List.not_mem_nil, .nil⟩
  · cases m with
    | request req =>
      cases hst
      exact hs
    | drop i =>
      rw [Server.step_drop_eq (fun _ _ _ => rfl) hst]
      exact hs
    | world w =>
      obtain ⟨st, hw, heq⟩ := Option.map_eq_some_iff.1 hst
      cases heq
      exact hs.world hw fun id hid => by
        cases hid
        exact hok
    | handling i input =>
      rcases Server.step_handling hst with ⟨n, req, a, -, rfl⟩ | ⟨n, req, o, k, r, st, hi, hp, rfl⟩
      · exact hs.other rfl (fun _ => id) nofun nofun nofun
      · refine hs.op (recorded hr) hp ((recorded hr).handling _ (List.mem_of_getElem? hi)).1
          fun x m req' heq => ?_
        cases heq
        -- a ulid that is drawn is the input of the step
        cases input with
        | error text => cases hp
        | of input =>
          cases input with
          | text ulid =>
            cases hp
            exact hok _ k hi rfl m req'
          | _ => cases hp

/-- The deletion of an account is final: no row of a user or a token has its id, and nothing
    was given to it since. -/
theorem closed (h : Reached pkgs s) {k l : List Done}
    (hdel : s.conf.trace = k ++ .world (.deleteAccount id) :: l) :
    (∀ x ∈ s.conf.state.db.users, x.id ≠ id) ∧ (∀ t ∈ s.conf.state.db.tokens, t.userId ≠ id) ∧
      ∀ e ∈ l, ¬Gives id e := by
  have hinv := inv_reached h
  have hgone := (hinv.deleted id (hdel ▸ List.mem_append_right _ List.mem_cons_self)).2
  refine ⟨hgone, fun t ht huser => ?_, fun e he hg => ?_⟩
  · obtain ⟨x, hx, hid⟩ := hinv.tokens t ht
    exact hgone x hx (hid.trans huser)
  · obtain ⟨l₁, l₂, rfl⟩ := List.append_of_mem he
    refine hinv.grounded (k ++ .world (.deleteAccount id) :: l₁) e l₂ ?_ id hg ?_
    · rw [hdel, List.append_assoc, List.cons_append]
    · exact List.mem_append_right _ List.mem_cons_self

theorem world_users {w : World} {st st' : AsState} (h : world w st = some st') :
    st'.db.users ⊆ st.db.users := by
  cases w with
  | tick dt | restart =>
    cases h
    exact List.Subset.refl _
  | lookup id row =>
    rw [lookup_state h]
    exact List.Subset.refl _
  | deleteAccount id =>
    cases h
    exact List.filter_subset_self _

/-- An account that is made has an id that was not upserted before. -/
theorem step_made (h : Reached pkgs s) {m : Move} (hst : (server pkgs).step s m = some s')
    (hnew : ∀ x ∈ s.conf.state.db.users, x.id ≠ id)
    (hmade : ∃ x ∈ s'.conf.state.db.users, x.id = id) : ¬Upserted s.conf.trace id := by
  obtain ⟨x, hx, hid⟩ := hmade
  cases m with
  | request req =>
    cases hst
    exact absurd hid (hnew x hx)
  | drop i =>
    rw [Server.step_drop_eq (fun _ _ _ => rfl) hst] at hx
    exact absurd hid (hnew x hx)
  | world w =>
    obtain ⟨st, hw, heq⟩ := Option.map_eq_some_iff.1 hst
    cases heq
    exact absurd hid (hnew x (world_users hw hx))
  | handling i input =>
    rcases Server.step_handling hst with ⟨n, req, a, -, rfl⟩ | ⟨n, req, o, k, r, st, hi, hp, rfl⟩
    · exact absurd hid (hnew x hx)
    · rcases (dbStep_perform hp).users.2 x hx with ⟨x₀, hx₀, hid'⟩ | ⟨u, rfl, hid'⟩
      · exact absurd (hid'.trans hid) (hnew x₀ hx₀)
      · obtain rfl : u.id = id := hid'.symm.trans hid
        exact upserted_once (inv_reached h) (recorded h)
          ((recorded h).handling _ (List.mem_of_getElem? hi)).1

/-- An account that is made has an id that was not upserted before. -/
theorem made (h : Reached pkgs s) (hr : Reach (· = s) (server pkgs).step Allowed s')
    (hnew : ∀ x ∈ s.conf.state.db.users, x.id ≠ id)
    (hmade : ∃ x ∈ s'.conf.state.db.users, x.id = id) : ¬Upserted s.conf.trace id := by
  induction hr with
  | init hs => exact absurd hmade (by rw [hs]; push Not; exact hnew)
  | @step s₁ s₂ m hr hok hst ih =>
    by_cases hthere : ∃ x ∈ s₁.conf.state.db.users, x.id = id
    · exact ih hthere
    · push Not at hthere
      have hups : ¬Upserted s₁.conf.trace id := step_made (h.append hr) hst hthere hmade
      obtain ⟨l, hl⟩ := Server.trace_of_reach hr
      exact fun hold => hups (hl ▸ hold.append)

end Steps

end Accounts

end LlmMemory.WikiAuth
