import LlmMemory.WikiAuth.Binding
import LlmMemory.WikiAuth.Exchanges
import LlmMemory.WikiAuth.Tables

/-!
# Where browsers are sent

The wiki's authorization server redirects browsers to Google, when an authorization is
asked for, and back to the client, when Google calls back. In any run, the client that
asked is registered, and so is the redirect URI that it gave, which is an `https` URL
without a fragment (`Registered`); the callback sends the browser to this URI, with the
state that the client gave and the code that it put for the session
(`redirects_registered`). So the server is no open redirector, and a code is sent to no
URI but that of the client it is for.
-/

namespace LlmMemory.WikiAuth

open Effects Auth Runs Serving

/-! ## The clients in the table -/

/-- The redirect URIs in the table passed the check of a registration. -/
def Proper (pkgs : Packages) (db : Db) : Prop :=
  ∀ c ∈ db.clients, ∀ u ∈ c.redirectUris.getD [], pkgs.parseUrl u = some ⟨"https", none⟩

/-- The client registered the redirect URI, an `https` URL without a fragment. -/
structure Registered (pkgs : Packages) (db : Db) (clientId uri : String) : Prop where
  listed : ∃ c ∈ db.clients, c.id = clientId ∧ uri ∈ c.redirectUris.getD []
  https : pkgs.parseUrl uri = some ⟨"https", none⟩

/-- The clients are proper, and those that were found are still there. -/
structure ClientsInv (pkgs : Packages) (c : Conf) : Prop where
  proper : Proper pkgs c.state.db
  found : ∀ n req clientId client, .did n req (.getClient clientId) (.ok (some client)) ∈ c.trace →
    ∃ x ∈ c.state.db.clients, x.id = clientId ∧ x.redirectUris = client.redirectUris

section Clients

variable {pkgs : Packages} {c : Conf} {s s' : Sys}

/-- A registration that is checked keeps the clients proper. -/
theorem Proper.step {db db' : Db} {req : Auth.Request} {h : History} {o : Op} {r : o.Ans}
    (hdb : Proper pkgs db) (hst : DbStep pkgs db o r db') (ho : MayDo pkgs req h o) :
    Proper pkgs db' := by
  intro c' hc' u hu
  rcases hst.client hc' with ⟨c, hc, heq⟩ | ⟨uris, grants, authMethod, clientName, rfl, heq⟩
  · exact hdb c hc u (heq ▸ hu)
  -- what is registered was checked
  · obtain ⟨body, resp, -, hvalid, rfl⟩ := ho
    rw [heq] at hu
    exact (Dcr.validate_ok hvalid).1.uris u hu

/-- An event that leaves the tables as they are, and finds no client. -/
theorem ClientsInv.other (h : ClientsInv pkgs c) {st : AsState} {e : Event}
    (hdb : st.db = c.state.db) (he : ∀ n req o r, e ≠ .did n req o r) :
    ClientsInv pkgs (c.next st e) := by
  refine ⟨hdb ▸ h.proper, fun n req clientId client hmem => ?_⟩
  rw [Conf.next_state, hdb]
  exact h.found n req clientId client
    ((Conf.mem_next.1 hmem).resolve_right fun heq => he _ _ _ _ heq.symm)

/-- An operation keeps the clients. -/
theorem ClientsInv.op (h : ClientsInv pkgs c) {n : ℕ} {req : Auth.Request} {input : Input} {o : Op}
    {r : o.Ans} {st : AsState} {l : History} (hp : perform pkgs input o c.state = some (r, st))
    (ho : MayDo pkgs req l o) : ClientsInv pkgs (c.next st (.did n req o r)) := by
  have hst := dbStep_perform hp
  refine ⟨h.proper.step hst ho, fun n' req' clientId client hmem => ?_⟩
  rcases Conf.mem_next.1 hmem with hmem | heq
  · obtain ⟨x, hx, hid, huris⟩ := h.found n' req' clientId client hmem
    obtain ⟨x', hx', hid', huris'⟩ := hst.client_kept hx
    exact ⟨x', hx', hid'.trans hid, huris'.trans huris⟩
  · cases heq
    obtain ⟨hx, hid⟩ := getClient_perform hp
    obtain ⟨x', hx', hid', huris'⟩ := hst.client_kept hx
    exact ⟨x', hx', hid'.trans hid, huris'⟩

/-- The runs of the server, from tables with proper clients, and no sessions. -/
abbrev ReachedProper (pkgs : Packages) : Sys → Prop :=
  Reach (fun s => ∃ st, (∃ db now, Proper pkgs db ∧ st = start db now) ∧ s = .start st)
    (server pkgs).step fun _ _ => True

/-- A run from proper clients is a run of the server. -/
theorem ReachedProper.reached (h : ReachedProper pkgs s) : Reached pkgs s := by
  induction h with
  | init hs =>
    obtain ⟨st, ⟨db, now, -, hst⟩, rfl⟩ := hs
    exact .init ⟨st, ⟨db, now, hst⟩, rfl⟩
  | step _ hok hst ih => exact .step ih hok hst

/-- What happened stands on its grounds. -/
theorem recorded (h : ReachedProper pkgs s) : Recorded (MayDo pkgs) Tells s :=
  Server.recorded (fun _ => handle_logs) h.reached

/-- The clients are proper in every system reached. -/
theorem clientsInv (h : ReachedProper pkgs s) : ClientsInv pkgs s.conf := by
  refine h.invariant (P := fun s => ClientsInv pkgs s.conf) (fun s hs => ?_)
    fun s m s' hr hs hok hst => ?_
  · obtain ⟨st, ⟨db, now, hproper, rfl⟩, rfl⟩ := hs
    exact ⟨hproper, fun _ _ _ _ he => absurd he List.not_mem_nil⟩
  · cases m with
    | request req =>
      cases hst
      exact hs
    | drop i =>
      rw [Server.step_drop_eq (fun _ _ _ => rfl) hst]
      exact hs
    | world dt =>
      cases hst
      exact hs.other rfl fun _ _ _ _ he => by cases he
    | handling i input =>
      rcases Server.step_handling hst with ⟨n, req, a, -, rfl⟩ | ⟨n, req, o, k, r, st, hi, hp, rfl⟩
      · exact hs.other rfl fun _ _ _ _ he => by cases he
      · exact hs.op hp ((recorded hr).handling _ (List.mem_of_getElem? hi)).1

end Clients

/-! ## Redirects -/

/-- What the `n`-th request did, with the answers that it got. -/
abbrev History.of (n : ℕ) (s : Sys) : History := historyOf n s.conf.trace

/-- The browser is sent to where Google signs users in, for a client that registered the
    redirect URI that it gave. -/
def LeadsToGoogle (pkgs : Packages) (s : Sys) (n : ℕ) (p : AuthorizeParams) (url : String) : Prop :=
  ∃ g, Did (.of n s) .authorizeUrl g ∧ url = g.url ∧
    Registered pkgs s.conf.state.db p.clientId p.redirectUri

/-- The browser is sent back to the redirect URI of the authorization request whose
    session the callback took, with the state of this request and the code put for it. -/
def LeadsBack (pkgs : Packages) (s : Sys) (n : ℕ) (cb : CallbackParams) (url : String) : Prop :=
  ∃ m p g t user now code,
    .did m (.authorize p) (.putPending cb.state (pendingOf p g t)) () ∈ s.conf.trace ∧
    Did (.of n s) (.takePending cb.state) (some (pendingOf p g t)) ∧
    Did (.of n s) (.putCode code (codeOf (pendingOf p g t) user now)) () ∧
    url = redirectUrl (pendingOf p g t) code ∧
    Registered pkgs s.conf.state.db p.clientId p.redirectUri

section Redirects

variable {pkgs : Packages} {s : Sys}

/-- A client that passes has the redirect URI. -/
theorem checkClient_ok {p : AuthorizeParams} {client : OAuthClient}
    (h : checkClient p client = .ok ()) : p.redirectUri ∈ client.redirectUris.getD [] := by
  rw [checkClient] at h
  split at h
  · cases h
  · next hmem => exact not_not.1 hmem

/-- A client that was found, and checked, registered the redirect URI. -/
theorem ClientsInv.registered {c : Conf} (h : ClientsInv pkgs c) {n : ℕ} {req : Auth.Request}
    {p : AuthorizeParams} {client : OAuthClient}
    (hfound : .did n req (.getClient p.clientId) (.ok (some client)) ∈ c.trace)
    (hcheck : checkClient p client = .ok ()) :
    Registered pkgs c.state.db p.clientId p.redirectUri := by
  obtain ⟨x, hx, hid, huris⟩ := h.found n req p.clientId client hfound
  have hmem : p.redirectUri ∈ x.redirectUris.getD [] := huris ▸ checkClient_ok hcheck
  exact ⟨⟨x, hx, hid, hmem⟩, h.proper x hx _ hmem⟩

/-- A session that a callback took was put by an authorization request of a client that
    registered the redirect URI. -/
theorem ReachedProper.session (h : ReachedProper pkgs s) {n : ℕ} {key : String}
    {pending : PendingAuth} (htaken : Did (.of n s) (.takePending key) (some pending)) :
    ∃ m p g t, .did m (.authorize p) (.putPending key pending) () ∈ s.conf.trace ∧
      pending = pendingOf p g t ∧ Registered pkgs s.conf.state.db p.clientId p.redirectUri := by
  obtain ⟨req, he⟩ := mem_historyOf.1 htaken
  obtain ⟨l, hl, -, m, req', hput⟩ := (inv_reached h.reached).grounded.mem he
  obtain ⟨l', hl', p, client, g, t, rfl, hfound, hcheck, -, -, hpending⟩ :=
    (recorded h).of_mem (hl hput)
  obtain ⟨req'', hgot⟩ := mem_historyOf.1 hfound
  exact ⟨m, p, g, t, hl hput, hpending, (clientsInv h).registered (hl' hgot) hcheck⟩

/-- In every run, a browser is only sent to Google, or back to a redirect URI that the
    client of the session registered, with the code for it. -/
theorem redirects_registered (h : ReachedProper pkgs s) {n : ℕ} {req : Auth.Request} {url : String}
    (he : .answered n req (.ok (.redirect url)) ∈ s.conf.trace) :
    (∃ p, req = .authorize p ∧ LeadsToGoogle pkgs s n p url) ∨
      ∃ cb, req = .callbackGoogle cb ∧ LeadsBack pkgs s n cb url := by
  rcases ((recorded h).answered n req _ he).1 with
    ⟨p, client, g, rfl, hfound, hcheck, hg, rfl⟩ | ⟨cb, pending, code, user, now, rfl, htaken, hput, rfl⟩
  · obtain ⟨req', hgot⟩ := mem_historyOf.1 hfound
    exact .inl ⟨p, rfl, g, hg, rfl, (clientsInv h).registered hgot hcheck⟩
  · obtain ⟨m, p, g, t, hasked, rfl, hreg⟩ := h.session htaken
    exact .inr ⟨cb, rfl, m, p, g, t, user, now, code, hasked, htaken, hput, rfl, hreg⟩

/-- The answers that redirect, with the numbers of the requests. -/
def redirectsOf (l : List Event) : List (ℕ × Auth.Request × String) :=
  l.filterMap fun
    | .answered n req (.ok (.redirect url)) => some (n, req, url)
    | _ => none

theorem mem_of_redirectsOf {l : List Event} {n : ℕ} {req : Auth.Request} {url : String}
    (h : (n, req, url) ∈ redirectsOf l) : .answered n req (.ok (.redirect url)) ∈ l := by
  obtain ⟨e, he, heq⟩ := List.mem_filterMap.1 h
  split at heq
  · cases heq
    exact he
  · cases heq

/-- The callback of a first sign-in sends the browser back to the client. -/
theorem redirects_registered_firstSignIn : ∃ s p cb, ReachedProper .sample s ∧
    redirectsOf s.conf.trace = [(1, .authorize p, "https://accounts.google.com/o/oauth2/v2/auth"),
      (2, .callbackGoogle cb, "https://app.example.com/cb?code=code1&state=xyz")] ∧
    LeadsBack .sample s 2 cb "https://app.example.com/cb?code=code1&state=xyz" := by
  obtain ⟨s, hs, hsent⟩ : ∃ s, exec (server .sample).step (fun _ _ => true)
      (.start (start ⟨[], [], []⟩ 1000000)) (firstSignIn firstTokenForm) = some s ∧
      redirectsOf s.conf.trace =
        [(1, .authorize ⟨"code", "c1", "https://app.example.com/cb", sampleChallenge, "S256",
            some "xyz"⟩, "https://accounts.google.com/o/oauth2/v2/auth"),
          (2, .callbackGoogle ⟨"google-code", "csrf"⟩,
            "https://app.example.com/cb?code=code1&state=xyz")] :=
    Option.map_eq_some_iff.1 (by decide +kernel)
  have hproper : Proper .sample ⟨[], [], []⟩ := fun c hc => absurd hc List.not_mem_nil
  have hr : ReachedProper .sample s :=
    .exec (fun _ _ _ => trivial) (.init ⟨_, ⟨_, _, hproper, rfl⟩, rfl⟩) hs
  have he := mem_of_redirectsOf (hsent ▸ List.mem_cons_of_mem _ (List.mem_singleton_self _))
  rcases redirects_registered hr he with ⟨p, heq, -⟩ | ⟨cb, heq, hback⟩
  · cases heq
  · cases heq
    exact ⟨s, _, _, hr, hsent, hback⟩

end Redirects

end LlmMemory.WikiAuth
