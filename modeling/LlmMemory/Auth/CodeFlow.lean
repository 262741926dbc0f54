import LlmMemory.Auth.Handlers

/-!
# The authorization code flow

However the requests of any parties are interleaved, tokens given for a code
follow the authorization code flow (`FollowsCodeFlow`): the log of the server
holds, in this order, the authorization request, the callback that took its
state, and authenticated the user, and the token request that took its code,
each bound to the one before and in time. A state and a code are consumed at
most once (`code_flow_safe`).

The system keeps its handlers to their triples (`Sound`), so that the log is
grounded in every state reached; tokens given are then traced back in the log.
-/

namespace LlmMemory.Auth

open Effects Runs

/-! ## The system keeps its log grounded -/

/-- The handling of a request goes on as its triple says. -/
def Handling.Sound (cfg : Config) (db₀ : Db) (h : Handling) (s : AsState) : Prop :=
  Safe (interp cfg db₀ h.id h.req) (.never _)
    (OnOk (fun r => Given cfg.pkgs db₀ (.answer cfg.pkgs h.id h.req r)) fun _ => True) h.prog s

/-- The log is grounded, and the handling of every request goes on as its triple says. -/
structure Sound (cfg : Config) (db₀ : Db) (s : AsSys) : Prop where
  inv : Inv cfg.pkgs db₀ s.shared
  handling : ∀ h ∈ s.handling, h.Sound cfg db₀ s.shared

section Steps

variable {cfg : Config} {db₀ : Db} {s s' : AsSys}

/-- The other requests leave the handling of a request sound. -/
theorem Handling.Sound.evolves {h : Handling} {sh sh' : AsState} (hs : h.Sound cfg db₀ sh)
    (he : Evolves cfg.pkgs db₀ sh sh') : h.Sound cfg db₀ sh' :=
  Safe.env (I := interp cfg db₀ h.id h.req) hs he

/-- A step of the handling of a request. -/
theorem Handling.Sound.step {h : Handling} {h' : Option Handling} {input : Input}
    {sh sh' : AsState} (hs : h.Sound cfg db₀ sh)
    (hfresh : ∀ o k, h.prog = .op o k → o.isFresh sh = true)
    (hstep : h.step cfg input sh = some (h', sh')) :
    Evolves cfg.pkgs db₀ sh sh' ∧ ∀ h₁, h' = some h₁ → h₁.Sound cfg db₀ sh' := by
  obtain ⟨n, req, prog⟩ := h
  cases prog with
  | ret r =>
    cases hstep
    refine ⟨.note (fun _ => ?_) nofun rfl rfl, nofun⟩
    cases r with
    | ok r => cases r with
      | tokens t => exact (hs sh .refl).2 t rfl
      | _ => trivial
    | error e => trivial
  | op o k =>
    obtain ⟨⟨r, sh₁⟩, hp, he⟩ := Option.map_eq_some_iff.1 hstep
    cases he
    obtain ⟨hev, hk⟩ := hs sh .refl r _ ⟨hfresh o k rfl, input, hp⟩
    exact ⟨hev, fun h₁ h => by cases h; exact hk⟩
  | fork limit ts k => cases hstep

theorem Sound.start {db : Db} {now : Int} : Sound cfg db (AsSys.start db now) where
  inv := ⟨Logs.Grounded.nil, fun c hc => ⟨c, .inl hc, rfl, rfl, rfl⟩,
    fun _ => ⟨.inl, fun h => h.resolve_right fun ⟨_, he, _⟩ => absurd he List.not_mem_nil⟩,
    fun _ hx => absurd hx List.not_mem_nil, fun _ hx => absurd hx List.not_mem_nil⟩
  handling _ hh := absurd hh List.not_mem_nil

/-- Time passes in a sound system. -/
theorem Sound.tick (h : Sound cfg db₀ s) (dt : ℕ) : Sound cfg db₀ (s.tick dt) := by
  have he : Evolves cfg.pkgs db₀ s.shared (s.tick dt).shared :=
    .silent rfl (Int.le_add_of_nonneg_right (Int.natCast_nonneg dt)) Db.same_clients rfl
      (List.Subset.refl _) (List.Subset.refl _)
  exact ⟨he.inv h.inv, fun h' hh => (h.handling h' hh).evolves he⟩

/-- A move that puts fresh secrets only. -/
theorem Sound.move (h : Sound cfg db₀ s) {m : Move} (hfresh : drawsFresh s ⟨0, m⟩ = true)
    (hm : s.move cfg m = some s') : Sound cfg db₀ s' := by
  cases m with
  | request req =>
    cases hm
    refine ⟨h.inv, fun h' hh => ?_⟩
    rcases List.mem_append.1 hh with hh | hh
    · exact h.handling h' hh
    · rw [List.mem_singleton.1 hh]
      exact handle_spec s.shared ⟨h.inv, trivial⟩
  | handling i input =>
    obtain ⟨h₁, hi, hm⟩ := Option.bind_eq_some_iff.1 hm
    obtain ⟨⟨h', sh⟩, hst, he⟩ := Option.map_eq_some_iff.1 hm
    have hf : ∀ o k, h₁.prog = .op o k → o.isFresh s.shared = true := fun o k hk => by
      obtain ⟨n, req, prog⟩ := h₁
      cases hk
      simpa [drawsFresh, hi] using hfresh
    obtain ⟨hev, hnext⟩ := (h.handling h₁ (List.mem_of_getElem? hi)).step hf hst
    cases h' with
    | some h' =>
      cases he
      refine ⟨hev.inv h.inv, fun h₂ hh => ?_⟩
      rcases List.mem_or_eq_of_mem_set hh with hh | rfl
      · exact (h.handling h₂ hh).evolves hev
      · exact hnext _ rfl
    | none =>
      cases he
      exact ⟨hev.inv h.inv, fun h₂ hh =>
        (h.handling h₂ (List.mem_of_mem_eraseIdx hh)).evolves hev⟩
  | drop i =>
    cases hm
    exact ⟨h.inv, fun h' hh => h.handling h' (List.mem_of_mem_eraseIdx hh)⟩

theorem drawsFresh_tick {l : Step} : drawsFresh (s.tick l.dt) ⟨0, l.move⟩ = drawsFresh s l := by
  have hop : ∀ o : Op, o.isFresh (s.tick l.dt).shared = o.isFresh s.shared := fun o => by
    cases o <;> rfl
  obtain ⟨dt, m⟩ := l
  cases m with
  | handling i input =>
    simp only [drawsFresh, hop]
    rfl
  | _ => rfl

/-- Every system reached, whose secrets are fresh, is sound. -/
theorem sound_reach {db : Db} {now : Int}
    (h : Reach (· = .start db now) (AsSys.step cfg) (fun s l => drawsFresh s l = true) s) :
    Sound cfg db s :=
  h.invariant (fun _ hs => hs ▸ Sound.start) fun _ l _ _ hs hok hst =>
    (hs.tick l.dt).move (drawsFresh_tick.trans hok) hst

end Steps

/-! ## What the checks let pass -/

/-- A request that passes the checks asks for a code, with S256. -/
theorem checkParams_ok {p : AuthorizeParams} (h : checkParams p = .ok ()) :
    p.responseType = "code" ∧ p.codeChallengeMethod = "S256" := by
  rw [checkParams] at h
  split at h
  · cases h
  rename_i hcode
  split at h
  · cases h
  rename_i hs256
  exact ⟨not_not.1 hcode, not_not.1 hs256⟩

/-- A code that passes the checks was put for the client, the redirect URI and the
    challenge. -/
theorem checkCode_ok {pkgs : Packages} {body : TokenForm} {verifier : String} {c : AuthCode}
    (h : checkCode pkgs body verifier c = .ok ()) : pkgs.challenge verifier = c.codeChallenge ∧
      body.clientId = some c.clientId ∧ body.redirectUri = some c.redirectUri := by
  rw [checkCode] at h
  split at h
  · cases h
  rename_i hpkce
  split at h
  · cases h
  rename_i reqClient hc
  split at h
  · cases h
  rename_i hclient
  split at h
  · cases h
  rename_i reqUri hu
  split at h
  · cases h
  rename_i huri
  exact ⟨not_not.1 hpkce, hc.trans (by rw [not_not.1 hclient]), hu.trans (by rw [not_not.1 huri])⟩

/-! ## Tokens follow the flow -/

/-- The event `e`, after the events `l`, puts the session `pending` of the
    authorization request `p` under the state `key`. -/
structure AuthorizeStep (db : Db) (l : List Event) (e : Event) (p : AuthorizeParams)
    (key : String) (pending : PendingAuth) : Prop where
  req : e.req = .authorize p
  put : e.act = .pendingPut key pending
  responseType : p.responseType = "code"
  s256 : p.codeChallengeMethod = "S256"
  registered : Registered db l p

/-- The callback `cb` took the session `pending` under the state `key`, had
    `user` authenticated by Google, and issued `code`. -/
structure CallbackStep (s : AsState) (taken named issued : Event) (cb : CallbackParams)
    (key : String) (pending : PendingAuth) (user : User) (code : String) (c : AuthCode) :
    Prop where
  reqs : ∀ e ∈ [taken, named, issued], e.id = issued.id ∧ e.req = .callbackGoogle cb
  state : cb.state = key
  take : taken.act = .pendingTaken key pending
  google : ∃ email, named.act = .authenticated ⟨user.subject, email⟩
  row : user ∈ s.db.users ∧ user.provider = "google"
  put : issued.act = .codePut code c

/-- The token request `body` took `code`, and was answered with `t`. -/
structure TokenStep (pkgs : Packages) (taken answered : Event) (body : TokenForm)
    (code : String) (c : AuthCode) (p : AuthorizeParams) (user : User) (t : TokenResponse) :
    Prop where
  reqs : taken.id = answered.id ∧ taken.req = .token body ∧ answered.req = .token body
  presented : body.code = some code
  take : taken.act = .codeTaken code c
  clientId : body.clientId = some p.clientId
  redirectUri : body.redirectUri = some p.redirectUri
  pkce : ∃ verifier, body.codeVerifier = some verifier ∧ pkgs.challenge verifier = p.codeChallenge
  issued : t.accessToken.sub = user.id ∧ t.accessToken.clientId = p.clientId

/-- The log holds the authorization code flow that led to the tokens `t` given
    by the event `e`: in this order, an authorization request, a callback taking
    its state less than 10 minutes later, and a token request taking its code
    before the code's time is over. -/
def FollowsCodeFlow (pkgs : Packages) (db : Db) (s : AsState) (e : Event) (t : TokenResponse) :
    Prop :=
  ∃ l₀ l₁ e₁ e₂ e₃ e₄ e₅ p cb body key pending user code c,
    s.log = l₀ ++ e₁ :: l₁ ∧ [e₂, e₃, e₄, e₅, e].Sublist l₁ ∧
    AuthorizeStep db l₀ e₁ p key pending ∧
    CallbackStep s e₂ e₃ e₄ cb key pending user code c ∧
    e₂.time < e₁.time + PENDING_AUTH_TTL_MS ∧
    TokenStep pkgs e₅ e body code c p user t ∧
    e₅.time < e₄.time + AUTH_CODE_TTL_SECS * 1000

/-- The tokens `t` are given by the event `e` for a code. -/
def GivenForCode (e : Event) (t : TokenResponse) : Prop :=
  e.act = .answered (.tokens t) ∧
    ∃ body, e.req = .token body ∧ body.grantType = "authorization_code"

/-- The tokens given for a code follow the code flow. -/
theorem Inv.follows {pkgs : Packages} {db : Db} {s : AsState} (h : Inv pkgs db s) {e : Event}
    {t : TokenResponse} (he : e ∈ s.log) (ht : GivenForCode e t) :
    FollowsCodeFlow pkgs db s e t := by
  obtain ⟨hact, body, hreq, hgrant⟩ := ht
  -- the code taken by the token request
  obtain ⟨l, -, hg, hback⟩ := h.grounded.trace_back (List.singleton_sublist.2 he)
  rw [Grounds, hact] at hg
  obtain ⟨code, verifier, c, hred⟩ := hg body hreq hgrant
  obtain ⟨es, hes, hacts, hof⟩ := hred.did
  obtain ⟨e₅, _, rfl, h₅, hnil⟩ := List.map_eq_cons_iff.1 hacts
  obtain rfl := List.map_eq_nil_iff.1 hnil
  obtain ⟨hid₅, hreq₅⟩ := hof e₅ List.mem_cons_self
  -- the code issued
  obtain ⟨l, -, hg, hback⟩ := h.grounded.trace_back (hback _ hes)
  rw [Grounds, h₅] at hg
  obtain ⟨body', htake⟩ := hg
  obtain rfl : body' = body := by
    have := htake.req.symm.trans (hreq₅.trans hreq)
    cases this
    rfl
  obtain ⟨e₄, he₄, h₄⟩ := htake.put
  -- the session taken and the user authenticated by the callback
  obtain ⟨l, hl, hg, hback⟩ := h.grounded.trace_back (hback _ (List.singleton_sublist.2 he₄))
  rw [Grounds, h₄] at hg
  obtain ⟨⟨key, pending, info, user, hissue⟩, -⟩ := hg
  obtain ⟨es, hes, hacts, hof⟩ := hissue.did
  obtain ⟨e₂, _, rfl, h₂, hacts⟩ := List.map_eq_cons_iff.1 hacts
  obtain ⟨e₃, _, rfl, h₃, hnil⟩ := List.map_eq_cons_iff.1 hacts
  obtain rfl := List.map_eq_nil_iff.1 hnil
  obtain ⟨hrow, hprov, hsub⟩ := hissue.isUser
  obtain ⟨t₄, rfl, ht₄⟩ := hissue.issued
  -- the session put
  obtain ⟨l, -, hg, hback⟩ := h.grounded.trace_back (hback _ hes)
  rw [Grounds, h₂] at hg
  obtain ⟨cb, hcb⟩ := hg
  obtain ⟨e₁, he₁, h₁⟩ := hcb.put
  obtain ⟨l₀, l₁, hlog, hg, hrest⟩ := h.grounded.before (hback _ (List.singleton_sublist.2 he₁))
  rw [Grounds, h₁] at hg
  obtain ⟨p, hauth⟩ := hg
  obtain ⟨g, t₁, rfl, ht₁⟩ := hauth.session
  obtain ⟨hcode, hs256⟩ := checkParams_ok hauth.params
  obtain ⟨hpkce, hclient, huri⟩ := checkCode_ok hred.checked
  have hreqs : ∀ e ∈ [e₂, e₃, e₄], e.id = e₄.id ∧ e.req = .callbackGoogle cb := by
    have h₄₂ : e₄.req = .callbackGoogle cb :=
      (hof e₂ List.mem_cons_self).2.symm.trans hcb.req
    rintro e (_ | ⟨_, _ | ⟨_, _ | ⟨_, ⟨⟩⟩⟩⟩)
    · exact ⟨(hof _ List.mem_cons_self).1, hcb.req⟩
    · have := hof e₃ (List.mem_cons_of_mem _ List.mem_cons_self)
      exact ⟨this.1, this.2.trans h₄₂⟩
    · exact ⟨rfl, h₄₂⟩
  refine ⟨l₀, l₁, e₁, e₂, e₃, e₄, e₅, p, cb, body', key, _, user, code, _, hlog, hrest,
    ⟨hauth.req, h₁, hcode, hs256, hauth.registered⟩,
    ⟨hreqs, hcb.state, h₂, ⟨info.email, hsub ▸ h₃⟩, ⟨(h.users user).2 (hrow.mono hl), hprov⟩, h₄⟩,
    ?_, ⟨⟨hid₅, hreq₅.trans hreq, hreq⟩, htake.presented, h₅, hclient, huri,
      ⟨verifier, hred.proved, hpkce⟩, hred.sub, hred.client⟩, ?_⟩
  · have := hcb.inTime
    simp only [pendingOf] at this
    omega
  · have := htake.inTime
    simp only [codeOf] at this
    omega

/-- A state is consumed at most once, and so is a code. -/
theorem Inv.once {pkgs : Packages} {db : Db} {s : AsState} (h : Inv pkgs db s) :
    (∀ key, s.log.countP (fun e => e.act.stateTaken = some key) ≤ 1) ∧
      ∀ code, s.log.countP (fun e => e.act.codeTaken? = some code) ≤ 1 := by
  refine ⟨fun key => h.grounded.countP_le_one fun l e he ht e' he' => ?_,
    fun code => h.grounded.countP_le_one fun l e he ht e' he' => ?_⟩
  · obtain ⟨n, req, act, time⟩ := e
    cases act with
    | pendingTaken key' pending =>
      obtain rfl : key' = key := by simpa [Action.stateTaken] using ht
      obtain ⟨cb, hcb⟩ := he
      exact decide_eq_false (hcb.first e' he')
    | _ => cases of_decide_eq_true ht
  · obtain ⟨n, req, act, time⟩ := e
    cases act with
    | codeTaken code' c =>
      obtain rfl : code' = code := by simpa [Action.codeTaken?] using ht
      obtain ⟨body, hb⟩ := he
      exact decide_eq_false (hb.first e' he')
    | _ => cases of_decide_eq_true ht

/-- In every run that draws fresh secrets, tokens given for a code follow the
    authorization code flow, and a state and a code are consumed at most once. -/
theorem code_flow_safe {cfg : Config} {db : Db} {now : Int} {s : AsSys}
    (h : Reach (· = .start db now) (AsSys.step cfg) (fun s l => drawsFresh s l = true) s) :
    (∀ e ∈ s.shared.log, ∀ t, GivenForCode e t → FollowsCodeFlow cfg.pkgs db s.shared e t) ∧
    (∀ key, s.shared.log.countP (fun e => e.act.stateTaken = some key) ≤ 1) ∧
    ∀ code, s.shared.log.countP (fun e => e.act.codeTaken? = some code) ≤ 1 :=
  ⟨fun _ he _ ht => (sound_reach h).inv.follows he ht, (sound_reach h).inv.once⟩

/-- The tokens of a first sign-in follow the code flow. -/
theorem code_flow_safe_firstSignIn : ∃ s : AsSys, ∃ e ∈ s.shared.log,
    GivenForCode e firstTokens ∧ FollowsCodeFlow .sample ⟨[], [], []⟩ s.shared e firstTokens ∧
    s.shared.log.countP (fun e => e.act.stateTaken = some "csrf") ≤ 1 := by
  obtain ⟨s, hs, hlast⟩ : ∃ s, exec (AsSys.step .sample) drawsFresh
      (.start ⟨[], [], []⟩ 1000000) firstSignIn = some s ∧
      s.shared.log.getLast? = some firstTokensGiven :=
    Option.map_eq_some_iff.1 (by decide)
  have hsafe := code_flow_safe (.exec (fun _ _ h => h) (.init rfl) hs)
  have ht : GivenForCode firstTokensGiven firstTokens := ⟨rfl, _, rfl, rfl⟩
  exact ⟨s, _, List.mem_of_getLast? hlast, ht, hsafe.1 _ (List.mem_of_getLast? hlast) _ ht,
    hsafe.2.1 "csrf"⟩

end LlmMemory.Auth
