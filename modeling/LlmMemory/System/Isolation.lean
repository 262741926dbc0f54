import LlmMemory.System.Upkeep

/-!
# What is synthesized stays with its owner

The references of a page are loaded by id, from the raws of all owners. That
none of another owner is loaded rests on an invariant (`Isolated`): the
references of the pages of an owner name raws of the owner, since the model's
references are kept as far as they name raws of its input, which come from the
references before, from what is listed, and from what is found.
-/

namespace LlmMemory

open Effects Runs

/-- The texts of the raw and its owner are those of a raw of `k`. -/
def OfRaw {α : Type} (k : OwnerKey) (s : Shared) (text : Raw → α) (x : α) : Prop :=
  ∃ r ∈ s.db.raws, r.key = k ∧ text r = x

/-- The text is that of a page written for `k`. -/
def OfPage (k : OwnerKey) (s : Shared) (text : Wiki → String) (x : String) : Prop :=
  ∃ w ∈ s.hist.written, w.key = k ∧ text w = x

/-- A prompt is made of raws and pages of `k` only. -/
def Confined (k : OwnerKey) (s : Shared) : Prompt → Prop
  | .extract newRaws existingConcepts =>
    (∀ x ∈ newRaws, OfRaw k s (fun r => (r.title, r.content)) x) ∧
      ∀ c ∈ existingConcepts, OfPage k s (·.concept) c
  | .synthesize _ existingWiki raws =>
    (∀ content ∈ existingWiki, OfPage k s (·.content) content) ∧
      ∀ x ∈ raws, OfRaw k s (fun r => (r.id, r.title, r.content)) x

/-- The step does not delete an account. -/
def KeepsAccounts (s : Sys) (l : Step) : Prop :=
  s.Each l fun | .deleteUser _ => false | _ => true

instance {s : Sys} {l : Step} : Decidable (KeepsAccounts s l) :=
  inferInstanceAs (Decidable (s.Each _ _))

namespace Isolation

/-- The raw is one of `k`. -/
def Mine (k : OwnerKey) (r : Raw) (s : Shared) : Prop := r ∈ s.db.raws ∧ r.key = k

/-- The page was written for `k`, and refers to raws of `k`. -/
structure Own (k : OwnerKey) (w : Wiki) (s : Shared) : Prop where
  written : w ∈ s.hist.written
  key : w.key = k
  refs : ∀ id ∈ w.sourceRefs, ∃ r, Mine k r s ∧ r.id = id

/-- The rows of an owner, and what was prompted for it, are its own. -/
structure Isolated (k : OwnerKey) (s : Shared) : Prop where
  ids : (s.db.raws.map (·.id)).Nodup
  pages : ∀ w ∈ Wikis.ofOwner s.db k, Own k w s
  prompts : ∀ p, (k, p) ∈ s.hist.prompts → Confined k s p

/-- Others may insert raws, and do nothing about `k`. -/
structure Rely (k : OwnerKey) (s s' : Shared) : Prop where
  raws : ∀ r ∈ s.db.raws, r ∈ s'.db.raws
  ids : (s.db.raws.map (·.id)).Nodup → (s'.db.raws.map (·.id)).Nodup
  pages : Wikis.ofOwner s'.db k = Wikis.ofOwner s.db k
  prompts : ∀ p, (k, p) ∈ s'.hist.prompts ↔ (k, p) ∈ s.hist.prompts
  written : ∀ w : Wiki, w.key = k → (w ∈ s'.hist.written ↔ w ∈ s.hist.written)

/-- The worker inserts no raws. -/
structure Guar (k : OwnerKey) (s s' : Shared) : Prop where
  isolated : Isolated k s → Isolated k s'
  raws : s'.db.raws = s.db.raws
  written : ∀ w ∈ s.hist.written, w ∈ s'.hist.written

/-- What the annotations of a synthesis rely on: the rely, and what its siblings do. -/
def TaskRely (k : OwnerKey) (s s' : Shared) : Prop :=
  (∀ r ∈ s.db.raws, r ∈ s'.db.raws) ∧ ∀ w : Wiki, w.key = k → w ∈ s.hist.written → w ∈ s'.hist.written

variable {k : OwnerKey} {s s' : Shared} {r : Raw} {w : Wiki} {rs : List Raw} {cs : List String}

/-- What others do keeps what a task relies on. -/
theorem Rely.task (h : Rely k s s') : TaskRely k s s' := ⟨h.raws, fun w hk => (h.written w hk).2⟩

theorem Guar.task (h : Guar k s s') : TaskRely k s s' :=
  ⟨fun _ hr => h.raws ▸ hr, fun w _ => h.written w⟩

theorem Mine.mono (h : Mine k r s) (hr : TaskRely k s s') : Mine k r s' := ⟨hr.1 r h.1, h.2⟩

theorem Own.mono (h : Own k w s) (hr : TaskRely k s s') : Own k w s' :=
  ⟨hr.2 w h.key h.written, h.key, fun id hid =>
    let ⟨r, hm, he⟩ := h.refs id hid
    ⟨r, hm.mono hr, he⟩⟩

theorem ofRaw_mono {α : Type} {text : Raw → α} {x : α} (h : OfRaw k s text x)
    (hr : TaskRely k s s') : OfRaw k s' text x :=
  let ⟨r, hm, hk, he⟩ := h
  ⟨r, hr.1 r hm, hk, he⟩

theorem ofPage_mono {text : Wiki → String} {x : String} (h : OfPage k s text x)
    (hr : TaskRely k s s') : OfPage k s' text x :=
  let ⟨w, hm, hk, he⟩ := h
  ⟨w, hr.2 w hk hm, hk, he⟩

theorem confined_mono {p : Prompt} (h : Confined k s p) (hr : TaskRely k s s') :
    Confined k s' p := by
  cases p with
  | extract newRaws existing =>
    exact ⟨fun x hx => ofRaw_mono (h.1 x hx) hr, fun c hc => ofPage_mono (h.2 c hc) hr⟩
  | synthesize concept existing raws =>
    exact ⟨fun c hc => ofPage_mono (h.1 c hc) hr, fun x hx => ofRaw_mono (h.2 x hx) hr⟩

theorem isolated_stable : Stable (Rely k) (Isolated k) := fun s s' h hr => by
  refine ⟨hr.ids h.ids, fun w hw => ?_, fun p hp => ?_⟩
  · exact (h.pages w (hr.pages ▸ hw)).mono hr.task
  · exact confined_mono (h.prompts p ((hr.prompts p).1 hp)) hr.task

/-! ## The operations -/

/-- What neither prompts nor writes. -/
theorem guar_congr (hdb : s'.db = s.db) (hp : s'.hist.prompts = s.hist.prompts)
    (hw : s'.hist.written = s.hist.written) : Guar k s s' := by
  have htask : TaskRely k s s' := ⟨fun _ hr => hdb ▸ hr, fun _ _ h => hw ▸ h⟩
  refine ⟨fun h => ⟨hdb ▸ h.ids, fun w hmem => ?_, fun p hmem => ?_⟩, by rw [hdb], fun _ h => hw ▸ h⟩
  · rw [hdb] at hmem
    exact (h.pages w hmem).mono htask
  · rw [hp] at hmem
    exact confined_mono (h.prompts p hmem) htask

theorem isolated_congr (h : Isolated k s) (hdb : s'.db = s.db)
    (hp : s'.hist.prompts = s.hist.prompts) (hw : s'.hist.written = s.hist.written) :
    Isolated k s' :=
  (guar_congr hdb hp hw).isolated h

theorem rely_congr (hdb : s'.db = s.db) (hp : s'.hist.prompts = s.hist.prompts)
    (hw : s'.hist.written = s.hist.written) : Rely k s s' :=
  ⟨fun _ h => hdb ▸ h, fun h => hdb ▸ h, by rw [hdb], fun _ => by rw [hp], fun _ _ => by rw [hw]⟩

/-- A prompt is issued that is made of the owner's own. -/
theorem isolated_notePrompt {p : Prompt} (h : Isolated k s) (hp : Confined k s p) :
    Isolated k (s.notePrompt k p) := by
  refine ⟨h.ids, fun w hw => (h.pages w hw).mono ⟨fun _ => id, fun _ _ => id⟩, fun p' hp' => ?_⟩
  refine confined_mono (s := s) ?_ ⟨fun _ => id, fun _ _ => id⟩
  rcases List.mem_append.1 hp' with hp' | hp'
  · exact h.prompts p' hp'
  · obtain rfl := (Prod.mk.inj (List.mem_singleton.1 hp')).2
    exact hp

/-- A page is written that refers to the owner's own. -/
theorem isolated_upsertWiki (h : Isolated k s) {c content : String} {refs : List String} {t : Int}
    (hrefs : ∀ id ∈ refs, ∃ r, Mine k r s ∧ r.id = id) :
    Isolated k (s.upsertWiki k c content refs t) := by
  have htask : TaskRely k s (s.upsertWiki k c content refs t) :=
    ⟨fun _ => id, fun _ _ h => List.mem_append_left _ h⟩
  refine ⟨h.ids, fun w hw => ?_, fun p hp => confined_mono (h.prompts p hp) htask⟩
  rcases Wikis.mem_ofOwner_upsert hw with ⟨_, rfl⟩ | hw
  · exact ⟨List.mem_append_right _ (List.mem_singleton_self _), rfl, hrefs⟩
  · exact (h.pages w hw).mono htask

/-- The raw that a reference of an own page names is one of the owner. -/
theorem mine_of_ref (h : Isolated k s) (hw : Own k w s) {id : String} (hid : id ∈ w.sourceRefs)
    (hr : Raws.get s.db id = some r) : Mine k r s := by
  obtain ⟨r', hm, he⟩ := hw.refs id hid
  obtain ⟨hmem, hid'⟩ := Raws.mem_of_get hr
  have : r = r' := List.inj_on_of_nodup_map h.ids hmem hm.1 (hid'.trans he.symm)
  exact this ▸ hm

/-- A raw that is found by a search for the owner is its own. -/
theorem mine_of_search {fts : Fts} {concept : String} {limit : Int}
    (h : r ∈ Search.raws fts s.db ⟨concept, some k.scope, some k.ownerId, limit⟩) : Mine k r s := by
  have hc := Search.mem_of_mem_raws h
  simp only [Search.candidates, List.mem_filter, decide_eq_true_eq, Option.mem_def,
    Option.some.injEq, forall_eq'] at hc
  refine ⟨hc.1, ?_⟩
  simp only [Raw.key, hc.2.2.1, hc.2.2.2]

/-! ## The contract -/

variable {fts : Fts}

/-- During an iteration with the new raws `rs`. -/
def During (k : OwnerKey) (rs : List Raw) (s : Shared) : Prop :=
  Isolated k s ∧ ∀ r ∈ rs, Mine k r s

theorem during_stable : Stable (Rely k) (During k rs) :=
  isolated_stable.and (Stable.all fun _ _ _ h hr => h.mono hr.task)

theorem During.guar (h : During k rs s) (hg : Guar k s s') : During k rs s' :=
  ⟨hg.isolated h.1, fun r hr => (h.2 r hr).mono hg.task⟩

/-- The synthesis of a page. -/
def taskOutline (fts : Fts) (t : SynthTask) : TaskOutline fts
    (fun s s' => Rely t.key s s' ∨ (During t.key t.newRaws s ∧ Guar t.key s s')) (Guar t.key) t where
  busy := During t.key t.newRaws
  got w s := ∀ page ∈ w, Own t.key page s
  mine := Mine t.key
  noted w inputs s := (∀ page ∈ w, Own t.key page s) ∧ ∀ r ∈ inputs, Mine t.key r s
  guar_refl _ := ⟨id, rfl, fun _ => id⟩
  busy_stable := fun s s' h hr => hr.elim (during_stable s s' h) fun hr => h.guar hr.2
  got_stable _ := fun _ _ h hr page hp => (h page hp).mono (hr.elim (·.task) (·.2.task))
  mine_stable _ := fun _ _ h hr => h.mono (hr.elim (·.task) (·.2.task))
  noted_stable _ _ := fun _ _ h hr =>
    ⟨fun page hp => (h.1 page hp).mono (hr.elim (·.task) (·.2.task)),
      fun r hm => (h.2 r hm).mono (hr.elim (·.task) (·.2.task))⟩
  get _ h page hp := h.1.pages page (Wikis.mem_of_get hp).1
  refs s w id r h hgot hid hr := by
    cases w with
    | none => cases hid
    | some page => exact mine_of_ref h.1 (hgot page rfl) hid hr
  new _ h := h.2
  hits _ _ _ _ := mine_of_search
  built s w inputs h hgot hmine _ := by
    have hg : Guar t.key s (s.noteBuilt ⟨t, (w.map (·.sourceRefs)).getD [], inputs⟩) :=
      guar_congr rfl rfl rfl
    exact ⟨hg, h.guar hg, fun page hp => (hgot page hp).mono hg.task,
      fun r hr => (hmine r hr).mono hg.task⟩
  prompt s w inputs h hn := by
    have hc : Confined t.key s (.synthesize t.concept (w.map (·.content))
        (inputs.map fun r => (r.id, r.title, r.content))) := by
      refine ⟨fun content hcontent => ?_, fun x hx => ?_⟩
      · obtain ⟨page, hp, rfl⟩ := Option.map_eq_some_iff.1 hcontent
        exact ⟨page, (hn.1 page hp).written, (hn.1 page hp).key, rfl⟩
      · obtain ⟨r, hr, rfl⟩ := List.mem_map.1 hx
        exact ⟨r, (hn.2 r hr).1, (hn.2 r hr).2, rfl⟩
    have hg : Guar t.key s (s.notePrompt t.key _) :=
      ⟨fun h => isolated_notePrompt h hc, rfl, fun _ => id⟩
    exact ⟨hg, h.guar hg, fun page hp => (hn.1 page hp).mono hg.task,
      fun r hr => (hn.2 r hr).mono hg.task⟩
  upsert s w inputs content refs h hn hrefs := by
    refine ⟨fun h => isolated_upsertWiki h fun id hid => ?_, rfl, fun _ h => List.mem_append_left _ h⟩
    obtain ⟨r, hr, he⟩ := hrefs id hid
    exact ⟨r, hn.2 r hr, he⟩

/-- With the concepts `cs` known, too. -/
def Known (k : OwnerKey) (rs : List Raw) (cs : List String) (s : Shared) : Prop :=
  During k rs s ∧ ∀ c ∈ cs, OfPage k s (·.concept) c

theorem known_stable : Stable (Rely k) (Known k rs cs) :=
  during_stable.and (Stable.all fun _ _ _ h hr => ofPage_mono h hr.task)

theorem Known.guar (h : Known k rs cs s) (hg : Guar k s s') : Known k rs cs s' :=
  ⟨h.1.guar hg, fun c hc => ofPage_mono (h.2 c hc) hg.task⟩

/-- The raws listed are the owner's own. -/
theorem during_listSince (h : Isolated k s) (since t : Int) :
    During k (Raws.listSince s.db k since t) s :=
  ⟨h, fun _ hr => ⟨(Raws.mem_listSince.1 hr).1, (Raws.mem_listSince.1 hr).2.1⟩⟩

/-- The concepts listed are the owner's own. -/
theorem known_listConcepts (h : During k rs s) : Known k rs (Wikis.listConcepts s.db k) s := by
  refine ⟨h, fun c hc => ?_⟩
  obtain ⟨w, hw, rfl⟩ := Wikis.mem_listConcepts.1 hc
  exact ⟨w, (h.1.pages w hw).written, (h.1.pages w hw).key, rfl⟩

/-- The prompt of an extraction is made of the owner's own. -/
theorem confined_extract (h : Known k rs cs s) :
    Confined k s (.extract (rs.map fun r => (r.title, r.content)) cs) := by
  refine ⟨fun x hx => ?_, h.2⟩
  obtain ⟨r, hr, rfl⟩ := List.mem_map.1 hx
  exact ⟨r, (h.1.2 r hr).1, (h.1.2 r hr).2, rfl⟩

/-- The outline of a session with the isolation of its owner. -/
def outline (fts : Fts) (k : OwnerKey) : Outline fts (Rely k) (Guar k) k where
  start _ := Isolated k
  started _ _ := Isolated k
  marked _ _ _ := Isolated k
  listed _ _ rs := During k rs
  known _ _ rs cs := Known k rs cs
  extracted _ rs _ _ := During k rs
  planned _ rs _ := During k rs
  finish := Isolated k
  guar_refl _ := ⟨id, rfl, fun _ => id⟩
  start_stable _ := isolated_stable
  started_stable _ _ := isolated_stable
  marked_stable _ _ _ := isolated_stable
  listed_stable _ _ _ := during_stable
  known_stable _ _ _ _ := known_stable
  extracted_stable _ _ _ _ := during_stable
  planned_stable _ _ _ := during_stable
  finish_stable := isolated_stable
  startSession _ _ h := ⟨guar_congr rfl rfl rfl, isolated_congr h rfl rfl rfl⟩
  watermark _ _ _ h := h
  listSince _ t w s h := by
    have hd := during_listSince h w t
    dsimp only
    split
    · exact ⟨⟨id, rfl, fun _ => id⟩, hd⟩
    · have hg : Guar k s (s.noteSettled k t) := guar_congr rfl rfl rfl
      exact ⟨hg, hd.guar hg⟩
  listConcepts _ _ _ _ h := known_listConcepts h
  drained _ _ _ h := h.1.1
  prompt _ rs cs s _ h := by
    have hg : Guar k s (s.notePrompt k (.extract (rs.map fun r => (r.title, r.content)) cs)) :=
      ⟨fun hi => isolated_notePrompt hi (confined_extract h), rfl, fun _ => id⟩
    exact ⟨hg, h.guar hg⟩
  extract _ rs _ s _ _ h := by
    have hg : Guar k s (s.noteExtracted k rs) := guar_congr rfl rfl rfl
    exact ⟨hg, h.1.guar hg⟩
  count _ _ _ _ _ h := h
  existing _ _ _ _ _ h _ := h.1
  create _ _ _ _ _ h _ _ := h.1
  rejected _ _ _ _ _ h := h.1.1
  all _ _ _ _ h := h.1
  nothing _ _ _ _ h := h.1
  tasks t rs cs s h := by
    refine ⟨During k rs, Guar k, h, ⟨during_stable, fun s s' h hT => ⟨h.guar hT, hT⟩,
      fun task ht s hs => ?_⟩, fun s h => h.1⟩
    obtain ⟨c, _, rfl⟩ := List.mem_map.1 ht
    exact (taskOutline fts ⟨k, c, rs, t⟩).taskSafe hs
  again _ h := h

/-- What a session keeps up of the isolation. -/
def upkeep (fts : Fts) (k : OwnerKey) : Upkeep fts k where
  inv := Isolated k
  rely := Rely k
  guar := Guar k
  outline := outline fts k
  start _ _ h := h
  finish _ h := h
  stable := isolated_stable
  keeps _ _ h := h.isolated
  slots _ _ _ _ := rely_congr rfl rfl rfl
  tick _ _ := rely_congr rfl rfl rfl
  aside _ _ h := ⟨fun _ hr => h.raws ▸ hr, fun hn => h.raws ▸ hn, h.wikis, h.prompts, h.written⟩

/-- The effects of requests other than deletions are in the rely. -/
theorem rely_effect {s : Sys} {e : Effect} (ha : s.Allows e) (hdel : ∀ u, e ≠ .deleteUser u)
    (hstart : ∀ key mode, e ≠ .tryStart key mode) : Rely k s.shared (s.effect e).shared := by
  cases e with
  | insertRaw r =>
    refine { rely_congr rfl rfl rfl with
      raws := fun _ hr => List.mem_append_left _ hr
      ids := fun hn => ?_ }
    have hfresh : r.id ∉ s.shared.db.raws.map (·.id) := fun hmem => by
      obtain ⟨x, hx, he⟩ := List.mem_map.1 hmem
      exact of_decide_eq_false (Bool.eq_false_iff.2 (List.find?_eq_none.1 ha x hx)) he
    simp only [Sys.effect, Raws.insert, List.map_append, List.map_singleton]
    exact List.concat_eq_append ▸ hn.concat hfresh
  | tryStart key mode => exact absurd rfl (hstart key mode)
  | upsertSchema key content now => exact { rely_congr rfl rfl rfl with }
  | deleteUser u => exact absurd rfl (hdel u)

/-- In every state reached, each owner is isolated. -/
theorem isolated_reach {init : Sys → Prop} {s : Sys}
    (h₀ : ∀ s, init s → Boot s ∧ Isolated k s.shared)
    (h : Reach init (Sys.step fts) KeepsAccounts s) : Isolated k s.shared :=
  (upkeep fts k).reach h₀ (fun _ _ _ _ hok he ha hstart => rely_effect ha (fun u hu => by
    subst hu
    exact Bool.false_ne_true (hok.does he)) hstart) h

end Isolation

/-- In every run without deletions of accounts, from a database without
    personal pages, the references of a personal page name raws of its owner
    only, and a prompt issued for a user is made of raws and pages of that
    user only. -/
theorem synthesis_isolated {fts : Fts} {s : Sys}
    (h : Reach (fun s => Boot s ∧ (s.shared.db.raws.map (·.id)).Nodup ∧
        (∀ w ∈ s.shared.db.wikis, w.scope ≠ .personal) ∧ s.shared.hist.prompts = [])
      (Sys.step fts) KeepsAccounts s) :
    (∀ w ∈ s.shared.db.wikis, w.scope = .personal → ∀ id ∈ w.sourceRefs,
      ∀ r ∈ s.shared.db.raws, r.id = id → r.key = w.key) ∧
    ∀ u p, (.personal u, p) ∈ s.shared.hist.prompts → Confined (.personal u) s.shared p := by
  have hi : ∀ u, Isolation.Isolated (.personal u) s.shared := fun u =>
    Isolation.isolated_reach (fun s hs => ⟨hs.1, hs.2.1, fun w hw => ?_, fun p hp => ?_⟩) h
  · refine ⟨fun w hw hk id hid r hr he => ?_, fun u p => (hi u).prompts p⟩
    have hkey : w.key = .personal w.ownerId := by rw [Wiki.key, hk]; rfl
    have hown := (hi w.ownerId).pages w (Wikis.mem_ofOwner.2 ⟨hw, hkey⟩)
    obtain ⟨r', hm, he'⟩ := hown.refs id hid
    have hrr : r = r' := List.inj_on_of_nodup_map (hi w.ownerId).ids hr hm.1 (he.trans he'.symm)
    rw [hrr, hm.2, hkey]
  · obtain ⟨hmem, hk⟩ := Wikis.mem_ofOwner.1 hw
    exact absurd (congrArg OwnerKey.scope hk) (hs.2.2.1 w hmem)
  · simp [hs.2.2.2] at hp

theorem synthesis_isolated_first : ∃ s : Sys, s.shared.hist.prompts.length = 2 ∧
    (∀ w ∈ s.shared.db.wikis, w.scope = .personal → ∀ id ∈ w.sourceRefs,
      ∀ r ∈ s.shared.db.raws, r.id = id → r.key = w.key) ∧
    ∀ u p, (.personal u, p) ∈ s.shared.hist.prompts → Confined (.personal u) s.shared p := by
  obtain ⟨s, hs, hlen⟩ : ∃ s, exec (Sys.step Fts.nothing) (fun s l => KeepsAccounts s l)
      (.fresh "u" 1) firstRebuild = some s ∧ s.shared.hist.prompts.length = 2 :=
    Option.map_eq_some_iff.1 (by decide)
  exact ⟨s, hlen, synthesis_isolated (.exec (fun _ _ => of_decide_eq_true)
    (.init ⟨Sys.fresh_boot _ _, by decide, by decide, rfl⟩) hs)⟩

end LlmMemory
