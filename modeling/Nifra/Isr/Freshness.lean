import Nifra.Isr.HandlerSound

/-! # No page is older than a purge

A request that comes after a purge is answered from a render that began after it, unless it waits for
a cold render that began before. One regeneration of a key runs at a time, and every page that is
handed on could be cached.
-/

namespace Nifra.Isr

namespace Wrapper
variable {B : Type} {options : IsrOptions} {w t : Wrapper B} {n m : ℕ} {key : JSString}
  {entry : Entry B} {visit : Visit B} {render : Render B} {res : Response B} {action : Action B}

def answerRender (req : Request) (res : Response B) (stage : Stage B) (render : Render B) : Render B :=
  { render with
    answered := some (req, res),
    stage := stage }

theorem sound_answerRender (req : Request) (stage : Stage B) (h : Sound options w)
    (hrender : w.renders[m]? = some render) (hstage : render.stage = .fetching)
    (hreading : ∀ plan res', stage = .reading plan res' → res' = res ∧
      (plan = .store → cacheableResponse options req res = true) ∧
      ((∀ key, render.kind ≠ .background key) → plan = .store))
    (hfetching : stage ≠ .fetching) (hentry : stage.entry = none) :
    Sound options { w with renders := w.renders.modify m (answerRender req res stage) } := by
  have hok := h.renders m render hrender
  have hanswered (answered : Request × Response B) (hsome : render.answered = some answered) :
      (answerRender req res stage render).answered = some answered := by
    rw [hok.fetching hstage] at hsome
    cases hsome
  have hext := extends_setRender (f := answerRender req res stage) hrender rfl rfl hanswered
  have hold := hok.mono hext
  refine h.setRender hrender rfl rfl hanswered (fun entry hends => ?_) ?_
  · cases hstage.symm.trans hends
  · constructor
    · exact hold.fence
    · exact hold.visit
    · exact fun hstage' => absurd hstage' hfetching
    · intro plan res' hplan
      obtain ⟨rfl, hrest⟩ := hreading plan res' hplan
      exact ⟨req, rfl, hrest⟩
    · intro entry hsome
      rw [show (answerRender req res stage render).stage.entry = none from hentry] at hsome
      cases hsome

theorem Sound.response (h : Sound options w) (hrender : w.renders[m]? = some render)
    (hkind : ∀ key, render.kind ≠ .background key) :
    ∃ visit, w.visits[render.visit]? = some visit ∧ visit.since ≤ render.fence :=
  (h.renders m render hrender).visit hkind

theorem rememberUncacheable_eq (options : IsrOptions) (w : Wrapper B) (key : JSString)
    (res : Response B) (now : ℚ) : ∃ uncacheable,
    w.rememberUncacheable options key res now = { w with uncacheable := uncacheable } := by
  unfold rememberUncacheable
  split_ifs
  · exact ⟨w.uncacheable, rfl⟩
  · exact ⟨_, rfl⟩
  · exact ⟨_, rfl⟩

theorem setStage_answered {req : Request} {stage : Stage B} :
    ({ w with renders := w.renders.modify m fun render =>
      { render with answered := some (req, res) } } : Wrapper B).setStage m stage =
      { w with renders := w.renders.modify m (answerRender req res stage) } := by
  rw [setStage, List.modify_modify_eq]
  rfl

theorem sound_passOn (req : Request) (res : Response B) {stage : Stage B} (h : Sound options w)
    (hrender : w.renders[m]? = some render) (hstage : render.stage = .fetching)
    (hkind : ∀ key, render.kind ≠ .background key) (hreading : ∀ plan res', stage ≠ .reading plan res')
    (hfetching : stage ≠ .fetching) (hentry : stage.entry = none) (passed : Response B) :
    Sound options ({ w with renders := w.renders.modify m (answerRender req res stage) }.setPhase
      render.visit (.answered (.response m passed))) := by
  obtain ⟨visit, hvisit, hsince⟩ := h.response hrender hkind
  refine (sound_answerRender _ _ h hrender hstage
    (fun plan res' hplan => absurd hplan (hreading plan res')) hfetching hentry).setPhase hvisit ?_
  refine ⟨answerRender req res stage render, ?_, hsince⟩
  rw [List.getElem?_modify, hrender]
  simp

theorem sound_respondOwn {remember : Bool} {req : Request} {otherwise : Stage B} {now : ℚ}
    (h : Sound options w) (hrender : w.renders[m]? = some render)
    (hstage : render.stage = .fetching) (hkind : ∀ key, render.kind ≠ .background key)
    (hreading : ∀ plan res', otherwise ≠ .reading plan res') (hfetching : otherwise ≠ .fetching)
    (hentry : otherwise.entry = none) :
    Sound options (({ w with renders := w.renders.modify m fun render =>
      { render with answered := some (req, res) } } : Wrapper B).respondOwn options m render.visit
        key remember req res otherwise now) := by
  unfold respondOwn
  split_ifs with hcacheable hremember
  · have hread := sound_answerRender req (.reading .store res) h hrender hstage
      (fun plan res' hplan => by
        obtain ⟨rfl, rfl⟩ := Stage.reading.inj hplan
        exact ⟨rfl, fun _ => hcacheable, fun _ => rfl⟩) nofun rfl
    rw [← setStage_answered] at hread
    exact hread.withUncacheable
  · obtain ⟨uncacheable, heq⟩ := rememberUncacheable_eq options
      { w with renders := w.renders.modify m fun render =>
        { render with answered := some (req, res) } } key res now
    have hpass := sound_passOn req res h hrender hstage hkind hreading hfetching hentry
      (withoutCacheChannel res)
    rw [← setStage_answered] at hpass
    rw [heq]
    exact hpass.withUncacheable
  · have hpass := sound_passOn req res h hrender hstage hkind hreading hfetching hentry
      (withoutCacheChannel res)
    rw [← setStage_answered] at hpass
    exact hpass

theorem sound_respond {accepted : Bool} {now : ℚ} (h : Sound options w)
    (hrender : w.renders[m]? = some render) (hstage : render.stage = .fetching) :
    Sound options (w.respond options m render res accepted now) := by
  unfold respond
  simp only
  split
  · next hkind =>
    rw [setStage_answered]
    refine sound_passOn _ _ h hrender hstage ?_ ?_ ?_ rfl _
    · rw [hkind]
      exact nofun
    · exact nofun
    · exact nofun
  · next key remember hkind =>
    refine sound_respondOwn h hrender hstage ?_ ?_ ?_ rfl
    · rw [hkind]
      exact nofun
    · exact nofun
    · exact nofun
  · next key hkind =>
    refine sound_respondOwn h hrender hstage ?_ ?_ ?_ rfl
    · rw [hkind]
      exact nofun
    · exact nofun
    · exact nofun
  · next key hkind =>
    rw [setStage_answered]
    refine sound_answerRender _ _ h hrender hstage (fun plan res' hreading => ?_) nofun rfl
    obtain ⟨hplan, hres⟩ := Stage.reading.inj hreading
    refine ⟨hres.symm, fun hstore => ?_, fun hnot => absurd hkind (hnot key)⟩
    by_contra hcacheable
    rw [if_neg hcacheable, hstore] at hplan
    split_ifs at hplan

theorem sound_fail (h : Sound options w) (hrender : w.renders[m]? = some render)
    (hends : ∀ entry, render.stage ≠ .concluded entry) : Sound options (w.fail m render) := by
  have hfailed (stage : Stage B) (hkind : ∀ key, render.kind ≠ .background key)
      (hfetching : stage ≠ .fetching) (hreading : ∀ plan res, stage ≠ .reading plan res)
      (hentry : stage.entry = none) :
      Sound options ((w.setStage m stage).setPhase render.visit .failed) := by
    obtain ⟨visit, hvisit, -⟩ := h.response hrender hkind
    refine (h.setStage stage hrender hends hfetching hreading fun entry hsome => ?_).setPhase hvisit
      trivial
    rw [hentry] at hsome
    cases hsome
  unfold fail
  split
  · next key hkind => exact sound_doneRegenerating h hrender hkind hends
  · next key hkind => exact hfailed _ (by rw [hkind]; exact nofun) nofun nofun rfl
  · next hnot hkind =>
    exact hfailed _ (fun key hbackground => hnot key hbackground) nofun nofun rfl

theorem sound_text {plan : Plan} {now : ℚ} (h : Sound options w)
    (hrender : w.renders[m]? = some render) (hstage : render.stage = .reading plan res) :
    Sound options (w.text options m render plan res now) := by
  obtain ⟨req, hanswered, hcacheable, hown⟩ := (h.renders m render hrender).reading plan res hstage
  have hends (entry : Option (Entry B)) : render.stage ≠ .concluded entry := by
    rw [hstage]
    exact nofun
  have hwrite (key : JSString) (hplan : plan = .store) :
      Sound options (w.write m key (entryOf options m render.fence res now)) :=
    sound_write h hrender hends rfl
      ⟨render, req, res, hrender, hanswered, hcacheable hplan, rfl, rfl⟩
  unfold text
  simp only
  split
  · next key remember hkind => exact hwrite key (hown (by rw [hkind]; exact nofun))
  · next key hkind => exact hwrite key (hown (by rw [hkind]; exact nofun))
  · next key hkind => exact hwrite key rfl
  · next key hkind => exact (sound_purgePath h).setStage _ hrender hends nofun nofun nofun
  · next key hkind => exact sound_doneRegenerating h hrender hkind hends
  · exact h

theorem sound_finish {entry : Option (Entry B)} (h : Sound options w)
    (hrender : w.renders[m]? = some render) (hstage : render.stage = .writing entry) :
    Sound options (w.finish m render entry) := by
  have hok := h.renders m render hrender
  have hends (entry : Option (Entry B)) : render.stage ≠ .concluded entry := by
    rw [hstage]
    exact nofun
  have hpage (stage : Stage B) (page : Entry B) (hentry : entry = some page)
      (hkind : ∀ key, render.kind ≠ .background key) (hfetching : stage ≠ .fetching)
      (hreading : ∀ plan res, stage ≠ .reading plan res) (hsame : stage.entry = some page) :
      Sound options ((w.setStage m stage).setPhase render.visit (.answered (.page page .miss))) := by
    obtain ⟨hm, hfrom⟩ := hok.entry page (by rw [hstage]; exact hentry)
    obtain ⟨visit, hvisit, hsince⟩ := h.response hrender hkind
    have hnext := h.setStage stage hrender hends hfetching hreading fun entry' hsome => by
      obtain rfl := Option.some.inj (hsame.symm.trans hsome)
      exact ⟨hm, hfrom⟩
    have hext : Extends w (w.setStage m stage) := extends_setRender hrender rfl rfl fun _ h => h
    refine hnext.setPhase hvisit ⟨hfrom.mono hext, fun key hkey => ?_⟩
    rw [hm]
    have hbegan : BeganAfter w visit.since key page.tagList m :=
      ⟨render, hrender, fun i purge _ hi _ => hi.trans_le hsince⟩
    exact hbegan.mono hext (h.visits _ visit hvisit).since
  unfold finish
  split
  · next key remember page hkind =>
    exact hpage _ page rfl (by rw [hkind]; exact nofun) nofun nofun rfl
  · next key page hkind => exact hpage _ page rfl (by rw [hkind]; exact nofun) nofun nofun rfl
  · next key hkind => exact sound_doneRegenerating h hrender hkind hends
  · exact h

theorem sound_conclude {entry : Option (Entry B)} (h : Sound options w)
    (hrender : w.renders[m]? = some render) (hstage : render.stage = .settled entry) :
    Sound options (w.conclude m key entry) := by
  have hcold : Sound options { w with coldRenders := w.coldRenders.delete key } := by
    refine h.withCold fun key' m' hm' => ?_
    rw [InsertionMap.get_delete] at hm'
    split_ifs at hm'
    exact h.cold key' m' hm'
  refine hcold.setStage _ hrender (by rw [hstage]; rintro _ ⟨⟩) (by rintro ⟨⟩) (by rintro _ _ ⟨⟩)
    fun page hpage => ?_
  obtain ⟨hm, hfrom⟩ := (hcold.renders m render hrender).entry page (by rw [hstage]; exact hpage)
  exact ⟨hm, hfrom⟩

/-- No request takes the page of a cold render that began before a purge that touches the page and was
complete when the request came. -/
def Meets (w : Wrapper B) : Action B → Prop
  | .wake n => ∀ visit key m render entry, w.visits[n]? = some visit →
      visit.phase = .waiting key m → w.renders[m]? = some render →
      render.stage = .concluded (some entry) →
      ∀ (i : ℕ) (purge : Purge), w.purges[i]? = some purge → i < visit.since →
        purge.touches key entry.tagList → i < render.fence
  | _ => True

theorem sound_wake {entry : Option (Entry B)} (h : Sound options w)
    (hvisit : w.visits[n]? = some visit) (hphase : visit.phase = .waiting key m)
    (hrender : w.renders[m]? = some render) (hstage : render.stage = .concluded entry)
    (hmeets : Meets w (.wake n)) : Sound options (w.wake n visit.req key entry) := by
  have hok := (h.visits n visit hvisit).phase
  rw [hphase] at hok
  obtain ⟨hkey, -⟩ := hok
  unfold wake
  cases entry with
  | none => exact sound_render h hvisit nofun
  | some page =>
    obtain ⟨hm, hfrom⟩ := (h.renders m render hrender).entry page (by rw [hstage]; rfl)
    refine h.setPhase hvisit ⟨hfrom, fun key' hkey' => ?_⟩
    obtain rfl := Option.some.inj (hkey.symm.trans hkey')
    rw [hm]
    exact ⟨render, hrender, hmeets visit key m render page hvisit hphase hrender hstage⟩

theorem sound_arrive {req : Request} (h : Sound options w) :
    Sound options { w with visits := w.visits ++ [⟨req, w.purges.length, .arrived⟩] } := by
  have hext : Extends w { w with visits := w.visits ++ [⟨req, w.purges.length, .arrived⟩] } :=
    ⟨List.prefix_refl _, fun _ visit hvisit => ⟨visit, getElem?_append_of_some hvisit, rfl⟩,
      Extends.refl.renders⟩
  refine h.updates ⟨hext, h.store, ?_, ?_, fun m render hrender => Or.inl hrender,
    fun key m hm => Or.inl hm, h.marked, h.single⟩
  · exact fun key row hrow => Or.inl ⟨key, row, hrow, rfl⟩
  · intro n visit hvisit
    rcases getElem?_concat_cases hvisit with hold | ⟨-, rfl⟩
    · exact Or.inl hold
    · exact Or.inr ⟨le_rfl, trivial⟩

theorem sound_step (h : Sound options w) (hmeets : Meets w action)
    (hstep : w.step options action = some t) : Sound options t := by
  cases action with
  | arrive req =>
    obtain rfl := Option.some.inj hstep
    exact sound_arrive h
  | enter n draft now =>
    obtain ⟨visit, hvisit, hstep⟩ := Option.bind_eq_some_iff.mp hstep
    split at hstep
    · obtain rfl := Option.some.inj hstep
      exact sound_enter h hvisit
    · cases hstep
  | resume n now =>
    obtain ⟨visit, hvisit, hstep⟩ := Option.bind_eq_some_iff.mp hstep
    split at hstep
    · next key read hphase =>
      obtain rfl := Option.some.inj hstep
      exact sound_resume h hvisit hphase
    · cases hstep
  | respond m res accepted now =>
    obtain ⟨render, hrender, hstep⟩ := Option.bind_eq_some_iff.mp hstep
    split at hstep
    · next hstage =>
      obtain rfl := Option.some.inj hstep
      exact sound_respond h hrender hstage
    · cases hstep
  | fail m =>
    obtain ⟨render, hrender, hstep⟩ := Option.bind_eq_some_iff.mp hstep
    split at hstep
    · next hstage =>
      obtain rfl := Option.some.inj hstep
      exact sound_fail h hrender (by rw [hstage]; exact nofun)
    · next plan res hstage =>
      obtain rfl := Option.some.inj hstep
      exact sound_fail h hrender (by rw [hstage]; exact nofun)
    · cases hstep
  | text m now =>
    obtain ⟨render, hrender, hstep⟩ := Option.bind_eq_some_iff.mp hstep
    split at hstep
    · next plan res hstage =>
      obtain rfl := Option.some.inj hstep
      exact sound_text h hrender hstage
    · cases hstep
  | finish m =>
    obtain ⟨render, hrender, hstep⟩ := Option.bind_eq_some_iff.mp hstep
    split at hstep
    · next entry hstage =>
      obtain rfl := Option.some.inj hstep
      exact sound_finish h hrender hstage
    · cases hstep
  | conclude m =>
    obtain ⟨render, hrender, hstep⟩ := Option.bind_eq_some_iff.mp hstep
    split at hstep
    · next key entry hkind hstage =>
      obtain rfl := Option.some.inj hstep
      exact sound_conclude h hrender hstage
    · cases hstep
  | wake n =>
    obtain ⟨visit, hvisit, hstep⟩ := Option.bind_eq_some_iff.mp hstep
    split at hstep
    · next key m hphase =>
      obtain ⟨render, hrender, hstep⟩ := Option.bind_eq_some_iff.mp hstep
      split at hstep
      · next entry hstage =>
        obtain rfl := Option.some.inj hstep
        exact sound_wake h hvisit hphase hrender hstage hmeets
      · cases hstep
    · cases hstep
  | delete key =>
    obtain rfl := Option.some.inj hstep
    exact sound_purgePath h
  | invalidateTag tag uuid =>
    simp only [step] at hstep
    split at hstep
    · next store hstore =>
      obtain rfl := Option.some.inj hstep
      exact sound_purgeTag h hstore
    · cases hstep

theorem sound_create {max : ℕ} {store : MemoryCacheStore (Rendered B)}
    (hstore : MemoryCacheStore.create max = .ok store) : Sound options (create store) := by
  have hsound := MemoryCacheStore.sound_create hstore
  unfold MemoryCacheStore.create at hstore
  split_ifs at hstore
  obtain rfl := Except.ok.inj hstore
  constructor
  · exact hsound
  · intro key row hrow
    cases hrow
  · intro n visit hvisit
    cases hvisit
  · intro m render hrender
    cases hrender
  · intro key m hm
    cases hm
  · rintro m key ⟨render, hrender, -⟩
    cases hrender
  · rintro m m' key ⟨render, hrender, -⟩
    cases hrender

/-- Every page that a request gets could be cached and began after the purges that the request came
after, as does every other response, and no key has two regenerations. -/
structure Fresh (options : IsrOptions) (w : Wrapper B) : Prop where
  pages : ∀ (n : ℕ) (visit : Visit B) entry status, w.visits[n]? = some visit →
    visit.phase = .answered (.page entry status) → ∀ key, requestKey options visit.req = some key →
      BeganAfter w visit.since key entry.tagList entry.body.render
  responses : ∀ (n : ℕ) (visit : Visit B) m res, w.visits[n]? = some visit →
    visit.phase = .answered (.response m res) →
      ∃ render, w.renders[m]? = some render ∧ visit.since ≤ render.fence
  storable : ∀ (n : ℕ) (visit : Visit B) entry status, w.visits[n]? = some visit →
    visit.phase = .answered (.page entry status) → FromStorable options w entry
  single : ∀ m m' key, Regenerates w m key → Regenerates w m' key → m = m'

theorem Sound.fresh (h : Sound options w) : Fresh options w := by
  constructor
  · intro n visit entry status hvisit hphase key hkey
    have hok := (h.visits n visit hvisit).phase
    rw [hphase] at hok
    exact hok.2 key hkey
  · intro n visit m res hvisit hphase
    have hok := (h.visits n visit hvisit).phase
    rw [hphase] at hok
    exact hok
  · intro n visit entry status hvisit hphase
    have hok := (h.visits n visit hvisit).phase
    rw [hphase] at hok
    exact hok.1
  · exact h.single

def Lawful (options : IsrOptions) (w : Wrapper B) (action : Action B) : Prop :=
  ∀ t, w.step options action = some t → Fresh options t

theorem lawful_iff_meets (h : Sound options w) (action : Action B) :
    Lawful options w action ↔ Meets w action := by
  constructor
  · intro hlawful
    cases action with
    | wake n =>
      intro visit key m render page hvisit hphase hrender hstage
      have hok := (h.visits n visit hvisit).phase
      rw [hphase] at hok
      obtain ⟨hm, -⟩ := (h.renders m render hrender).entry page (by rw [hstage]; rfl)
      have hstep : w.step options (.wake n) = some (w.wake n visit.req key (some page)) := by
        simp only [step, hvisit, hphase, hrender, hstage, Option.bind_eq_bind, Option.bind_some]
      have hanswered : (w.wake n visit.req key (some page)).visits[n]? =
          some { visit with phase := .answered (.page page .miss) } := by
        refine (List.getElem?_modify ..).trans ?_
        rw [hvisit]
        simp
      obtain ⟨render', hrender', hbegan⟩ :=
        (hlawful _ hstep).pages n _ page .miss hanswered rfl key hok.1
      rw [hm] at hrender'
      obtain rfl := Option.some.inj (hrender'.symm.trans hrender)
      exact hbegan
    | _ => trivial
  · exact fun hmeets t hstep => (sound_step h hmeets hstep).fresh

/-- In every run of the wrapper each step leaves the answers fresh exactly when no request takes the
page of a cold render that began before a purge that touches it and that the request came after. -/
theorem answers_fresh_iff (options : IsrOptions) (max : ℕ) (store : MemoryCacheStore (Rendered B))
    (hstore : MemoryCacheStore.create max = .ok store) (actions : List (Action B)) :
    Runs.Along (step options) (Lawful options) (create store) actions ↔
      Runs.Along (step options) Meets (create store) actions :=
  Runs.along_congr (I := Sound options)
    (fun _ _ _ h hlawful hstep => sound_step h ((lawful_iff_meets h _).mp hlawful) hstep)
    (fun _ action h => lawful_iff_meets h action) (sound_create hstore) actions

def plainOptions : IsrOptions :=
  ⟨60, fun _ => none, false, fun req => some req.url, [], fun _ => false, fun _ => none⟩

/-- A page is rendered, purged, and rendered again for the next request. -/
theorem answers_fresh_plain :
    let req : Request := ⟨js "GET", js "/p", [], false⟩
    let res : Response ℕ := ⟨200, [(js "content-type", js "text/html")], 7⟩
    Runs.Along (step plainOptions) (Lawful plainOptions) (create ⟨∅, 10, ∅, 0, ∅, ∅, 0⟩)
      [.arrive req, .enter 0 false 0, .resume 0 0, .respond 0 res false 0, .text 0 0, .finish 0,
        .conclude 0, .delete (js "/p"), .arrive req, .enter 1 false 0, .resume 1 0] := by
  intro req res
  refine (answers_fresh_iff plainOptions 10 _ rfl _).mpr (Runs.along_of_forall ?_ _)
  simp [Meets]

def servedRender (visit : Visit B) : Option ℕ :=
  match visit.phase with
  | .answered (.page entry _) => some entry.body.render
  | _ => none

/-- A page is purged while its cold render is under way, and a request that comes after the purge
waits for this render and is answered its page. -/
theorem shared_after_purge :
    let req : Request := ⟨js "GET", js "/p", [], false⟩
    let res : Response ℕ := ⟨200, [(js "content-type", js "text/html")], 7⟩
    let actions : List (Action ℕ) :=
      [.arrive req, .enter 0 false 0, .resume 0 0, .delete (js "/p"), .arrive req, .enter 1 false 0,
        .resume 1 0, .respond 0 res false 0, .text 0 0, .finish 0, .conclude 0, .wake 1]
    ∃ t, Runs.run (step plainOptions) (create ⟨∅, 10, ∅, 0, ∅, ∅, 0⟩) actions = some t ∧
      ¬Fresh plainOptions t := by
  intro req res actions
  have hrun : (Runs.run (step plainOptions) (create ⟨∅, 10, ∅, 0, ∅, ∅, 0⟩) actions).map
      (fun t => (t.purges, t.renders.map Render.fence)) = some ([.path (js "/p")], [0]) := by
    decide +kernel
  have hvisits : (Runs.run (step plainOptions) (create ⟨∅, 10, ∅, 0, ∅, ∅, 0⟩) actions).map
      (fun t => t.visits.map fun visit => (visit.req, visit.since, servedRender visit)) =
      some [(req, 0, some 0), (req, 1, some 0)] := by
    decide +kernel
  obtain ⟨t, ht, hsummary⟩ := Option.map_eq_some_iff.mp hrun
  obtain ⟨hpurges, hfences⟩ := Prod.mk.inj hsummary
  rw [ht, Option.map_some] at hvisits
  refine ⟨t, ht, fun hfresh => ?_⟩
  have hsecond := congrArg (fun visits => visits[1]?) (Option.some.inj hvisits)
  rw [List.getElem?_map] at hsecond
  obtain ⟨visit, hvisit, hsummary⟩ := Option.map_eq_some_iff.mp hsecond
  obtain ⟨hreq, hsummary⟩ := Prod.mk.inj hsummary
  obtain ⟨hsince, hanswer⟩ := Prod.mk.inj hsummary
  unfold servedRender at hanswer
  split at hanswer
  · next entry status hphase =>
    have hkey : requestKey plainOptions visit.req = some (js "/p") := by
      rw [hreq]
      decide +kernel
    obtain ⟨render, hrender, hbegan⟩ := hfresh.pages 1 visit entry status hvisit hphase _ hkey
    rw [Option.some.inj hanswer] at hrender
    have hlt := hbegan 0 (.path (js "/p")) (by rw [hpurges]; rfl) (by rw [hsince]; decide) rfl
    have hfence := congrArg (fun fences => fences[0]?) hfences
    rw [List.getElem?_map, hrender] at hfence
    have hzero : render.fence = 0 := Option.some.inj hfence
    exact absurd hlt (by rw [hzero]; decide)
  · cases hanswer

end Wrapper

end Nifra.Isr
