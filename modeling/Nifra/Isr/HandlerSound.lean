import Nifra.Isr.Handler
import Nifra.Isr.MemoryCacheSafety
import Nifra.Lib.Runs

/-! # Where a page comes from

Every page that the store holds or a request reads goes back to a render whose response could be
cached, and a request reads no page of a render that is older than a purge the request came after. The
steps of a wrapper only extend what it knows of its requests, renders and purges.
-/

namespace Nifra.Isr

def Stage.entry {B : Type} : Stage B → Option (Entry B)
  | .writing entry => entry
  | .settled entry => entry
  | .concluded entry => entry
  | _ => none

namespace Wrapper
variable {B : Type} {options : IsrOptions} {w t u : Wrapper B} {n m since : ℕ}
  {key : JSString} {tags : List JSString} {entry : Entry B} {visit : Visit B} {render : Render B}

/-- The render began after every purge that touches the key or the tags and was complete when the
request came. -/
def BeganAfter (w : Wrapper B) (since : ℕ) (key : JSString) (tags : List JSString) (m : ℕ) : Prop :=
  ∃ render, w.renders[m]? = some render ∧
    ∀ (i : ℕ) (purge : Purge), w.purges[i]? = some purge → i < since → purge.touches key tags →
      i < render.fence

def FromStorable (options : IsrOptions) (w : Wrapper B) (entry : Entry B) : Prop :=
  ∃ render req res, w.renders[entry.body.render]? = some render ∧
    render.answered = some (req, res) ∧ cacheableResponse options req res = true ∧
    entry.body.body = res.body ∧ entry.fence = some render.fence

def PhaseOk (options : IsrOptions) (w : Wrapper B) (req : Request) (since : ℕ) :
    VisitPhase B → Prop
  | .reading key read => requestKey options req = some key ∧ ∀ hit, read = some hit →
      FromStorable options w hit ∧ BeganAfter w since key hit.tagList hit.body.render
  | .waiting key m => requestKey options req = some key ∧
      ∃ render, w.renders[m]? = some render ∧ render.kind = .cold key
  | .answered (.page entry _) => FromStorable options w entry ∧
      ∀ key, requestKey options req = some key →
        BeganAfter w since key entry.tagList entry.body.render
  | .answered (.response m _) => ∃ render, w.renders[m]? = some render ∧ since ≤ render.fence
  | _ => True

structure VisitOk (options : IsrOptions) (w : Wrapper B) (visit : Visit B) : Prop where
  since : visit.since ≤ w.purges.length
  phase : PhaseOk options w visit.req visit.since visit.phase

structure RenderOk (options : IsrOptions) (w : Wrapper B) (m : ℕ) (render : Render B) : Prop where
  fence : render.fence ≤ w.purges.length
  visit : (∀ key, render.kind ≠ .background key) →
    ∃ visit, w.visits[render.visit]? = some visit ∧ visit.since ≤ render.fence
  fetching : render.stage = .fetching → render.answered = none
  reading : ∀ plan res, render.stage = .reading plan res → ∃ req,
    render.answered = some (req, res) ∧
      (plan = .store → cacheableResponse options req res = true) ∧
      ((∀ key, render.kind ≠ .background key) → plan = .store)
  entry : ∀ entry, render.stage.entry = some entry → entry.body.render = m ∧ FromStorable options w entry

def Regenerates (w : Wrapper B) (m : ℕ) (key : JSString) : Prop :=
  ∃ render, w.renders[m]? = some render ∧ render.kind = .background key ∧
    ∀ entry, render.stage ≠ .concluded entry

structure Sound (options : IsrOptions) (w : Wrapper B) : Prop where
  store : w.store.Sound w.purges
  rows : ∀ key row, w.store.cache.get key = some row → FromStorable options w row.value
  visits : ∀ (n : ℕ) (visit : Visit B), w.visits[n]? = some visit → VisitOk options w visit
  renders : ∀ (m : ℕ) (render : Render B), w.renders[m]? = some render → RenderOk options w m render
  cold : ∀ key m, w.coldRenders.get key = some m →
    ∃ render, w.renders[m]? = some render ∧ render.kind = .cold key
  marked : ∀ m key, Regenerates w m key → key ∈ w.regenerating
  single : ∀ m m' key, Regenerates w m key → Regenerates w m' key → m = m'

/-- Requests, renders and purges stay what they were; a render may be answered. -/
structure Extends (w t : Wrapper B) : Prop where
  purges : w.purges <+: t.purges
  visits : ∀ (n : ℕ) (visit : Visit B), w.visits[n]? = some visit →
    ∃ visit', t.visits[n]? = some visit' ∧ visit'.since = visit.since
  renders : ∀ (m : ℕ) (render : Render B), w.renders[m]? = some render →
    ∃ render', t.renders[m]? = some render' ∧ render'.kind = render.kind ∧
      render'.fence = render.fence ∧
      ∀ answered, render.answered = some answered → render'.answered = some answered

theorem Extends.refl : Extends w w :=
  ⟨List.prefix_refl _, fun _ visit h => ⟨visit, h, rfl⟩,
    fun _ render h => ⟨render, h, rfl, rfl, fun _ h => h⟩⟩

theorem Extends.length (h : Extends w t) : w.purges.length ≤ t.purges.length :=
  h.purges.length_le

theorem BeganAfter.mono (h : BeganAfter w since key tags m) (hext : Extends w t)
    (hsince : since ≤ w.purges.length) : BeganAfter t since key tags m := by
  obtain ⟨render, hrender, hbegan⟩ := h
  obtain ⟨render', hrender', -, hfence, -⟩ := hext.renders m render hrender
  refine ⟨render', hrender', fun i purge hpurge hi htouches => ?_⟩
  rw [hfence]
  refine hbegan i purge ?_ hi htouches
  have hlt : i < w.purges.length := hi.trans_le hsince
  obtain ⟨more, hmore⟩ := hext.purges
  rw [← hmore, List.getElem?_append_left hlt] at hpurge
  exact hpurge

theorem FromStorable.mono (h : FromStorable options w entry) (hext : Extends w t) :
    FromStorable options t entry := by
  obtain ⟨render, req, res, hrender, hanswered, hcacheable, hbody, hfence⟩ := h
  obtain ⟨render', hrender', -, hfence', hanswered'⟩ := hext.renders _ render hrender
  exact ⟨render', req, res, hrender', hanswered' _ hanswered, hcacheable, hbody,
    hfence.trans (congrArg some hfence'.symm)⟩

theorem PhaseOk.mono {req : Request} {phase : VisitPhase B}
    (h : PhaseOk options w req since phase) (hext : Extends w t) (hsince : since ≤ w.purges.length) :
    PhaseOk options t req since phase := by
  cases phase with
  | arrived => trivial
  | rendering => trivial
  | failed => trivial
  | reading key read =>
    refine ⟨h.1, fun hit hhit => ?_⟩
    obtain ⟨hfrom, hbegan⟩ := h.2 hit hhit
    exact ⟨hfrom.mono hext, hbegan.mono hext hsince⟩
  | waiting key m =>
    obtain ⟨hkey, render, hrender, hkind⟩ := h
    obtain ⟨render', hrender', hkind', -⟩ := hext.renders m render hrender
    exact ⟨hkey, render', hrender', hkind'.trans hkind⟩
  | answered answer =>
    cases answer with
    | page entry status =>
      exact ⟨h.1.mono hext, fun key hkey => (h.2 key hkey).mono hext hsince⟩
    | response m res =>
      obtain ⟨render, hrender, hfence⟩ := h
      obtain ⟨render', hrender', -, hfence', -⟩ := hext.renders m render hrender
      exact ⟨render', hrender', hfence.trans hfence'.ge⟩

theorem VisitOk.mono (h : VisitOk options w visit) (hext : Extends w t) :
    VisitOk options t visit :=
  ⟨h.since.trans hext.length, h.phase.mono hext h.since⟩

theorem RenderOk.mono (h : RenderOk options w m render) (hext : Extends w t) :
    RenderOk options t m render := by
  constructor
  · exact h.fence.trans hext.length
  · intro hkind
    obtain ⟨visit, hvisit, hsince⟩ := h.visit hkind
    obtain ⟨visit', hvisit', hsince'⟩ := hext.visits _ visit hvisit
    exact ⟨visit', hvisit', hsince'.le.trans hsince⟩
  · exact h.fetching
  · exact h.reading
  · intro entry hentry
    obtain ⟨hm, hfrom⟩ := h.entry entry hentry
    exact ⟨hm, hfrom.mono hext⟩

structure Updates (options : IsrOptions) (w t : Wrapper B) : Prop where
  extend : Extends w t
  store : t.store.Sound t.purges
  rows : ∀ key row, t.store.cache.get key = some row →
    (∃ key' row', w.store.cache.get key' = some row' ∧ row'.value = row.value) ∨
      FromStorable options t row.value
  visits : ∀ (n : ℕ) (visit : Visit B), t.visits[n]? = some visit →
    w.visits[n]? = some visit ∨ VisitOk options t visit
  renders : ∀ (m : ℕ) (render : Render B), t.renders[m]? = some render →
    w.renders[m]? = some render ∨ RenderOk options t m render
  cold : ∀ key m, t.coldRenders.get key = some m → w.coldRenders.get key = some m ∨
    ∃ render, t.renders[m]? = some render ∧ render.kind = .cold key
  marked : ∀ m key, Regenerates t m key → key ∈ t.regenerating
  single : ∀ m m' key, Regenerates t m key → Regenerates t m' key → m = m'

theorem Sound.updates (h : Sound options w) (hupdates : Updates options w t) : Sound options t := by
  have hext := hupdates.extend
  constructor
  · exact hupdates.store
  · intro key row hrow
    rcases hupdates.rows key row hrow with ⟨key', row', hrow', hvalue⟩ | hnew
    · rw [← hvalue]
      exact (h.rows key' row' hrow').mono hext
    · exact hnew
  · intro n visit hvisit
    rcases hupdates.visits n visit hvisit with hold | hnew
    · exact (h.visits n visit hold).mono hext
    · exact hnew
  · intro m render hrender
    rcases hupdates.renders m render hrender with hold | hnew
    · exact (h.renders m render hold).mono hext
    · exact hnew
  · intro key m hm
    rcases hupdates.cold key m hm with hold | hnew
    · obtain ⟨render, hrender, hkind⟩ := h.cold key m hold
      obtain ⟨render', hrender', hkind', -⟩ := hext.renders m render hrender
      exact ⟨render', hrender', hkind'.trans hkind⟩
    · exact hnew
  · exact hupdates.marked
  · exact hupdates.single

theorem getElem?_modify_cases {α : Type} {l : List α} {i j : ℕ} {f : α → α} {x : α}
    (h : (l.modify i f)[j]? = some x) :
    (j = i ∧ ∃ y, l[i]? = some y ∧ x = f y) ∨ (j ≠ i ∧ l[j]? = some x) := by
  rw [List.getElem?_modify] at h
  obtain ⟨y, hy, hx⟩ := Option.map_eq_some_iff.mp h
  split_ifs at hx with hj
  · subst hj
    exact Or.inl ⟨rfl, y, hy, hx.symm⟩
  · exact Or.inr ⟨Ne.symm hj, hx ▸ hy⟩

theorem extends_setPhase {phase : VisitPhase B} : Extends w (w.setPhase n phase) := by
  constructor
  · exact List.prefix_refl _
  · intro n' visit hvisit
    have hget : (w.setPhase n phase).visits[n']? =
        some (if n = n' then { visit with phase := phase } else visit) :=
      (List.getElem?_modify ..).trans (by rw [hvisit]; rfl)
    refine ⟨_, hget, ?_⟩
    split_ifs <;> rfl
  · exact fun _ render hrender => ⟨render, hrender, rfl, rfl, fun _ h => h⟩

theorem Sound.setPhase {phase : VisitPhase B} (h : Sound options w)
    (hvisit : w.visits[n]? = some visit) (hphase : PhaseOk options w visit.req visit.since phase) :
    Sound options (w.setPhase n phase) := by
  have hext : Extends w (w.setPhase n phase) := extends_setPhase
  refine h.updates ⟨hext, h.store, ?_, ?_, fun m render hrender => Or.inl hrender,
    fun key m hm => Or.inl hm, h.marked, h.single⟩
  · exact fun key row hrow => Or.inl ⟨key, row, hrow, rfl⟩
  · intro n' visit' hvisit'
    rcases getElem?_modify_cases hvisit' with ⟨rfl, old, hold, rfl⟩ | ⟨-, hold⟩
    · right
      obtain rfl := Option.some.inj (hvisit.symm.trans hold)
      have hsince := (h.visits _ _ hvisit).since
      exact ⟨hsince, hphase.mono hext hsince⟩
    · exact Or.inl hold

theorem extends_setRender {f : Render B → Render B} (hrender : w.renders[m]? = some render)
    (hkind : (f render).kind = render.kind) (hfence : (f render).fence = render.fence)
    (hanswered : ∀ answered, render.answered = some answered →
      (f render).answered = some answered) :
    Extends w { w with renders := w.renders.modify m f } := by
  constructor
  · exact List.prefix_refl _
  · exact fun _ visit hvisit => ⟨visit, hvisit, rfl⟩
  · intro m' other hother
    have hget : (w.renders.modify m f)[m']? = some (if m = m' then f other else other) := by
      rw [List.getElem?_modify, hother]
      rfl
    refine ⟨_, hget, ?_⟩
    split_ifs with hm
    · subst hm
      obtain rfl := Option.some.inj (hrender.symm.trans hother)
      exact ⟨hkind, hfence, hanswered⟩
    · exact ⟨rfl, rfl, fun _ h => h⟩

theorem Sound.setRender {f : Render B → Render B} (h : Sound options w)
    (hrender : w.renders[m]? = some render)
    (hkind : (f render).kind = render.kind) (hfence : (f render).fence = render.fence)
    (hanswered : ∀ answered, render.answered = some answered →
      (f render).answered = some answered)
    (hends : ∀ entry, render.stage = .concluded entry → ∃ entry', (f render).stage = .concluded entry')
    (hok : RenderOk options { w with renders := w.renders.modify m f } m (f render)) :
    Sound options { w with renders := w.renders.modify m f } := by
  have hregenerates {m' : ℕ} {key : JSString}
      (hregen : Regenerates { w with renders := w.renders.modify m f } m' key) :
      Regenerates w m' key := by
    obtain ⟨other, hother, hbackground, hrunning⟩ := hregen
    rcases getElem?_modify_cases hother with ⟨rfl, old, hold, rfl⟩ | ⟨-, hold⟩
    · obtain rfl := Option.some.inj (hrender.symm.trans hold)
      refine ⟨render, hrender, hkind.symm.trans hbackground, fun entry hstage => ?_⟩
      obtain ⟨entry', hstage'⟩ := hends entry hstage
      exact hrunning entry' hstage'
    · exact ⟨other, hold, hbackground, hrunning⟩
  refine h.updates ⟨extends_setRender hrender hkind hfence hanswered, h.store, ?_,
    fun n visit hvisit => Or.inl hvisit, ?_, fun key m hm => Or.inl hm, ?_, ?_⟩
  · exact fun key row hrow => Or.inl ⟨key, row, hrow, rfl⟩
  · intro m' other hother
    rcases getElem?_modify_cases hother with ⟨rfl, old, hold, rfl⟩ | ⟨-, hold⟩
    · obtain rfl := Option.some.inj (hrender.symm.trans hold)
      exact Or.inr hok
    · exact Or.inl hold
  · exact fun m' key hregen => h.marked m' key (hregenerates hregen)
  · exact fun m' m'' key hregen hregen' =>
      h.single m' m'' key (hregenerates hregen) (hregenerates hregen')

theorem getElem?_concat_cases {α : Type} {l : List α} {i : ℕ} {x y : α}
    (h : (l ++ [x])[i]? = some y) : l[i]? = some y ∨ (i = l.length ∧ y = x) := by
  rw [List.getElem?_append] at h
  split_ifs at h with hlt
  · exact Or.inl h
  · rw [List.getElem?_singleton] at h
    split_ifs at h with hzero
    exact Or.inr ⟨by omega, (Option.some.inj h).symm⟩

theorem getElem?_append_of_some {α : Type} {l l' : List α} {i : ℕ} {x : α} (h : l[i]? = some x) :
    (l ++ l')[i]? = some x :=
  (List.getElem?_append_left (List.getElem?_eq_some_iff.mp h).1).trans h

theorem extends_start {req : Request} {kind : Kind} : Extends w (w.start n req kind) :=
  ⟨List.prefix_refl _, fun _ visit hvisit => ⟨visit, hvisit, rfl⟩,
    fun _ render hrender => ⟨render, getElem?_append_of_some hrender, rfl, rfl, fun _ h => h⟩⟩

theorem getElem?_start {req : Request} {kind : Kind} :
    (w.start n req kind).renders[w.renders.length]? =
      some ⟨n, req, kind, w.store.fence, none, .fetching⟩ :=
  List.getElem?_concat_length

theorem renderOk_start (req : Request) (kind : Kind) (h : Sound options w)
    (hvisit : w.visits[n]? = some visit) :
    RenderOk options (w.start n req kind) w.renders.length
      ⟨n, req, kind, w.store.fence, none, .fetching⟩ := by
  constructor
  · exact h.store.order.le
  · exact fun _ => ⟨visit, hvisit, (h.visits n visit hvisit).since.trans h.store.order.ge⟩
  · exact fun _ => rfl
  · exact nofun
  · exact nofun

theorem sound_start {req : Request} {kind : Kind} (h : Sound options w)
    (hvisit : w.visits[n]? = some visit) (hkind : ∀ key, kind ≠ .background key) :
    Sound options (w.start n req kind) := by
  have hregenerates {m : ℕ} {key : JSString} (hregen : Regenerates (w.start n req kind) m key) :
      Regenerates w m key := by
    obtain ⟨render, hrender, hbackground, hrunning⟩ := hregen
    rcases getElem?_concat_cases hrender with hold | ⟨-, rfl⟩
    · exact ⟨render, hold, hbackground, hrunning⟩
    · exact absurd hbackground (hkind key)
  refine h.updates ⟨extends_start, h.store, ?_, fun n visit hvisit => Or.inl hvisit, ?_,
    fun key m hm => Or.inl hm, ?_, ?_⟩
  · exact fun key row hrow => Or.inl ⟨key, row, hrow, rfl⟩
  · intro m render hrender
    rcases getElem?_concat_cases hrender with hold | ⟨rfl, rfl⟩
    · exact Or.inl hold
    · exact Or.inr (renderOk_start _ _ h hvisit)
  · exact fun m key hregen => h.marked m key (hregenerates hregen)
  · exact fun m m' key hregen hregen' =>
      h.single m m' key (hregenerates hregen) (hregenerates hregen')

theorem sound_regenerate (req : Request) (key : JSString) (h : Sound options w) (hvisit : w.visits[n]? = some visit) :
    Sound options (w.regenerate n req key) := by
  unfold regenerate
  split_ifs with hmem
  · exact h
  · have hregenerates {m : ℕ} {key' : JSString} (hregen : Regenerates
        ({ w with regenerating := key :: w.regenerating }.start n req (.background key)) m key') :
        (m = w.renders.length ∧ key' = key) ∨ Regenerates w m key' := by
      obtain ⟨render, hrender, hbackground, hrunning⟩ := hregen
      rcases getElem?_concat_cases hrender with hold | ⟨hm, rfl⟩
      · exact Or.inr ⟨render, hold, hbackground, hrunning⟩
      · exact Or.inl ⟨hm, (Kind.background.inj hbackground).symm⟩
    have hext : Extends w (w.start n req (.background key)) := extends_start
    refine h.updates ⟨⟨hext.purges, hext.visits, hext.renders⟩, h.store,
      ?_, fun n visit hvisit => Or.inl hvisit, ?_, fun key m hm => Or.inl hm, ?_, ?_⟩
    · exact fun key row hrow => Or.inl ⟨key, row, hrow, rfl⟩
    · intro m render hrender
      rcases getElem?_concat_cases hrender with hold | ⟨rfl, rfl⟩
      · exact Or.inl hold
      · right
        have hok := renderOk_start req (.background key) h hvisit
        exact ⟨hok.fence, hok.visit, hok.fetching, hok.reading, nofun⟩
    · intro m key' hregen
      rcases hregenerates hregen with ⟨-, rfl⟩ | hold
      · exact List.mem_cons_self
      · exact List.mem_cons_of_mem _ (h.marked m key' hold)
    · intro m m' key' hregen hregen'
      rcases hregenerates hregen with ⟨rfl, rfl⟩ | hold <;>
        rcases hregenerates hregen' with ⟨rfl, hkey⟩ | hold'
      · rfl
      · exact absurd (h.marked m' _ hold') hmem
      · exact absurd (h.marked m _ hold) (hkey ▸ hmem)
      · exact h.single m m' key' hold hold'

theorem Sound.setStage (stage : Stage B) (h : Sound options w)
    (hrender : w.renders[m]? = some render) (hends : ∀ entry, render.stage ≠ .concluded entry)
    (hfetching : stage ≠ .fetching) (hreading : ∀ plan res, stage ≠ .reading plan res)
    (hentry : ∀ entry, stage.entry = some entry → entry.body.render = m ∧
      FromStorable options w entry) : Sound options (w.setStage m stage) := by
  have hext := extends_setRender (f := fun render => { render with stage := stage }) hrender rfl rfl
    fun _ h => h
  have hold := (h.renders m render hrender).mono hext
  refine h.setRender hrender rfl rfl (fun _ h => h) (fun entry hstage => absurd hstage (hends entry)) ?_
  constructor
  · exact hold.fence
  · exact hold.visit
  · exact fun hstage => absurd hstage hfetching
  · exact fun plan res hstage => absurd hstage (hreading plan res)
  · intro entry hstage
    obtain ⟨hm, hfrom⟩ := hentry entry hstage
    exact ⟨hm, hfrom.mono hext⟩

theorem Sound.withUncacheable {uncacheable : InsertionMap JSString ℚ} (h : Sound options w) :
    Sound options { w with uncacheable := uncacheable } := by
  refine h.updates ⟨⟨List.prefix_refl _, Extends.refl.visits, Extends.refl.renders⟩, h.store, ?_,
    fun n visit hvisit => Or.inl hvisit, fun m render hrender => Or.inl hrender,
    fun key m hm => Or.inl hm, h.marked, h.single⟩
  exact fun key row hrow => Or.inl ⟨key, row, hrow, rfl⟩

theorem Sound.withCold {coldRenders : InsertionMap JSString ℕ} (h : Sound options w)
    (hcold : ∀ key m, coldRenders.get key = some m →
      ∃ render, w.renders[m]? = some render ∧ render.kind = .cold key) :
    Sound options { w with coldRenders := coldRenders } := by
  refine h.updates ⟨⟨List.prefix_refl _, Extends.refl.visits, Extends.refl.renders⟩, h.store, ?_,
    fun n visit hvisit => Or.inl hvisit, fun m render hrender => Or.inl hrender,
    fun key m hm => Or.inr (hcold key m hm), h.marked, h.single⟩
  exact fun key row hrow => Or.inl ⟨key, row, hrow, rfl⟩

theorem sound_doneRegenerating (h : Sound options w) (hrender : w.renders[m]? = some render)
    (hkind : render.kind = .background key) (hends : ∀ entry, render.stage ≠ .concluded entry) :
    Sound options ((w.setStage m (.concluded none)).doneRegenerating key) := by
  have hstage := h.setStage (.concluded none) hrender hends nofun nofun nofun
  have hregenerates {m' : ℕ} {key' : JSString} (hregen :
      Regenerates ((w.setStage m (.concluded none)).doneRegenerating key) m' key') :
      m' ≠ m ∧ Regenerates w m' key' := by
    obtain ⟨other, hother, hbackground, hrunning⟩ := hregen
    rcases getElem?_modify_cases hother with ⟨rfl, old, hold, rfl⟩ | ⟨hne, hold⟩
    · exact absurd rfl (hrunning none)
    · exact ⟨hne, other, hold, hbackground, hrunning⟩
  refine hstage.updates ⟨⟨List.prefix_refl _, Extends.refl.visits, Extends.refl.renders⟩, h.store, ?_,
    fun n visit hvisit => Or.inl hvisit, fun m render hrender => Or.inl hrender,
    fun key m hm => Or.inl hm, ?_, ?_⟩
  · exact fun key row hrow => Or.inl ⟨key, row, hrow, rfl⟩
  · intro m' key' hregen
    obtain ⟨hne, hregen⟩ := hregenerates hregen
    refine List.mem_filter.mpr ⟨h.marked m' key' hregen, decide_eq_true fun hkey => hne ?_⟩
    exact h.single m' m key (hkey ▸ hregen) ⟨render, hrender, hkind, hends⟩
  · exact fun m' m'' key' hregen hregen' =>
      h.single m' m'' key' (hregenerates hregen).2 (hregenerates hregen').2

theorem Sound.withStore {store : MemoryCacheStore (Rendered B)} {purges : List Purge}
    (h : Sound options w) (hpurges : w.purges <+: purges) (hstore : store.Sound purges)
    (hrows : ∀ key row, store.cache.get key = some row →
      (∃ key' row', w.store.cache.get key' = some row' ∧ row'.value = row.value) ∨
        FromStorable options w row.value) :
    Sound options { w with
      store := store,
      purges := purges } := by
  have hext : Extends w { w with
      store := store,
      purges := purges } :=
    ⟨hpurges, Extends.refl.visits, Extends.refl.renders⟩
  refine h.updates ⟨hext, hstore, ?_, fun n visit hvisit => Or.inl hvisit,
    fun m render hrender => Or.inl hrender, fun key m hm => Or.inl hm, h.marked, h.single⟩
  exact fun key row hrow => (hrows key row hrow).imp_right fun hfrom => hfrom.mono hext

theorem sound_readStore (h : Sound options w) (hvisit : w.visits[n]? = some visit)
    (hkey : requestKey options visit.req = some key) : Sound options (w.readStore n key) := by
  have hget : Sound options { w with store := (w.store.get key).1 } := by
    refine h.withStore (List.prefix_refl _) (MemoryCacheStore.sound_get h.store) ?_
    exact fun key' row hrow => Or.inl ⟨key', row, MemoryCacheStore.row_of_get h.store hrow, rfl⟩
  refine hget.setPhase hvisit ⟨hkey, fun hit hhit => ?_⟩
  obtain ⟨row, hrow, rfl⟩ := (MemoryCacheStore.get_eq_some_of_sound h.store).mp hhit
  have hfrom := h.rows key row hrow
  refine ⟨hfrom.mono ⟨List.prefix_refl _, Extends.refl.visits, Extends.refl.renders⟩, ?_⟩
  obtain ⟨render, -, -, hrender, -, -, -, hfence⟩ := hfrom
  refine ⟨render, hrender, fun i purge hpurge _ htouches => ?_⟩
  exact h.store.current key row hrow render.fence hfence i purge hpurge htouches

theorem FromStorable.congr {entry' : Entry B} (h : FromStorable options w entry)
    (hfence : entry'.fence = entry.fence) (hbody : entry'.body = entry.body) :
    FromStorable options w entry' := by
  obtain ⟨render, req, res, hrender, hanswered, hcacheable, hres, hfence'⟩ := h
  exact ⟨render, req, res, hbody ▸ hrender, hanswered, hcacheable, hbody ▸ hres,
    hfence.trans hfence'⟩

theorem sound_write (h : Sound options w) (hrender : w.renders[m]? = some render)
    (hends : ∀ entry, render.stage ≠ .concluded entry) (hm : entry.body.render = m)
    (hfrom : FromStorable options w entry) : Sound options (w.write m key entry) := by
  have hstaged {store : MemoryCacheStore (Rendered B)}
      (hstore : Sound options { w with store := store }) :
      Sound options ({ w with store := store }.setStage m (.writing (some entry))) := by
    refine hstore.setStage _ hrender hends nofun nofun fun entry' hentry => ?_
    obtain rfl := Option.some.inj hentry
    exact ⟨hm, hfrom.mono ⟨List.prefix_refl _, Extends.refl.visits, Extends.refl.renders⟩⟩
  unfold write
  cases hset : w.store.set key entry with
  | error => exact hstaged h
  | ok store =>
    refine hstaged (h.withStore (List.prefix_refl _) (MemoryCacheStore.sound_set h.store hset) ?_)
    intro key' row hrow
    rcases MemoryCacheStore.row_of_set hset hrow with ⟨hfence, hbody⟩ | hold
    · exact Or.inr (hfrom.congr hfence hbody)
    · exact Or.inl ⟨key', row, hold, rfl⟩

theorem sound_purgePath (h : Sound options w) : Sound options { w with
    store := w.store.delete key,
    purges := w.purges ++ [.path key] } := by
  refine h.withStore (List.prefix_append _ _) (MemoryCacheStore.sound_delete h.store) ?_
  exact fun key' row hrow => Or.inl ⟨key', row, (MemoryCacheStore.row_of_delete hrow).2, rfl⟩

theorem sound_purgeTag {tag uuid : JSString} {store : MemoryCacheStore (Rendered B)}
    (h : Sound options w) (hstore : w.store.invalidateTag tag uuid = .ok store) :
    Sound options { w with
      store := store,
      purges := w.purges ++ [.tag tag] } := by
  refine h.withStore (List.prefix_append _ _) (MemoryCacheStore.sound_invalidateTag h.store hstore) ?_
  exact fun key row hrow =>
    Or.inl ⟨key, row, (MemoryCacheStore.row_of_invalidateTag hstore hrow).2, rfl⟩

theorem sound_render {req : Request} {kind : Kind} (h : Sound options w)
    (hvisit : w.visits[n]? = some visit) (hkind : ∀ key, kind ≠ .background key) :
    Sound options (w.render n req kind) :=
  (sound_start h hvisit hkind).setPhase hvisit trivial

theorem sound_lookUp {req : Request} {personal : Bool} (h : Sound options w)
    (hvisit : w.visits[n]? = some visit) (hkey : requestKey options visit.req = some key) :
    Sound options (w.lookUp n req key personal) := by
  unfold lookUp
  split_ifs
  · exact sound_render h hvisit nofun
  · exact sound_readStore h hvisit hkey

theorem sound_enter {draft : Bool} {now : ℚ} (h : Sound options w)
    (hvisit : w.visits[n]? = some visit) : Sound options (w.enter options n visit.req draft now) := by
  unfold enter
  split
  · exact sound_render h hvisit (by rintro _ ⟨⟩)
  · next key hkey =>
    split_ifs
    · exact sound_render h hvisit (by rintro _ ⟨⟩)
    · simp only
      split
      · exact sound_lookUp h hvisit hkey
      · split_ifs
        · exact sound_render h hvisit (by rintro _ ⟨⟩)
        · exact sound_lookUp h.withUncacheable hvisit hkey

theorem sound_renderCold (h : Sound options w) (hvisit : w.visits[n]? = some visit)
    (hkey : requestKey options visit.req = some key) :
    Sound options (w.renderCold n visit.req key) := by
  unfold renderCold
  cases hcold : w.coldRenders.get key with
  | some m => exact h.setPhase hvisit ⟨hkey, h.cold key m hcold⟩
  | none =>
    have hstart : Sound options (w.start n visit.req (.cold key)) := sound_start h hvisit nofun
    have hshared : Sound options { w.start n visit.req (.cold key) with
        coldRenders := w.coldRenders.set key w.renders.length } := by
      refine hstart.withCold fun key' m hm => ?_
      rw [InsertionMap.get_set] at hm
      split_ifs at hm with hkey'
      · obtain rfl := Option.some.inj hm
        exact ⟨_, getElem?_start, by rw [hkey']⟩
      · exact hstart.cold key' m hm
    exact hshared.setPhase hvisit trivial

theorem sound_resume {read : Option (Entry B)} {now : ℚ} (h : Sound options w)
    (hvisit : w.visits[n]? = some visit) (hphase : visit.phase = .reading key read) :
    Sound options (w.resume n visit.req key read now) := by
  have hok := (h.visits n visit hvisit).phase
  rw [hphase] at hok
  obtain ⟨hkey, hread⟩ := hok
  unfold resume
  cases read with
  | none => exact sound_renderCold h hvisit hkey
  | some hit =>
    obtain ⟨hfrom, hbegan⟩ := hread hit rfl
    have hcurrent {t : Wrapper B} (hext : Extends w t) {status : Served} :
        PhaseOk options t visit.req visit.since (.answered (.page hit status)) := by
      refine ⟨hfrom.mono hext, fun key' hkey' => ?_⟩
      obtain rfl := Option.some.inj (hkey.symm.trans hkey')
      exact hbegan.mono hext (h.visits n visit hvisit).since
    simp only
    split_ifs
    · exact h.setPhase hvisit (hcurrent .refl)
    · have hregenerate := sound_regenerate visit.req key h hvisit
      have hext : Extends w (w.regenerate n visit.req key) := by
        unfold regenerate
        split_ifs
        · exact .refl
        · have hstart : Extends w (w.start n visit.req (.background key)) := extends_start
          exact ⟨hstart.purges, hstart.visits, hstart.renders⟩
      have hvisit' : (w.regenerate n visit.req key).visits[n]? = some visit := by
        unfold regenerate
        split_ifs <;> exact hvisit
      exact hregenerate.setPhase hvisit' (hcurrent hext)

end Wrapper

end Nifra.Isr
