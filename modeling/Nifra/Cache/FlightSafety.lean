import Nifra.Cache.Fences
import Nifra.Cache.MemoryCache

/-! # No stale write after a change

A load whose key or tags change after it took its fence leaves no row behind, and nobody joins it any
more, unless its loader had not come to its first await.
-/

namespace Nifra.Cache

open MemoryCache

namespace Caches
variable {V : Type} {s t : Caches V} {defaultTtlMs : ℕ → ℤ} {i j n m : ℕ} {key key' : JSString}
  {load load' : Load} {flight : Flight} {store : MemoryCache V}

def Pending (load : Load) : Prop := load.phase = .running ∨ load.phase = .settled

/-- Rows and flights tell the loads that they are from. A load that may store is the one in flight
for its key, and the one that is starting is the next. -/
structure Sound (s : Caches V) : Prop where
  tokens : ∀ (n : ℕ) (load : Load), s.loads[n]? = some load → load.token ≤ s.store.epoch
  sources : ∀ key row (n : ℕ), s.store.rows.get key = some row → row.source = some n →
    ∃ load : Load, s.loads[n]? = some load ∧ load.key = key ∧ load.opts.tagList = row.tags
  indexed : s.store.Indexed
  flights : ∀ i key flight, (s.inflight i).get key = some flight →
    ∃ load : Load, s.loads[flight.load]? = some load ∧ load.cache = i ∧ load.key = key ∧
      load.opts.tagList = flight.tags ∧ load.withdrawn = false ∧ Pending load
  joinable : ∀ (n : ℕ) (load : Load), s.loads[n]? = some load → load.withdrawn = false → Pending load →
    (s.inflight load.cache).get load.key = some ⟨n, load.opts.tagList⟩
  starting : ∀ (n : ℕ) (load : Load), s.loads[n]? = some load → (load.phase = .starting ↔ s.starting = some n)
  started : ∀ n : ℕ, s.starting = some n → ∃ load : Load, s.loads[n]? = some load ∧ load.withdrawn = false ∧
    (s.inflight load.cache).get load.key = none

theorem sound_create (maxEntries : ℕ) : (create maxEntries : Caches V).Sound := by
  constructor
  · exact nofun
  · exact nofun
  · exact nofun
  · exact nofun
  · exact nofun
  · exact nofun
  · exact nofun

theorem Sound.withStore (h : s.Sound) (hepoch : s.store.epoch ≤ store.epoch)
    (hindexed : store.Indexed)
    (hsources : ∀ key row (n : ℕ), store.rows.get key = some row → row.source = some n →
      ∃ load : Load, s.loads[n]? = some load ∧ load.key = key ∧ load.opts.tagList = row.tags) :
    { s with store := store }.Sound :=
  ⟨fun n load hload => (h.tokens n load hload).trans hepoch, hsources, hindexed, h.flights,
    h.joinable, h.starting, h.started⟩

theorem Sound.drop (h : s.Sound) (hdrop : DropSpec s.store store) :
    { s with store := store }.Sound := by
  refine h.withStore hdrop.stands.epoch (hdrop.indexed h.indexed) ?_
  intro key row n hrow hsource
  obtain ⟨row', hrow', hsource', htags⟩ := hdrop.rows key row hrow
  rw [← htags]
  exact h.sources key row' n hrow' (hsource'.trans hsource)

theorem Sound.set {entry : StoredEntry V} {tags : List JSString} (h : s.Sound)
    (hset : SetSpec s.store store key entry tags)
    (hentry : ∀ n : ℕ, entry.source = some n →
      ∃ load : Load, s.loads[n]? = some load ∧ load.key = key ∧ load.opts.tagList = tags) :
    { s with store := store }.Sound := by
  refine h.withStore hset.stands.epoch (hset.indexed h.indexed) ?_
  intro key' row n hrow hsource
  rcases hset.rows key' row hrow with ⟨rfl, hown, rfl⟩ | ⟨-, row', hrow', hsource', htags⟩
  · exact hentry n (hown.symm.trans hsource)
  · rw [← htags]
    exact h.sources key' row' n hrow' (hsource'.trans hsource)

theorem drop_of_shrinks {store' : MemoryCache V} (h : Shrinks store store') :
    DropSpec store store' := ⟨h.stands, h.rows, h.indexed⟩

def SameLoads (s t : Caches V) : Prop :=
  ∀ n : ℕ, (t.loads[n]?).map (fun load => (load.toTicket, load.phase)) =
    (s.loads[n]?).map fun load => (load.toTicket, load.phase)

/-- What withdrawing leaves: everything but the flights under these keys. -/
structure Withdrawn (s t : Caches V) (i : ℕ) (keys : List JSString) : Prop where
  store : t.store = s.store
  calls : t.calls = s.calls
  starting : t.starting = s.starting
  loads : SameLoads s t
  flights : ∀ j key, (t.inflight j).get key =
    if j = i ∧ key ∈ keys then none else (s.inflight j).get key

theorem get_setFlights {flights : InsertionMap JSString Flight} :
    (s.setFlights i flights).inflight j = if j = i then flights else s.inflight j :=
  Function.update_apply _ _ _ _

theorem getElem?_withdrawFlight {entry : JSString × Flight} :
    (withdrawFlight i s entry).loads[n]? =
      if entry.2.load = n then (s.loads[n]?).map fun load => { load with withdrawn := true }
      else s.loads[n]? := by
  rw [withdrawFlight, setFlights, List.getElem?_modify]
  split_ifs <;> simp

theorem withdrawn_withdrawFlight (i : ℕ) (s : Caches V) (entry : JSString × Flight) :
    Withdrawn s (withdrawFlight i s entry) i [entry.1] := by
  constructor
  · rfl
  · rfl
  · rfl
  · intro n
    rw [getElem?_withdrawFlight]
    split_ifs
    · rw [Option.map_map]
      rfl
    · rfl
  · intro j key
    rw [withdrawFlight, get_setFlights]
    by_cases hj : j = i
    · subst hj
      rw [if_pos rfl, InsertionMap.get_delete]
      simp
    · rw [if_neg hj, if_neg fun hboth => hj hboth.1]

theorem sound_withdrawFlight {entry : JSString × Flight} (h : s.Sound)
    (hentry : (s.inflight i).get entry.1 = some entry.2) : (withdrawFlight i s entry).Sound := by
  obtain ⟨owner, howner, hcache, hkey, htags, hwithdrawn, hpending⟩ := h.flights i _ _ hentry
  have hspec := withdrawn_withdrawFlight i s entry
  have hloads {n : ℕ} {load : Load} (hload : (withdrawFlight i s entry).loads[n]? = some load) :
      (entry.2.load = n ∧ load = { owner with withdrawn := true }) ∨
        (entry.2.load ≠ n ∧ s.loads[n]? = some load) := by
    rw [getElem?_withdrawFlight] at hload
    split_ifs at hload with hn
    · subst hn
      rw [howner] at hload
      exact Or.inl ⟨rfl, (Option.some.inj hload).symm⟩
    · exact Or.inr ⟨hn, hload⟩
  have hkept {n : ℕ} {load : Load} (hload : s.loads[n]? = some load) (hn : entry.2.load ≠ n) :
      (withdrawFlight i s entry).loads[n]? = some load := by
    rw [getElem?_withdrawFlight, if_neg hn, hload]
  constructor
  · intro n load hload
    rcases hloads hload with ⟨rfl, rfl⟩ | ⟨-, hold⟩
    · exact h.tokens _ owner howner
    · exact h.tokens n load hold
  · intro key row n hrow hsource
    obtain ⟨load, hload, hkey', htags'⟩ := h.sources key row n hrow hsource
    by_cases hn : entry.2.load = n
    · subst hn
      obtain rfl := Option.some.inj (howner.symm.trans hload)
      exact ⟨{ owner with withdrawn := true }, by rw [getElem?_withdrawFlight, if_pos rfl, howner]; rfl,
        hkey', htags'⟩
    · exact ⟨load, hkept hload hn, hkey', htags'⟩
  · exact h.indexed
  · intro j key flight hflight
    rw [hspec.flights] at hflight
    split_ifs at hflight with hgone
    rw [List.mem_singleton] at hgone
    obtain ⟨load, hload, hcache', hkey', hrest⟩ := h.flights j key flight hflight
    refine ⟨load, hkept hload fun hn => hgone ?_, hcache', hkey', hrest⟩
    obtain rfl := Option.some.inj ((hn ▸ howner).symm.trans hload)
    exact ⟨hcache'.symm.trans hcache, hkey'.symm.trans hkey⟩
  · intro n load hload hwithdrawn' hpending'
    rcases hloads hload with ⟨rfl, rfl⟩ | ⟨hn, hold⟩
    · cases hwithdrawn'
    · have hget := h.joinable n load hold hwithdrawn' hpending'
      rw [hspec.flights, if_neg, hget]
      rintro ⟨hi, hk⟩
      rw [hi, List.mem_singleton.mp hk, hentry] at hget
      exact hn (congrArg Flight.load (Option.some.inj hget))
  · intro n load hload
    rcases hloads hload with ⟨rfl, rfl⟩ | ⟨-, hold⟩
    · exact h.starting _ owner howner
    · exact h.starting n load hold
  · intro n hn
    obtain ⟨load, hload, hfalse, hnone⟩ := h.started n hn
    have hne : entry.2.load ≠ n := by
      rintro rfl
      obtain rfl := Option.some.inj (howner.symm.trans hload)
      have hphase := (h.starting _ owner howner).mpr hn
      rcases hpending with hrunning | hsettled
      · cases hrunning.symm.trans hphase
      · cases hsettled.symm.trans hphase
    refine ⟨load, hkept hload hne, hfalse, ?_⟩
    rw [hspec.flights, hnone, ite_self]

theorem Withdrawn.trans {u : Caches V} {keys keys' : List JSString} (h : Withdrawn s t i keys)
    (h' : Withdrawn t u i keys') : Withdrawn s u i (keys ++ keys') := by
  constructor
  · exact h'.store.trans h.store
  · exact h'.calls.trans h.calls
  · exact h'.starting.trans h.starting
  · exact fun n => (h'.loads n).trans (h.loads n)
  · intro j key
    rw [h'.flights, h.flights]
    by_cases hj : j = i
    · by_cases hkey : key ∈ keys <;> simp [hj, hkey]
    · simp [hj]

theorem sound_foldl_withdrawFlight {entries : List (JSString × Flight)} (h : s.Sound)
    (hentries : ∀ entry ∈ entries, (s.inflight i).get entry.1 = some entry.2)
    (hnodup : (entries.map Prod.fst).Nodup) :
    (entries.foldl (withdrawFlight i) s).Sound ∧
      Withdrawn s (entries.foldl (withdrawFlight i) s) i (entries.map Prod.fst) := by
  induction entries generalizing s with
  | nil =>
    refine ⟨h, rfl, rfl, rfl, fun _ => rfl, fun j key => ?_⟩
    rw [List.map_nil, if_neg fun hboth => List.not_mem_nil hboth.2]
    rfl
  | cons entry entries ih =>
    obtain ⟨hfirst, hnodup⟩ := List.nodup_cons.mp hnodup
    have hspec := withdrawn_withdrawFlight i s entry
    have hrest (other : JSString × Flight) (hother : other ∈ entries) :
        ((withdrawFlight i s entry).inflight i).get other.1 = some other.2 := by
      rw [hspec.flights, if_neg, hentries other (List.mem_cons_of_mem _ hother)]
      rintro ⟨-, hkey⟩
      exact hfirst (List.mem_singleton.mp hkey ▸ List.mem_map_of_mem hother)
    obtain ⟨hsound, hwithdrawn⟩ :=
      ih (sound_withdrawFlight h (hentries entry List.mem_cons_self)) hrest hnodup
    exact ⟨hsound, hspec.trans hwithdrawn⟩

theorem sound_withdraw (h : s.Sound) (covers : JSString → List JSString → Bool) :
    (s.withdraw i covers).Sound ∧ ∃ keys, Withdrawn s (s.withdraw i covers) i keys ∧
      ∀ key flight, (s.inflight i).get key = some flight → covers key flight.tags → key ∈ keys := by
  have hentries (entry : JSString × Flight)
      (hentry : entry ∈ (s.inflight i).entries.filter fun entry => covers entry.1 entry.2.tags) :
      (s.inflight i).get entry.1 = some entry.2 :=
    InsertionMap.get_eq_some_iff.mpr (List.mem_filter.mp hentry).1
  have hnodup : (((s.inflight i).entries.filter fun entry => covers entry.1 entry.2.tags).map
      Prod.fst).Nodup := (s.inflight i).nodup.sublist (List.filter_sublist.map _)
  obtain ⟨hsound, hwithdrawn⟩ := sound_foldl_withdrawFlight h hentries hnodup
  refine ⟨hsound, _, hwithdrawn, fun key flight hget hcovers => ?_⟩
  exact List.mem_map.mpr ⟨(key, flight),
    List.mem_filter.mpr ⟨InsertionMap.get_eq_some_iff.mp hget, hcovers⟩, rfl⟩

theorem getElem?_setPhase {phase : Phase} : (s.setPhase n phase).loads[m]? =
    if n = m then (s.loads[m]?).map fun load => { load with phase := phase } else s.loads[m]? := by
  rw [setPhase, List.getElem?_modify]
  split_ifs <;> simp

theorem sound_begin {opts : SetOptions} (h : s.Sound) (hstarting : s.starting = none)
    (hnone : (s.inflight i).get key = none) : (s.begin i key opts).Sound := by
  have hold {n : ℕ} {load : Load} (hload : s.loads[n]? = some load) :
      (s.begin i key opts).loads[n]? = some load :=
    (List.getElem?_append_left (List.getElem?_eq_some_iff.mp hload).1).trans hload
  have hnew {n : ℕ} {load : Load} (hload : (s.begin i key opts).loads[n]? = some load) :
      s.loads[n]? = some load ∨ (n = s.loads.length ∧
        load = ⟨⟨i, key, opts, s.store.fence⟩, false, .starting⟩) := by
    simp only [begin] at hload
    rw [List.getElem?_append] at hload
    split_ifs at hload with hlt
    · exact Or.inl hload
    · rw [List.getElem?_singleton] at hload
      split_ifs at hload with hzero
      exact Or.inr ⟨by omega, (Option.some.inj hload).symm⟩
  constructor
  · intro n load hload
    rcases hnew hload with hload | ⟨-, rfl⟩
    · exact h.tokens n load hload
    · exact le_rfl
  · intro key' row n hrow hsource
    obtain ⟨load, hload, hrest⟩ := h.sources key' row n hrow hsource
    exact ⟨load, hold hload, hrest⟩
  · exact h.indexed
  · intro j key' flight hflight
    obtain ⟨load, hload, hrest⟩ := h.flights j key' flight hflight
    exact ⟨load, hold hload, hrest⟩
  · intro n load hload hwithdrawn hpending
    rcases hnew hload with hload | ⟨-, rfl⟩
    · exact h.joinable n load hload hwithdrawn hpending
    · rcases hpending with hrunning | hsettled
      · cases hrunning
      · cases hsettled
  · intro n load hload
    rcases hnew hload with hload | ⟨rfl, rfl⟩
    · have hlt := (List.getElem?_eq_some_iff.mp hload).1
      constructor
      · intro hphase
        have hstart := (h.starting n load hload).mp hphase
        rw [hstarting] at hstart
        cases hstart
      · intro hstart
        exact absurd (Option.some.inj hstart).symm hlt.ne
    · exact ⟨fun _ => rfl, fun _ => rfl⟩
  · intro n hn
    obtain rfl := Option.some.inj hn
    exact ⟨⟨⟨i, key, opts, s.store.fence⟩, false, .starting⟩, List.getElem?_concat_length, rfl,
      hnone⟩

theorem sound_register (h : s.Sound) (hstarting : s.starting = some n)
    (hload : s.loads[n]? = some load) : (s.register n load).Sound := by
  obtain ⟨owner, howner, hfalse, hnone⟩ := h.started n hstarting
  obtain rfl := Option.some.inj (hload.symm.trans howner)
  have hflights {j : ℕ} {key : JSString} : ((s.register n load).inflight j).get key =
      if j = load.cache ∧ key = load.key then some ⟨n, load.opts.tagList⟩
      else (s.inflight j).get key := by
    have hget : (s.register n load).inflight j = if j = load.cache then
        (s.inflight load.cache).set load.key ⟨n, load.opts.tagList⟩ else s.inflight j :=
      get_setFlights
    rw [hget]
    by_cases hj : j = load.cache
    · subst hj
      rw [if_pos rfl, InsertionMap.get_set]
      simp
    · rw [if_neg hj, if_neg fun hboth => hj hboth.1]
  have hloads {m : ℕ} : (s.register n load).loads[m]? = if n = m then
      (s.loads[m]?).map fun load => { load with phase := .running } else s.loads[m]? :=
    getElem?_setPhase
  have hnew : (s.register n load).loads[n]? = some { load with phase := .running } := by
    rw [hloads, if_pos rfl, hload]
    rfl
  have hcases {m : ℕ} {other : Load} (hother : (s.register n load).loads[m]? = some other) :
      (m = n ∧ other = { load with phase := .running }) ∨ (m ≠ n ∧ s.loads[m]? = some other) := by
    by_cases hm : m = n
    · subst hm
      exact Or.inl ⟨rfl, Option.some.inj (hother.symm.trans hnew)⟩
    · rw [hloads, if_neg (Ne.symm hm)] at hother
      exact Or.inr ⟨hm, hother⟩
  have hkept {m : ℕ} {other : Load} (hother : s.loads[m]? = some other) (hm : m ≠ n) :
      (s.register n load).loads[m]? = some other := by
    rw [hloads, if_neg (Ne.symm hm), hother]
  constructor
  · intro m other hother
    rcases hcases hother with ⟨rfl, rfl⟩ | ⟨-, hother⟩
    · exact h.tokens m load hload
    · exact h.tokens m other hother
  · intro key row m hrow hsource
    obtain ⟨other, hother, hrest⟩ := h.sources key row m hrow hsource
    by_cases hm : m = n
    · subst hm
      obtain rfl := Option.some.inj (hload.symm.trans hother)
      exact ⟨_, hnew, hrest⟩
    · exact ⟨other, hkept hother hm, hrest⟩
  · exact h.indexed
  · intro j key flight hflight
    rw [hflights] at hflight
    split_ifs at hflight with hboth
    · obtain rfl := Option.some.inj hflight
      exact ⟨_, hnew, hboth.1.symm, hboth.2.symm, rfl, hfalse, Or.inl rfl⟩
    · obtain ⟨other, hother, hcache, hkey, htags, hfalse', hpending⟩ := h.flights j key flight hflight
      refine ⟨other, hkept hother ?_, hcache, hkey, htags, hfalse', hpending⟩
      intro hm
      obtain rfl := Option.some.inj ((hm ▸ hother).symm.trans hload)
      have hphase := (h.starting n other hload).mpr hstarting
      rcases hpending with hrunning | hsettled
      · cases hrunning.symm.trans hphase
      · cases hsettled.symm.trans hphase
  · intro m other hother hwithdrawn hpending
    rw [hflights]
    rcases hcases hother with ⟨rfl, rfl⟩ | ⟨-, hother⟩
    · rw [if_pos ⟨rfl, rfl⟩]
    · have hget := h.joinable m other hother hwithdrawn hpending
      rw [if_neg, hget]
      rintro ⟨hcache, hkey⟩
      rw [hcache, hkey, hnone] at hget
      cases hget
  · intro m other hother
    have hnotstarting : (s.register n load).starting ≠ some m := by rintro ⟨⟩
    rcases hcases hother with ⟨rfl, rfl⟩ | ⟨hm, hother⟩
    · exact ⟨by rintro ⟨⟩, fun hstart => absurd hstart hnotstarting⟩
    · refine ⟨fun hphase => absurd ?_ hm, fun hstart => absurd hstart hnotstarting⟩
      have hstart := (h.starting m other hother).mp hphase
      rw [hstarting] at hstart
      exact (Option.some.inj hstart).symm
  · rintro _ ⟨⟩

theorem getElem?_setPhase_cases {phase : Phase} {other : Load}
    (hload : s.loads[n]? = some load) (h : (s.setPhase n phase).loads[m]? = some other) :
    (m = n ∧ other = { load with phase := phase }) ∨ (m ≠ n ∧ s.loads[m]? = some other) := by
  rw [getElem?_setPhase] at h
  split_ifs at h with hm
  · subst hm
    rw [hload] at h
    exact Or.inl ⟨rfl, (Option.some.inj h).symm⟩
  · exact Or.inr ⟨Ne.symm hm, h⟩

theorem getElem?_setPhase_self {phase : Phase} (hload : s.loads[n]? = some load) :
    (s.setPhase n phase).loads[n]? = some { load with phase := phase } := by
  rw [getElem?_setPhase, if_pos rfl, hload]
  rfl

theorem getElem?_setPhase_of_ne {phase : Phase} (hm : m ≠ n) :
    (s.setPhase n phase).loads[m]? = s.loads[m]? := by
  rw [getElem?_setPhase, if_neg (Ne.symm hm)]

theorem exists_setPhase {phase : Phase} {tags : List JSString}
    (h : ∃ load : Load, s.loads[m]? = some load ∧ load.key = key ∧ load.opts.tagList = tags) :
    ∃ load : Load, (s.setPhase n phase).loads[m]? = some load ∧ load.key = key ∧
      load.opts.tagList = tags := by
  obtain ⟨load, hload, hrest⟩ := h
  by_cases hm : m = n
  · subst hm
    exact ⟨{ load with phase := phase }, getElem?_setPhase_self hload, hrest⟩
  · exact ⟨load, (getElem?_setPhase_of_ne hm).trans hload, hrest⟩

theorem not_starting_of_phase (h : s.Sound) (hload : s.loads[n]? = some load)
    (hphase : load.phase ≠ .starting) : s.starting ≠ some n :=
  fun hstarting => hphase ((h.starting n load hload).mpr hstarting)

theorem sound_settled (h : s.Sound) (hload : s.loads[n]? = some load)
    (hphase : load.phase = .running) : (s.setPhase n .settled).Sound := by
  have hnotstarting : s.starting ≠ some n :=
    not_starting_of_phase h hload (by rw [hphase]; exact nofun)
  constructor
  · intro m other hother
    rcases getElem?_setPhase_cases hload hother with ⟨rfl, rfl⟩ | ⟨-, hother⟩
    · exact h.tokens m load hload
    · exact h.tokens m other hother
  · intro key row m hrow hsource
    exact exists_setPhase (h.sources key row m hrow hsource)
  · exact h.indexed
  · intro j key flight hflight
    obtain ⟨other, hother, hcache, hkey, htags, hfalse, hpending⟩ := h.flights j key flight hflight
    by_cases hm : flight.load = n
    · rw [hm] at hother ⊢
      obtain rfl := Option.some.inj (hload.symm.trans hother)
      exact ⟨_, getElem?_setPhase_self hload, hcache, hkey, htags, hfalse, Or.inr rfl⟩
    · exact ⟨other, (getElem?_setPhase_of_ne hm).trans hother, hcache, hkey, htags, hfalse, hpending⟩
  · intro m other hother hwithdrawn hpending
    rcases getElem?_setPhase_cases hload hother with ⟨rfl, rfl⟩ | ⟨-, hother⟩
    · exact h.joinable m load hload hwithdrawn (Or.inl hphase)
    · exact h.joinable m other hother hwithdrawn hpending
  · intro m other hother
    rcases getElem?_setPhase_cases hload hother with ⟨rfl, rfl⟩ | ⟨-, hother⟩
    · exact ⟨nofun, fun hstart => absurd hstart hnotstarting⟩
    · exact h.starting m other hother
  · intro m hm
    obtain ⟨other, hother, hrest⟩ := h.started m hm
    have hne : m ≠ n := fun heq => hnotstarting (heq ▸ hm)
    exact ⟨other, (getElem?_setPhase_of_ne hne).trans hother, hrest⟩

theorem entryOf_source {defaultTtlMs : ℤ} {value : V} {opts : SetOptions} {source : Option ℕ}
    {now : ℤ} {entry : StoredEntry V} (h : entryOf defaultTtlMs value opts source now = some entry) :
    entry.source = source := by
  simp only [entryOf] at h
  split_ifs at h
  rw [← Option.some.inj h]

theorem settle_cases (defaultTtlMs : ℕ → ℤ) (s : Caches V) (n : ℕ) (load : Load)
    (value : Option V) (clock now : ℤ) :
    s.settle defaultTtlMs n load value clock now = s.setPhase n .settled ∨
      ∃ entry : StoredEntry V, entry.source = some n ∧
        s.store.refuses load.key load.opts.tagList load.token = false ∧
        s.settle defaultTtlMs n load value clock now =
          { s.setPhase n .settled with
            store := s.store.set load.key entry load.opts.tagList now } := by
  simp only [settle]
  split_ifs
  · exact Or.inl rfl
  · split
    · exact Or.inl rfl
    · next entry hentry =>
      obtain ⟨result, -, hresult⟩ := Option.bind_eq_some_iff.mp hentry
      by_cases hrefused : s.store.refuses load.key load.opts.tagList load.token = true
      · left
        have hsame : (s.setPhase n .settled).store.setIfFence load.key entry load.opts.tagList
            load.token now = s.store := if_pos hrefused
        rw [hsame]
        rfl
      · right
        refine ⟨entry, entryOf_source hresult, Bool.eq_false_iff.mpr hrefused, ?_⟩
        have hset : (s.setPhase n .settled).store.setIfFence load.key entry load.opts.tagList
            load.token now = s.store.set load.key entry load.opts.tagList now := if_neg hrefused
        rw [hset]

theorem sound_settle {value : Option V} {clock now : ℤ} (h : s.Sound)
    (hload : s.loads[n]? = some load) (hphase : load.phase = .running) :
    (s.settle defaultTtlMs n load value clock now).Sound := by
  have hsettled := sound_settled h hload hphase
  rcases settle_cases defaultTtlMs s n load value clock now with heq | ⟨entry, hsource, -, heq⟩
  · rw [heq]
    exact hsettled
  · rw [heq]
    refine hsettled.set (set_spec _ _ _ _ _) fun m hm => ?_
    obtain rfl := Option.some.inj (hsource.symm.trans hm)
    exact ⟨_, getElem?_setPhase_self hload, rfl, rfl⟩

theorem finish_cases (s : Caches V) (n : ℕ) (load : Load) :
    (∃ flight, (s.inflight load.cache).get load.key = some flight ∧ flight.load = n ∧
      s.finish n load = (s.setPhase n .finished).setFlights load.cache
        ((s.inflight load.cache).delete load.key)) ∨
    ((∀ flight, (s.inflight load.cache).get load.key = some flight → flight.load ≠ n) ∧
      s.finish n load = s.setPhase n .finished) := by
  have hinflight : (s.setPhase n .finished).inflight = s.inflight := rfl
  simp only [finish, hinflight]
  cases hget : (s.inflight load.cache).get load.key with
  | none => exact Or.inr ⟨by rintro _ ⟨⟩, rfl⟩
  | some flight =>
    by_cases hflight : flight.load = n
    · exact Or.inl ⟨flight, rfl, hflight, by simp [hflight]⟩
    · refine Or.inr ⟨fun other hother => Option.some.inj hother ▸ hflight, by simp [hflight]⟩

theorem sound_finish (h : s.Sound) (hload : s.loads[n]? = some load)
    (hphase : load.phase = .settled) : (s.finish n load).Sound := by
  have hnotstarting : s.starting ≠ some n :=
    not_starting_of_phase h hload (by rw [hphase]; exact nofun)
  have hspec : (s.finish n load).store = s.store ∧ (s.finish n load).starting = s.starting ∧
      (s.finish n load).loads = (s.setPhase n .finished).loads := by
    rcases finish_cases s n load with ⟨_, -, -, heq⟩ | ⟨-, heq⟩ <;> rw [heq] <;> exact ⟨rfl, rfl, rfl⟩
  obtain ⟨hstore, hstarting, hloads⟩ := hspec
  -- the flights of the others, which the load was not
  have hflights (j : ℕ) (key : JSString) : ((s.finish n load).inflight j).get key =
      ((s.inflight j).get key).filter fun flight => flight.load ≠ n := by
    have hmine {flight : Flight} (hflight : (s.inflight j).get key = some flight)
        (hn : flight.load = n) : j = load.cache ∧ key = load.key := by
      obtain ⟨other, hother, hcache, hkey, -⟩ := h.flights j key flight hflight
      obtain rfl := Option.some.inj ((hn ▸ hother).symm.trans hload)
      exact ⟨hcache.symm, hkey.symm⟩
    rcases finish_cases s n load with ⟨flight, hget, hn, heq⟩ | ⟨hothers, heq⟩
    · rw [heq, get_setFlights]
      by_cases hboth : j = load.cache ∧ key = load.key
      · obtain ⟨rfl, rfl⟩ := hboth
        rw [if_pos rfl, InsertionMap.get_delete, if_pos rfl, hget]
        simp [hn, Option.filter_some]
      · have hsame : (if j = load.cache then (s.inflight load.cache).delete load.key
            else s.inflight j).get key = (s.inflight j).get key := by
          by_cases hj : j = load.cache
          · subst hj
            rw [if_pos rfl, InsertionMap.get_delete, if_neg fun hkey => hboth ⟨rfl, hkey⟩]
          · rw [if_neg hj]
        refine hsame.trans ?_
        cases hother : (s.inflight j).get key with
        | none => rfl
        | some other =>
          have hne : other.load ≠ n := fun hn => hboth (hmine hother hn)
          simp [hne, Option.filter_some]
    · rw [heq]
      have hsame : (s.setPhase n .finished).inflight j = s.inflight j := rfl
      rw [hsame]
      cases hother : (s.inflight j).get key with
      | none => rfl
      | some other =>
        have hne : other.load ≠ n := by
          intro hn
          obtain ⟨rfl, rfl⟩ := hmine hother hn
          exact hothers other hother hn
        simp [hne, Option.filter_some]
  have hkept {j : ℕ} {key : JSString} {flight : Flight}
      (hflight : ((s.finish n load).inflight j).get key = some flight) :
      (s.inflight j).get key = some flight ∧ flight.load ≠ n := by
    rw [hflights, Option.filter_eq_some_iff] at hflight
    exact ⟨hflight.1, of_decide_eq_true hflight.2⟩
  constructor
  · intro m other hother
    rw [hstore]
    rw [hloads] at hother
    rcases getElem?_setPhase_cases hload hother with ⟨rfl, rfl⟩ | ⟨-, hother⟩
    · exact h.tokens m load hload
    · exact h.tokens m other hother
  · intro key row m hrow hsource
    rw [hstore] at hrow
    rw [hloads]
    exact exists_setPhase (h.sources key row m hrow hsource)
  · rw [hstore]
    exact h.indexed
  · intro j key flight hflight
    obtain ⟨hflight, hm⟩ := hkept hflight
    obtain ⟨other, hother, hrest⟩ := h.flights j key flight hflight
    rw [hloads]
    exact ⟨other, (getElem?_setPhase_of_ne hm).trans hother, hrest⟩
  · intro m other hother hwithdrawn hpending
    rw [hloads] at hother
    rcases getElem?_setPhase_cases hload hother with ⟨rfl, rfl⟩ | ⟨hm, hother⟩
    · rcases hpending with hrunning | hsettled
      · cases hrunning
      · cases hsettled
    · rw [hflights, h.joinable m other hother hwithdrawn hpending]
      simp [hm]
  · intro m other hother
    rw [hstarting]
    rw [hloads] at hother
    rcases getElem?_setPhase_cases hload hother with ⟨rfl, rfl⟩ | ⟨-, hother⟩
    · exact ⟨nofun, fun hstart => absurd hstart hnotstarting⟩
    · exact h.starting m other hother
  · intro m hm
    rw [hstarting] at hm
    obtain ⟨other, hother, hfalse, hnone⟩ := h.started m hm
    have hne : m ≠ n := fun heq => hnotstarting (heq ▸ hm)
    refine ⟨other, ?_, hfalse, ?_⟩
    · rw [hloads]
      exact (getElem?_setPhase_of_ne hne).trans hother
    · rw [hflights, hnone]
      rfl

theorem Sound.withCalls {calls : List (Call V)} (h : s.Sound) : { s with calls := calls }.Sound :=
  ⟨h.tokens, h.sources, h.indexed, h.flights, h.joinable, h.starting, h.started⟩

theorem sound_load {opts : SetOptions} (h : s.Sound) (hstarting : s.starting = none) :
    (s.load i key opts).1.Sound := by
  simp only [Caches.load]
  split
  · exact h
  · next hnone => exact sound_begin h hstarting hnone

theorem sound_resume {call : Call V} {clock : ℤ} (h : s.Sound) (hstarting : s.starting = none) :
    (s.resume n call clock).Sound := by
  simp only [resume]
  split
  · split_ifs
    · exact h.withCalls
    · simp only [revalidate]
      split_ifs
      · exact h.withCalls
      · exact sound_load (s := s.setCall n .served) h.withCalls hstarting
  · exact (sound_load h hstarting).withCalls

theorem apply_cases {defaultTtlMs : ℤ} {store store' : MemoryCache V} {change : Change V}
    (h : change.apply defaultTtlMs store = some store') :
    DropSpec store store' ∨ ∃ key entry tags, entry.source = none ∧
      SetSpec store store' key entry tags := by
  cases change with
  | set key value opts clock now =>
    obtain ⟨entry, hentry, rfl⟩ := Option.map_eq_some_iff.mp h
    exact Or.inr ⟨key, entry, _, entryOf_source hentry, set_spec _ _ _ _ _⟩
  | remove key =>
    obtain rfl := Option.some.inj h
    exact Or.inl delete_spec
  | invalidateTag tag =>
    obtain rfl := Option.some.inj h
    exact Or.inl invalidateTag_spec
  | clear =>
    obtain rfl := Option.some.inj h
    exact Or.inl clear_spec

theorem sound_change {change : Change V} (h : s.Sound) : (s.change defaultTtlMs i change).Sound := by
  obtain ⟨hsound, keys, hwithdrawn, -⟩ := sound_withdraw (i := i) h change.covers
  simp only [Caches.change]
  cases happly : change.apply (defaultTtlMs i) s.store with
  | none =>
    have hstore := hwithdrawn.store
    simp only [Option.getD_none]
    rw [← hstore]
    exact hsound
  | some store' =>
    simp only [Option.getD_some]
    rw [← hwithdrawn.store] at happly
    rcases apply_cases happly with hdrop | ⟨key, entry, tags, hsource, hset⟩
    · exact hsound.drop hdrop
    · refine hsound.set hset fun n hn => ?_
      rw [hsource] at hn
      cases hn

theorem sound_step {action : Action V} (h : s.Sound)
    (hstep : s.step defaultTtlMs action = some t) : t.Sound := by
  cases action with
  | get key now =>
    obtain rfl := Option.some.inj hstep
    exact h.drop (drop_of_shrinks shrinks_get)
  | change i change =>
    obtain rfl := Option.some.inj hstep
    exact sound_change h
  | wrap i key opts now =>
    obtain rfl := Option.some.inj hstep
    exact (h.drop (drop_of_shrinks shrinks_get)).withCalls
  | resume n clock =>
    obtain ⟨call, -, hstep⟩ := Option.bind_eq_some_iff.mp hstep
    split_ifs at hstep with hready
    obtain rfl := Option.some.inj hstep
    exact sound_resume h hready.2
  | register =>
    obtain ⟨n, hstarting, hstep⟩ := Option.bind_eq_some_iff.mp hstep
    obtain ⟨load, hload, hstep⟩ := Option.bind_eq_some_iff.mp hstep
    obtain rfl := Option.some.inj hstep
    exact sound_register h hstarting hload
  | settle n value clock now =>
    obtain ⟨load, hload, hstep⟩ := Option.bind_eq_some_iff.mp hstep
    split_ifs at hstep with hready
    obtain rfl := Option.some.inj hstep
    exact sound_settle h hload hready.1
  | finish n =>
    obtain ⟨load, hload, hstep⟩ := Option.bind_eq_some_iff.mp hstep
    split_ifs at hstep with hready
    obtain rfl := Option.some.inj hstep
    exact sound_finish h hload hready.1

end Caches

end Nifra.Cache
