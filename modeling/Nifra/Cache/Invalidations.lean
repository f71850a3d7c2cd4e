import Nifra.Cache.FlightSafety

/-! # Invalidations are final

A load that took its fence before a change it is covered by stores nothing after it. No call that
comes after the change joins the load either, except where the loader made the change itself before
its first await.
-/

namespace Nifra.Cache

open MemoryCache

def Load.Joinable (load : Load) : Prop := load.withdrawn = false ∧ load.phase ≠ .finished

def Change.coversLoad {V : Type} (change : Change V) (load : Load) : Bool :=
  change.covers load.key load.opts.tagList

namespace Caches
variable {V : Type} {s t : Caches V} {defaultTtlMs : ℕ → ℤ} {i j n m calls : ℕ}
  {key key' : JSString} {load : Load} {change : Change V} {action : Action V}

def Exclusive (s : Caches V) : Prop :=
  ∀ (n m : ℕ) (load other : Load), s.loads[n]? = some load → s.loads[m]? = some other →
    load.cache = other.cache → load.key = other.key → load.Joinable → other.Joinable → n = m

def Unstored (n : ℕ) (s : Caches V) : Prop :=
  ∀ key row, s.store.rows.get key = some row → row.source ≠ some n

def Unjoined (n calls : ℕ) (s : Caches V) : Prop :=
  ∀ (m : ℕ) (call : Call V), calls ≤ m → s.calls[m]? = some call → call.phase ≠ .joined n

/-- A change lands, unless it is a `set` whose options are refused. -/
def Lands (defaultTtlMs : ℕ → ℤ) (s : Caches V) (i : ℕ) (change : Change V) : Prop :=
  (change.apply (defaultTtlMs i) s.store).isSome

/-- Wherever the caches go from here, the loads that the change covers store nothing and the later
calls of the cache do not join them. -/
def Final (defaultTtlMs : ℕ → ℤ) (s : Caches V) (i : ℕ) (change : Change V) : Prop :=
  ∀ (n : ℕ) (load : Load), s.loads[n]? = some load → change.coversLoad load →
    ∀ rest t, Runs.run (step defaultTtlMs) (s.change defaultTtlMs i change) rest = some t →
      Unstored n t ∧ (load.cache = i → Unjoined n s.calls.length t)

def Lawful (defaultTtlMs : ℕ → ℤ) (s : Caches V) (action : Action V) : Prop :=
  (∀ t, s.step defaultTtlMs action = some t → t.Exclusive) ∧
    ∀ i change, action = .change i change → Lands defaultTtlMs s i change →
      Final defaultTtlMs s i change

/-- No loader changes what it loads itself, through its own cache and before its first await. -/
def Meets (defaultTtlMs : ℕ → ℤ) (s : Caches V) (action : Action V) : Prop :=
  ∀ i change, action = .change i change → Lands defaultTtlMs s i change →
    ∀ (n : ℕ) (load : Load), s.starting = some n → s.loads[n]? = some load → load.cache = i →
      change.coversLoad load = false

theorem Sound.exclusive (h : s.Sound) : s.Exclusive := by
  intro n m load other hload hother hcache hkey ⟨hfalse, hphase⟩ ⟨hfalse', hphase'⟩
  have hstarting {n m : ℕ} {load other : Load} (hload : s.loads[n]? = some load)
      (hother : s.loads[m]? = some other) (hcache : load.cache = other.cache)
      (hkey : load.key = other.key) (hfalse' : other.withdrawn = false)
      (hphase : load.phase = .starting) : ¬Pending other := by
    intro hpending
    have hstart := (h.starting n load hload).mp hphase
    obtain ⟨owner, howner, -, hnone⟩ := h.started n hstart
    obtain rfl := Option.some.inj (hload.symm.trans howner)
    have hget := h.joinable m other hother hfalse' hpending
    rw [← hcache, ← hkey, hnone] at hget
    cases hget
  have hcases {load : Load} (hphase : load.phase ≠ .finished) :
      load.phase = .starting ∨ Pending load := by
    unfold Pending
    cases hcase : load.phase with
    | starting => exact Or.inl rfl
    | running => exact Or.inr (Or.inl rfl)
    | settled => exact Or.inr (Or.inr rfl)
    | finished => exact absurd hcase hphase
  rcases hcases hphase with hstart | hpending <;> rcases hcases hphase' with hstart' | hpending'
  · have hn := (h.starting n load hload).mp hstart
    have hm := (h.starting m other hother).mp hstart'
    exact Option.some.inj (hn.symm.trans hm)
  · exact absurd hpending' (hstarting hload hother hcache hkey hfalse' hstart)
  · exact absurd hpending (hstarting hother hload hcache.symm hkey.symm hfalse hstart')
  · have hget := h.joinable n load hload hfalse hpending
    have hget' := h.joinable m other hother hfalse' hpending'
    rw [hcache, hkey, hget'] at hget
    exact (congrArg Flight.load (Option.some.inj hget)).symm

structure Spent (n : ℕ) (ticket : Ticket) (s : Caches V) : Prop where
  owner : ∃ load : Load, s.loads[n]? = some load ∧ load.toTicket = ticket
  refused : s.store.refuses ticket.key ticket.opts.tagList ticket.token = true
  unstored : Unstored n s

theorem SameLoads.ticket {ticket : Ticket} (h : SameLoads s t)
    (hticket : ∃ load : Load, s.loads[n]? = some load ∧ load.toTicket = ticket) :
    ∃ load : Load, t.loads[n]? = some load ∧ load.toTicket = ticket := by
  obtain ⟨load, hload, rfl⟩ := hticket
  have hsame := h n
  rw [hload] at hsame
  obtain ⟨load', hload', heq⟩ := Option.map_eq_some_iff.mp hsame
  exact ⟨load', hload', congrArg Prod.fst heq⟩

/-- What a step leaves to a load that is spent: its ticket, its refusal, and no row that was stored
by it. -/
structure Spares (n : ℕ) (s t : Caches V) : Prop where
  tickets : ∀ ticket, (∃ load : Load, s.loads[n]? = some load ∧ load.toTicket = ticket) →
    ∃ load : Load, t.loads[n]? = some load ∧ load.toTicket = ticket
  stands : Stands s.store t.store
  unstored : Unstored n s → Unstored n t

theorem Spares.refl : Spares n s s := ⟨fun _ h => h, .refl, id⟩

theorem Spares.trans {u : Caches V} (h : Spares n s t) (h' : Spares n t u) : Spares n s u :=
  ⟨fun ticket hticket => h'.tickets ticket (h.tickets ticket hticket), h.stands.trans h'.stands,
    fun hunstored => h'.unstored (h.unstored hunstored)⟩

theorem Spares.of_store (hloads : t.loads = s.loads) (hstore : t.store = s.store) :
    Spares n s t := by
  constructor
  · intro ticket hticket
    rwa [hloads]
  · rw [hstore]
    exact .refl
  · intro hunstored
    rwa [Unstored, hstore]

theorem Spares.drop {store : MemoryCache V} (h : DropSpec s.store store) :
    Spares n s { s with store := store } := by
  constructor
  · exact fun _ hticket => hticket
  · exact h.stands
  · intro hunstored key row hrow
    obtain ⟨row', hrow', hsource, -⟩ := h.rows key row hrow
    rw [← hsource]
    exact hunstored key row' hrow'

theorem Spares.set {store : MemoryCache V} {entry : StoredEntry V} {tags : List JSString}
    (h : SetSpec s.store store key entry tags) (hentry : entry.source ≠ some n) :
    Spares n s { s with store := store } := by
  constructor
  · exact fun _ hticket => hticket
  · exact h.stands
  · intro hunstored key' row hrow
    rcases h.rows key' row hrow with ⟨-, hsource, -⟩ | ⟨-, row', hrow', hsource, -⟩
    · rwa [hsource]
    · rw [← hsource]
      exact hunstored key' row' hrow'

theorem spares_setPhase (m : ℕ) (phase : Phase) : Spares n s (s.setPhase m phase) := by
  constructor
  · rintro ticket ⟨load, hload, rfl⟩
    by_cases hn : n = m
    · subst hn
      exact ⟨_, getElem?_setPhase_self hload, rfl⟩
    · exact ⟨load, (getElem?_setPhase_of_ne hn).trans hload, rfl⟩
  · exact .refl
  · exact id

theorem spares_load {opts : SetOptions} : Spares n s (s.load i key opts).1 := by
  simp only [Caches.load]
  split
  · exact .refl
  · constructor
    · rintro ticket ⟨load, hload, rfl⟩
      have hlt := (List.getElem?_eq_some_iff.mp hload).1
      exact ⟨load, (List.getElem?_append_left hlt).trans hload, rfl⟩
    · exact .refl
    · exact id

theorem spares_setCall {phase : CallPhase} : Spares n s (s.setCall m phase) := .of_store rfl rfl

theorem spares_resume {call : Call V} {clock : ℤ} : Spares n s (s.resume m call clock) := by
  simp only [resume]
  split
  · split_ifs
    · exact spares_setCall
    · simp only [revalidate]
      split_ifs
      · exact spares_setCall
      · exact spares_setCall.trans spares_load
  · exact spares_load.trans spares_setCall

theorem spares_change (h : s.Sound) : Spares n s (s.change defaultTtlMs i change) := by
  obtain ⟨-, keys, hwithdrawn, -⟩ := sound_withdraw (i := i) h change.covers
  have hspares : Spares n s (s.withdraw i change.covers) := by
    constructor
    · exact fun _ hticket => hwithdrawn.loads.ticket hticket
    · rw [hwithdrawn.store]
      exact .refl
    · intro hunstored
      rwa [Unstored, hwithdrawn.store]
  refine hspares.trans ?_
  simp only [Caches.change]
  cases happly : change.apply (defaultTtlMs i) s.store with
  | none => exact .of_store rfl hwithdrawn.store.symm
  | some store' =>
    rw [← hwithdrawn.store] at happly
    rcases apply_cases happly with hdrop | ⟨key, entry, tags, hsource, hset⟩
    · exact .drop hdrop
    · refine .set hset ?_
      rw [hsource]
      rintro ⟨⟩

theorem spent_of_spares {ticket : Ticket} (h : s.Sound) (hspent : Spent n ticket s)
    (hspares : Spares n s t) : Spent n ticket t := by
  obtain ⟨load, hload, rfl⟩ := hspent.owner
  constructor
  · exact hspares.tickets _ hspent.owner
  · exact hspares.stands.refuses _ _ _ (h.tokens n load hload) hspent.refused
  · exact hspares.unstored hspent.unstored

theorem spent_step {ticket : Ticket} (h : s.Sound) (hspent : Spent n ticket s)
    (hstep : s.step defaultTtlMs action = some t) : Spent n ticket t := by
  refine spent_of_spares h hspent ?_
  cases action with
  | get key now =>
    obtain rfl := Option.some.inj hstep
    exact .drop (drop_of_shrinks shrinks_get)
  | change i change =>
    obtain rfl := Option.some.inj hstep
    exact spares_change h
  | wrap i key opts now =>
    obtain rfl := Option.some.inj hstep
    have hget : Spares n s { s with store := (s.store.get key now).1 } :=
      .drop (drop_of_shrinks shrinks_get)
    exact hget.trans (.of_store rfl rfl)
  | resume n clock =>
    obtain ⟨call, -, hstep⟩ := Option.bind_eq_some_iff.mp hstep
    split_ifs at hstep with hready
    obtain rfl := Option.some.inj hstep
    exact spares_resume
  | register =>
    obtain ⟨m, -, hstep⟩ := Option.bind_eq_some_iff.mp hstep
    obtain ⟨load, -, hstep⟩ := Option.bind_eq_some_iff.mp hstep
    obtain rfl := Option.some.inj hstep
    exact (spares_setPhase m .running).trans (.of_store rfl rfl)
  | settle m value clock now =>
    obtain ⟨load, hload, hstep⟩ := Option.bind_eq_some_iff.mp hstep
    split_ifs at hstep with hready
    obtain rfl := Option.some.inj hstep
    rcases settle_cases defaultTtlMs s m load value clock now with heq | ⟨entry, hsource, hallowed, heq⟩
    · rw [heq]
      exact spares_setPhase m .settled
    · rw [heq]
      refine (spares_setPhase m .settled).trans (.set (set_spec _ _ _ _ _) ?_)
      -- the load that stores is not the one that is refused
      rw [hsource]
      intro hm
      obtain rfl := Option.some.inj hm
      obtain ⟨load', hload', rfl⟩ := hspent.owner
      obtain rfl := Option.some.inj (hload.symm.trans hload')
      rw [hspent.refused] at hallowed
      cases hallowed
  | finish m =>
    obtain ⟨load, hload, hstep⟩ := Option.bind_eq_some_iff.mp hstep
    split_ifs at hstep with hready
    obtain rfl := Option.some.inj hstep
    rcases finish_cases s m load with ⟨_, -, -, heq⟩ | ⟨-, heq⟩
    · rw [heq]
      exact (spares_setPhase m .finished).trans (.of_store rfl rfl)
    · rw [heq]
      exact spares_setPhase m .finished

theorem spent_change (h : s.Sound) (hlands : Lands defaultTtlMs s i change)
    (hload : s.loads[n]? = some load) (hcovers : change.coversLoad load = true) :
    Spent n load.toTicket (s.change defaultTtlMs i change) := by
  obtain ⟨store', happly⟩ := Option.isSome_iff_exists.mp hlands
  have htoken := h.tokens n load hload
  have hstore : (s.change defaultTtlMs i change).store = store' := by
    simp only [Caches.change, happly, Option.getD_some]
  have hsources {key : JSString} {row : Row V} (hrow : s.store.rows.get key = some row)
      (hsource : row.source = some n) : load.key = key ∧ load.opts.tagList = row.tags := by
    obtain ⟨owner, howner, hrest⟩ := h.sources key row n hrow hsource
    obtain rfl := Option.some.inj (hload.symm.trans howner)
    exact hrest
  have hspec : store'.refuses load.key load.opts.tagList load.token = true ∧
      ∀ key row, store'.rows.get key = some row → row.source ≠ some n := by
    cases change with
    | set key value opts clock now =>
      obtain ⟨entry, hentry, rfl⟩ := Option.map_eq_some_iff.mp happly
      have hset := set_spec s.store key entry opts.tagList now
      obtain hkey : load.key = key := of_decide_eq_true hcovers
      rw [← hkey] at hset ⊢
      refine ⟨hset.refused _ _ htoken, fun key' row hrow hsource => ?_⟩
      rcases hset.rows key' row hrow with ⟨-, hown, -⟩ | ⟨hne, row', hrow', hsource', -⟩
      · rw [hown, entryOf_source hentry] at hsource
        cases hsource
      · exact hne (hsources hrow' (hsource'.trans hsource)).1.symm
    | remove key =>
      obtain rfl := Option.some.inj happly
      obtain hkey : load.key = key := of_decide_eq_true hcovers
      rw [← hkey]
      refine ⟨refuses_delete htoken, fun key' row hrow hsource => ?_⟩
      obtain ⟨row', hrow', hsource', -⟩ := delete_spec.rows key' row hrow
      obtain rfl := (hsources hrow' (hsource'.trans hsource)).1
      rw [rows_delete] at hrow
      cases hrow
    | invalidateTag tag =>
      obtain rfl := Option.some.inj happly
      have htag : tag ∈ load.opts.tagList := of_decide_eq_true hcovers
      refine ⟨refuses_invalidateTag htoken htag, fun key' row hrow hsource => ?_⟩
      obtain ⟨row', hrow', hsource', htags⟩ := invalidateTag_spec.rows key' row hrow
      have htags' := (hsources hrow' (hsource'.trans hsource)).2
      exact rows_invalidateTag h.indexed hrow (htags ▸ htags' ▸ htag)
    | clear =>
      obtain rfl := Option.some.inj happly
      refine ⟨refuses_clear htoken, ?_⟩
      rintro _ _ ⟨⟩
  constructor
  · exact (spares_change h).tickets _ ⟨load, hload, rfl⟩
  · rw [hstore]
    exact hspec.1
  · rw [Unstored, hstore]
    exact hspec.2

structure Unjoinable (n calls : ℕ) (s : Caches V) : Prop where
  begun : n < s.loads.length
  notStarting : s.starting ≠ some n
  flights : ∀ i key flight, (s.inflight i).get key = some flight → flight.load ≠ n
  unjoined : Unjoined n calls s

theorem Unjoinable.withStore {store : MemoryCache V} (h : Unjoinable n calls s) :
    Unjoinable n calls { s with store := store } :=
  ⟨h.begun, h.notStarting, h.flights, h.unjoined⟩

theorem unjoinable_setCall (phase : CallPhase) (h : Unjoinable n calls s)
    (hphase : phase ≠ .joined n) : Unjoinable n calls (s.setCall m phase) := by
  refine ⟨h.begun, h.notStarting, h.flights, fun m' call hm' hcall => ?_⟩
  rw [setCall, List.getElem?_modify] at hcall
  obtain ⟨old, hold, rfl⟩ := Option.map_eq_some_iff.mp hcall
  split_ifs
  · exact hphase
  · exact h.unjoined m' old hm' hold

theorem unjoinable_load (i : ℕ) (key : JSString) (opts : SetOptions)
    (h : Unjoinable n calls s) :
    Unjoinable n calls (s.load i key opts).1 ∧ (s.load i key opts).2 ≠ n := by
  simp only [Caches.load]
  split
  · next flight hflight => exact ⟨h, h.flights i key flight hflight⟩
  · refine ⟨⟨?_, ?_, h.flights, h.unjoined⟩, h.begun.ne'⟩
    · simp only [begin, List.length_append]
      exact Nat.lt_add_right _ h.begun
    · exact fun hstart => h.begun.ne' (Option.some.inj hstart)

theorem unjoinable_resume {call : Call V} {clock : ℤ} (h : Unjoinable n calls s) :
    Unjoinable n calls (s.resume m call clock) := by
  have hserved := unjoinable_setCall (m := m) .served h nofun
  simp only [resume]
  split
  · split_ifs
    · exact hserved
    · simp only [revalidate]
      split_ifs
      · exact hserved
      · exact (unjoinable_load _ _ _ hserved).1
  · obtain ⟨hload, hne⟩ := unjoinable_load call.cache call.key call.opts h
    exact unjoinable_setCall _ hload fun hjoined => hne (CallPhase.joined.inj hjoined)

theorem Withdrawn.unjoinable {keys : List JSString} (h : Withdrawn s t i keys)
    (hunjoinable : Unjoinable n calls s) : Unjoinable n calls t := by
  constructor
  · have hload := List.getElem?_eq_getElem hunjoinable.begun
    obtain ⟨load', hload', -⟩ := h.loads.ticket ⟨_, hload, rfl⟩
    exact (List.getElem?_eq_some_iff.mp hload').1
  · rw [h.starting]
    exact hunjoinable.notStarting
  · intro j key flight hflight
    rw [h.flights] at hflight
    split_ifs at hflight
    exact hunjoinable.flights j key flight hflight
  · rw [Unjoined, h.calls]
    exact hunjoinable.unjoined

theorem unjoinable_step (h : s.Sound) (hunjoinable : Unjoinable n calls s)
    (hstep : s.step defaultTtlMs action = some t) : Unjoinable n calls t := by
  have hphases (m : ℕ) (phase : Phase) : Unjoinable n calls (s.setPhase m phase) := by
    refine ⟨?_, hunjoinable.notStarting, hunjoinable.flights, hunjoinable.unjoined⟩
    rw [setPhase, List.length_modify]
    exact hunjoinable.begun
  cases action with
  | get key now =>
    obtain rfl := Option.some.inj hstep
    exact hunjoinable.withStore
  | change i change =>
    obtain rfl := Option.some.inj hstep
    obtain ⟨-, keys, hwithdrawn, -⟩ := sound_withdraw (i := i) h change.covers
    exact (hwithdrawn.unjoinable hunjoinable).withStore
  | wrap i key opts now =>
    obtain rfl := Option.some.inj hstep
    refine ⟨hunjoinable.begun, hunjoinable.notStarting, hunjoinable.flights, ?_⟩
    intro m call hm hcall
    rw [List.getElem?_append] at hcall
    split_ifs at hcall
    · exact hunjoinable.unjoined m call hm hcall
    · rw [List.getElem?_singleton] at hcall
      split_ifs at hcall
      obtain rfl := Option.some.inj hcall
      rintro ⟨⟩
  | resume n clock =>
    obtain ⟨call, -, hstep⟩ := Option.bind_eq_some_iff.mp hstep
    split_ifs at hstep with hready
    obtain rfl := Option.some.inj hstep
    exact unjoinable_resume hunjoinable
  | register =>
    obtain ⟨m, hstarting, hstep⟩ := Option.bind_eq_some_iff.mp hstep
    obtain ⟨load, hload, hstep⟩ := Option.bind_eq_some_iff.mp hstep
    obtain rfl := Option.some.inj hstep
    refine ⟨(hphases m .running).begun, by rintro ⟨⟩, fun j key flight hflight => ?_,
      hunjoinable.unjoined⟩
    have hget : (s.register m load).inflight j = if j = load.cache then
        (s.inflight load.cache).set load.key ⟨m, load.opts.tagList⟩ else s.inflight j :=
      get_setFlights
    rw [hget] at hflight
    split_ifs at hflight
    · rw [InsertionMap.get_set] at hflight
      split_ifs at hflight
      · obtain rfl := Option.some.inj hflight
        rintro rfl
        exact hunjoinable.notStarting hstarting
      · exact hunjoinable.flights _ key flight hflight
    · exact hunjoinable.flights j key flight hflight
  | settle m value clock now =>
    obtain ⟨load, hload, hstep⟩ := Option.bind_eq_some_iff.mp hstep
    split_ifs at hstep with hready
    obtain rfl := Option.some.inj hstep
    rcases settle_cases defaultTtlMs s m load value clock now with heq | ⟨_, -, -, heq⟩
    · rw [heq]
      exact hphases m .settled
    · rw [heq]
      exact (hphases m .settled).withStore
  | finish m =>
    obtain ⟨load, hload, hstep⟩ := Option.bind_eq_some_iff.mp hstep
    split_ifs at hstep with hready
    obtain rfl := Option.some.inj hstep
    rcases finish_cases s m load with ⟨_, -, -, heq⟩ | ⟨-, heq⟩
    · rw [heq]
      refine ⟨(hphases m .finished).begun, hunjoinable.notStarting, fun j key flight hflight => ?_,
        hunjoinable.unjoined⟩
      rw [get_setFlights] at hflight
      split_ifs at hflight
      · rw [InsertionMap.get_delete] at hflight
        split_ifs at hflight
        exact hunjoinable.flights _ key flight hflight
      · exact hunjoinable.flights j key flight hflight
    · rw [heq]
      exact hphases m .finished

theorem unjoinable_change (h : s.Sound) (hload : s.loads[n]? = some load)
    (hcovers : change.coversLoad load = true) (hstarting : s.starting ≠ some n)
    (hcache : load.cache = i) :
    Unjoinable n s.calls.length (s.change defaultTtlMs i change) := by
  obtain ⟨-, keys, hwithdrawn, hkeys⟩ := sound_withdraw (i := i) h change.covers
  obtain ⟨load', hload', -⟩ := hwithdrawn.loads.ticket ⟨load, hload, rfl⟩
  refine Unjoinable.withStore ⟨(List.getElem?_eq_some_iff.mp hload').1, ?_, ?_, ?_⟩
  · rwa [hwithdrawn.starting]
  · intro j key flight hflight hn
    rw [hwithdrawn.flights] at hflight
    split_ifs at hflight with hgone
    obtain ⟨owner, howner, hcache', hkey', htags', -⟩ := h.flights j key flight hflight
    obtain rfl := Option.some.inj (hload.symm.trans (hn ▸ howner))
    obtain rfl := hcache'.symm.trans hcache
    refine hgone ⟨rfl, hkeys key flight hflight ?_⟩
    rw [← hkey', ← htags']
    exact hcovers
  · intro m call hm hcall
    rw [hwithdrawn.calls, List.getElem?_eq_none hm] at hcall
    cases hcall

theorem final_of_meets (h : s.Sound) (hlands : Lands defaultTtlMs s i change)
    (hmeets : ∀ (n : ℕ) (load : Load), s.starting = some n → s.loads[n]? = some load →
      load.cache = i → change.coversLoad load = false) : Final defaultTtlMs s i change := by
  intro n load hload hcovers rest t hrun
  have hsound : (s.change defaultTtlMs i change).Sound := sound_change h
  constructor
  · have hspent := Runs.run_invariant
      (I := fun u => Sound u ∧ Spent n load.toTicket u)
      (fun u action v hu hv => ⟨sound_step hu.1 hv, spent_step hu.1 hu.2 hv⟩) hrun
      ⟨hsound, spent_change h hlands hload hcovers⟩
    exact hspent.2.unstored
  · intro hcache
    have hstarting : s.starting ≠ some n := by
      intro hstart
      have hfalse := hmeets n load hstart hload hcache
      rw [hcovers] at hfalse
      cases hfalse
    have hunjoinable := Runs.run_invariant
      (I := fun u => Sound u ∧ Unjoinable n s.calls.length u)
      (fun u action v hu hv => ⟨sound_step hu.1 hv, unjoinable_step hu.1 hu.2 hv⟩) hrun
      ⟨hsound, unjoinable_change h hload hcovers hstarting hcache⟩
    exact hunjoinable.2.unjoined

theorem joins_starting (defaultTtlMs : ℕ → ℤ) (h : s.Sound) (hstarting : s.starting = some n) :
    ∃ rest t, Runs.run (step defaultTtlMs) s rest = some t ∧
      ∃ call, t.calls[s.calls.length]? = some call ∧ call.phase = .joined n := by
  obtain ⟨load, hload, -, -⟩ := h.started n hstarting
  -- late enough for the row of the key to have expired
  let late : ℤ := ((s.store.rows.get load.key).map fun row => row.expiresAt).getD 0
  have hmiss : ((s.register n load).store.get load.key late).2 = none := by
    simp only [MemoryCache.get]
    split
    · rfl
    · next row hrow =>
      have hrow' : s.store.rows.get load.key = some row := hrow
      have hlate : late = row.expiresAt := by
        simp only [late, hrow', Option.map_some, Option.getD_some]
      rw [if_pos hlate.ge]
  let waiting : Caches V :=
    { s.register n load with
      store := ((s.register n load).store.get load.key late).1,
      calls := s.calls ++ [⟨load.cache, load.key, load.opts, none, .reading⟩] }
  have hjoined : (waiting.load load.cache load.key load.opts).2 = n := by
    have hget : (waiting.inflight load.cache).get load.key = some ⟨n, load.opts.tagList⟩ := by
      have hflights : waiting.inflight load.cache =
          (s.inflight load.cache).set load.key ⟨n, load.opts.tagList⟩ :=
        get_setFlights.trans (if_pos rfl)
      rw [hflights, InsertionMap.get_set, if_pos rfl]
    simp only [Caches.load, hget]
  have hsame : (waiting.load load.cache load.key load.opts).1.calls = waiting.calls := by
    simp only [Caches.load]
    split <;> rfl
  refine ⟨[.register, .wrap load.cache load.key load.opts late, .resume s.calls.length 0],
    waiting.resume s.calls.length ⟨load.cache, load.key, load.opts, none, .reading⟩ 0, ?_, ?_⟩
  · have hregister : s.step defaultTtlMs .register = some (s.register n load) := by
      simp only [step, hstarting, hload, Option.bind_eq_bind, Option.bind_some]
    have hwrap : (s.register n load).step defaultTtlMs
        (.wrap load.cache load.key load.opts late) = some waiting := by
      simp only [step, waiting, ← hmiss]
      rfl
    have hcall : waiting.calls[s.calls.length]? =
        some ⟨load.cache, load.key, load.opts, none, .reading⟩ := List.getElem?_concat_length
    have hresume : waiting.step defaultTtlMs (.resume s.calls.length 0) =
        some (waiting.resume s.calls.length ⟨load.cache, load.key, load.opts, none, .reading⟩ 0) := by
      simp only [step, hcall, Option.bind_eq_bind, Option.bind_some]
      exact if_pos ⟨trivial, rfl⟩
    exact Runs.run_cons_iff.mpr ⟨_, hregister, Runs.run_cons_iff.mpr ⟨_, hwrap,
      Runs.run_cons_iff.mpr ⟨_, hresume, rfl⟩⟩⟩
  · refine ⟨⟨load.cache, load.key, load.opts, none, .joined n⟩, ?_, rfl⟩
    simp only [resume, setCall, hsame, hjoined, List.getElem?_modify]
    simp [waiting]

theorem lawful_iff_meets (h : s.Sound) (action : Action V) :
    Lawful defaultTtlMs s action ↔ Meets defaultTtlMs s action := by
  constructor
  · rintro ⟨-, hfinal⟩ i change rfl hlands n load hstarting hload hcache
    by_contra hcovers
    rw [Bool.not_eq_false] at hcovers
    have hsound : (s.change defaultTtlMs i change).Sound := sound_change h
    obtain ⟨-, keys, hwithdrawn, -⟩ := sound_withdraw (i := i) h change.covers
    have hstill : (s.change defaultTtlMs i change).starting = some n :=
      hwithdrawn.starting.trans hstarting
    have hcalls : (s.change defaultTtlMs i change).calls = s.calls := hwithdrawn.calls
    obtain ⟨rest, t, hrun, call, hcall, hjoined⟩ := joins_starting defaultTtlMs hsound hstill
    rw [hcalls] at hcall
    have hunjoined := (hfinal i change rfl hlands n load hload hcovers rest t hrun).2 hcache
    exact hunjoined _ call le_rfl hcall hjoined
  · intro hmeets
    refine ⟨fun t hstep => (sound_step h hstep).exclusive, fun i change haction hlands => ?_⟩
    exact final_of_meets h hlands (hmeets i change haction hlands)

/-- In every run of the caches over one store, changes are final and a key has one load exactly
when no loader changes what it loads itself, through its own cache and before its first await. -/
theorem changes_final_iff (defaultTtlMs : ℕ → ℤ) (maxEntries : ℕ) (actions : List (Action V)) :
    Runs.Along (step defaultTtlMs) (Lawful defaultTtlMs) (create maxEntries) actions ↔
      Runs.Along (step defaultTtlMs) (Meets defaultTtlMs) (create maxEntries) actions :=
  Runs.along_congr (I := Sound) (fun _ _ _ h _ hstep => sound_step h hstep)
    (fun _ action h => lawful_iff_meets h action) (sound_create maxEntries) actions

/-- A loader removes its own key before its first await: the removal does not see the load, and a
call that comes after it joins the load and gets what was loaded before. -/
theorem joined_after_remove :
    let opts : SetOptions := ⟨some 1000, none, none⟩
    let before : List (Action ℕ) := [.wrap 0 (js "k") opts 0, .resume 0 0]
    let later : List (Action ℕ) := [.register, .wrap 0 (js "k") opts 0, .resume 1 0]
    (∃ s t, Runs.run (step fun _ => 0) (create 10) before = some s ∧ s.loads.length = 1 ∧
      s.step (fun _ => 0) (.change 0 (.remove (js "k"))) = some t ∧
      (Runs.run (step fun _ => 0) t later).map (fun u => u.calls.map Call.phase) =
        some [.joined 0, .joined 0]) ∧
      ¬Runs.Along (step fun _ => 0) (Lawful fun _ => 0) (create 10)
        (before ++ [.change 0 (.remove (js "k"))]) := by
  intro opts before later
  obtain ⟨s, hrun, hloads⟩ : ∃ s, Runs.run (step fun _ => 0) (create 10) before = some s ∧
      s.loads = [⟨⟨0, js "k", opts, 0⟩, false, .starting⟩] :=
    ⟨_, rfl, rfl⟩
  have hcalls : ((Runs.run (step fun _ => 0) (create 10) before).bind fun s =>
      (Runs.run (step fun _ => 0) (s.change (fun _ => 0) 0 (.remove (js "k"))) later).map fun u =>
        (s.calls.length, u.calls.map Call.phase)) = some (1, [.joined 0, .joined 0]) := by
    decide +kernel
  rw [hrun, Option.bind_some] at hcalls
  obtain ⟨u, hlater, hphases⟩ := Option.map_eq_some_iff.mp hcalls
  obtain ⟨hlength, hphases⟩ := Prod.mk.inj hphases
  refine ⟨⟨s, _, hrun, congrArg List.length hloads, rfl, ?_⟩, fun hlawful => ?_⟩
  · rw [hlater, Option.map_some, hphases]
  · have hremove := (hlawful.at hrun).2 0 (.remove (js "k")) rfl rfl
    have hunjoined := (hremove 0 _ (congrArg (fun loads => loads[0]?) hloads) rfl later u hlater).2 rfl
    have hsecond : (u.calls.map Call.phase)[1]? = some (.joined 0) := congrArg (fun l => l[1]?) hphases
    rw [List.getElem?_map, Option.map_eq_some_iff] at hsecond
    obtain ⟨call, hcall, hjoined⟩ := hsecond
    exact hunjoined 1 call hlength.le hcall hjoined

end Caches

end Nifra.Cache
