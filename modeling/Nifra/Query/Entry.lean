import Mathlib.Algebra.Order.Ring.Int
import Mathlib.Data.List.Basic
import Nifra.Lib.Runs

/-! # The entry of a query

Calls of the fetcher answer in any order. A call that an invalidation superseded publishes nothing,
and one that loaded for a visitor who has left answers as the next load does.
-/

namespace Nifra.Query

inductive QueryStatus
  | pending
  | success
  | error
  deriving DecidableEq

/-- What a binding renders. Data that was never set was set at no time. -/
structure QueryState (D E : Type) where
  status : QueryStatus
  data : Option D
  error : Option E
  isFetching : Bool
  updatedAt : Option ℤ

variable {D E : Type}

def QueryState.pending : QueryState D E := ⟨.pending, none, none, false, none⟩

def QueryState.success (data : D) (updatedAt : ℤ) : QueryState D E :=
  ⟨.success, some data, none, false, some updatedAt⟩

def QueryState.failed (state : QueryState D E) (error : E) : QueryState D E :=
  { state with status := .error, error := some error, isFetching := false }

def QueryState.fetching (state : QueryState D E) : QueryState D E := { state with isFetching := true }

def QueryState.isStale (state : QueryState D E) (staleTime now : ℤ) : Bool :=
  match state.updatedAt with
  | none => true
  | some updatedAt => decide (staleTime ≤ now - updatedAt)

/-- A call of the fetcher: the generation it started at and the visitor it loads for. -/
structure Flight where
  gen : ℕ
  seen : ℕ
  deriving DecidableEq

structure Entry (D E : Type) where
  staleTime : ℤ
  state : QueryState D E
  promise : Option Flight
  promiseGen : ℕ
  generation : ℕ
  answeredFor : Option ℕ
  invalidated : Bool
  subscribers : ℤ

/-- An entry with the count of visitors, the calls in flight, the calls that wait for a load for the
next visitor, and whether a result was published since the entry was made or cleared. -/
structure Cell (D E : Type) where
  entry : Entry D E
  visitor : ℕ
  flights : List Flight
  waiting : List Flight
  published : Bool

def Cell.make (staleTime : ℤ) (visitor : ℕ) : Cell D E where
  entry := ⟨staleTime, .pending, none, 0, 0, none, false, 0⟩
  visitor := visitor
  flights := []
  waiting := []
  published := false

namespace Cell

/-- The part of `run` that calls the fetcher. One that throws before it returns a promise is done
before its call takes the slot, which then holds a call that has failed. -/
def start (c : Cell D E) (thrown : Option E) : Cell D E :=
  let flight : Flight := ⟨c.entry.generation, c.visitor⟩
  let state := c.entry.state.fetching
  let entry := { c.entry with promise := some flight, promiseGen := flight.gen }
  match thrown with
  | none => { c with entry := { entry with state := state }, flights := c.flights ++ [flight] }
  | some error =>
    { c with
      entry := { entry with answeredFor := some flight.seen, state := state.failed error }
      published := true }

/-- A call joins the load of its own generation, and a fresh entry is not loaded unless forced. -/
def run (c : Cell D E) (force : Bool) (now : ℤ) (thrown : Option E) : Cell D E :=
  if c.entry.promise.isSome ∧ c.entry.promiseGen = c.entry.generation then c
  else if force = false ∧ c.entry.state.status = .success ∧ c.entry.invalidated = false ∧
      c.entry.state.isStale c.entry.staleTime now = false then c
  else c.start thrown

def bump (c : Cell D E) : Cell D E :=
  { c with entry := { c.entry with generation := c.entry.generation + 1 } }

/-- What a call does that loaded for a visitor who has left: it answers as the load for the next one
does, and loads once more if there was none. -/
def again (c : Cell D E) (flight : Flight) (now : ℤ) (thrown : Option E) : Cell D E :=
  let c := if flight.gen = c.entry.generation then c.bump else c
  if c.entry.promise = none ∧ c.entry.answeredFor = some c.visitor ∧ c.entry.invalidated = false ∧
      c.entry.state.status ≠ .pending then c
  else c.run true now thrown

def publish (c : Cell D E) (flight : Flight) (now : ℤ) : Except E D → Cell D E
  | .ok data =>
    { c with
      entry := { c.entry with
        invalidated := false
        answeredFor := some flight.seen
        state := .success data now }
      published := true }
  | .error error =>
    { c with
      entry := { c.entry with
        answeredFor := some flight.seen
        state := c.entry.state.failed error }
      published := true }

def release (c : Cell D E) (flight : Flight) : Cell D E :=
  if c.entry.promiseGen = flight.gen then { c with entry := { c.entry with promise := none } } else c

def land (c : Cell D E) (flight : Flight) (result : Except E D) (now : ℤ)
    (thrown : Option E) : Cell D E :=
  let c := { c with flights := c.flights.erase flight }
  if flight.seen ≠ c.visitor then
    let c := c.again flight now thrown
    { c with waiting := c.waiting ++ [flight] }
  else if flight.gen = c.entry.generation then (c.publish flight now result).release flight
  else c.release flight

def forget (c : Cell D E) : Cell D E :=
  { c with
    visitor := c.visitor + 1
    entry := { c.entry with
      generation := c.entry.generation + 1
      invalidated := true
      state := .pending }
    published := false }

def outlive (c : Cell D E) : Cell D E := { c with visitor := c.visitor + 1 }

/-- `invalidateEntry`, where the read of the epoch before the reload may find a new visitor. -/
def invalidate (c : Cell D E) (changed : Bool) (now : ℤ) (thrown : Option E) : Cell D E :=
  let c := { c with entry := { c.entry with invalidated := true } }.bump
  if 0 < c.entry.subscribers then (if changed then c.forget else c).run true now thrown else c

def write (c : Cell D E) (data : D) (now : ℤ) : Cell D E :=
  let c := c.bump
  { c with
    entry := { c.entry with invalidated := false, state := .success data now }
    published := true }

/-- A snapshot of the server is taken unless the entry holds fresher data. -/
def hydrate (c : Cell D E) (data : D) (updatedAt : ℤ) : Cell D E :=
  if c.entry.state.status ≠ .success ∨ c.entry.state.updatedAt.all (· < updatedAt) then
    { c with entry := { c.entry with state := .success data updatedAt }, published := true }
  else c

def resubscribe (c : Cell D E) (change : ℤ) : Cell D E :=
  { c with entry := { c.entry with subscribers := c.entry.subscribers + change } }

/-- `upsert` of a key that exists. -/
def rebind (c : Cell D E) (staleTime : ℤ) : Cell D E :=
  { c with entry := { c.entry with staleTime := staleTime } }

end Cell

/-- What may happen to an entry. A forced run is a refetch or the reload for a change; what a
fetcher throws at once comes with the event that calls it. -/
inductive Event (D E : Type)
  | run (force : Bool) (now : ℤ) (thrown : Option E)
  | land (flight : Flight) (result : Except E D) (now : ℤ) (thrown : Option E)
  | answer (flight : Flight)
  | invalidate (changed : Bool) (now : ℤ) (thrown : Option E)
  | write (data : D) (now : ℤ)
  | hydrate (data : D) (updatedAt : ℤ)
  | forget
  | outlive
  | subscribe
  | unsubscribe
  | rebind (staleTime : ℤ)

def step (c : Cell D E) : Event D E → Option (Cell D E)
  | .run force now thrown => some (c.run force now thrown)
  | .land flight result now thrown =>
    if flight ∈ c.flights then some (c.land flight result now thrown) else none
  | .answer flight =>
    if flight ∈ c.waiting then
      some ({ c with waiting := c.waiting.erase flight }.release flight)
    else none
  | .invalidate changed now thrown => some (c.invalidate changed now thrown)
  | .write data now => some (c.write data now)
  | .hydrate data updatedAt => some (c.hydrate data updatedAt)
  | .forget => some c.forget
  | .outlive => some c.outlive
  | .subscribe => some (c.resubscribe 1)
  | .unsubscribe => some (c.resubscribe (-1))
  | .rebind staleTime => some (c.rebind staleTime)

structure Counted (c : Cell D E) : Prop where
  promiseGen_le : c.entry.promiseGen ≤ c.entry.generation
  flights_le : ∀ flight ∈ c.flights, flight.gen ≤ c.entry.generation
  waiting_lt : ∀ flight ∈ c.waiting, flight.gen < c.entry.generation
  current : c.entry.promise.isSome → c.entry.promiseGen = c.entry.generation →
    c.entry.state.isFetching = true → ∃ flight ∈ c.flights, flight.gen = c.entry.generation
  published : c.published = true → c.entry.state.status ≠ .pending

structure Sound (c : Cell D E) : Prop extends Counted c where
  slot : c.entry.state.isFetching = true → c.entry.invalidated = false →
    c.entry.promise.isSome ∧ c.entry.promiseGen = c.entry.generation

variable {c : Cell D E}

theorem sound_make (staleTime : ℤ) (visitor : ℕ) :
    Sound (Cell.make staleTime visitor : Cell D E) := by
  refine ⟨⟨le_rfl, nofun, nofun, nofun, nofun⟩, nofun⟩

theorem Counted.start (h : Counted c) (thrown : Option E) : Sound (c.start thrown) := by
  cases thrown with
  | none =>
    refine ⟨⟨le_rfl, ?_, h.waiting_lt, ?_, h.published⟩, fun _ _ => ⟨rfl, rfl⟩⟩
    · intro flight hflight
      rcases List.mem_append.mp hflight with hflight | hflight
      · exact h.flights_le flight hflight
      · rw [List.mem_singleton.mp hflight]
        exact le_rfl
    · intro _ _ _
      exact ⟨_, List.mem_append_right _ (List.mem_singleton_self _), rfl⟩
  | some error =>
    refine ⟨⟨le_rfl, h.flights_le, h.waiting_lt, ?_, ?_⟩, ?_⟩
    · intro _ _ hfetching
      cases hfetching
    · rintro -
      exact nofun
    · intro hfetching
      cases hfetching

theorem Sound.run (h : Sound c) (force : Bool) (now : ℤ) (thrown : Option E) :
    Sound (c.run force now thrown) := by
  unfold Cell.run
  split_ifs
  · exact h
  · exact h
  · exact h.start thrown

theorem Counted.bump (h : Counted c) : Counted c.bump := by
  constructor
  · exact h.promiseGen_le.trans (Nat.le_succ _)
  · exact fun flight hflight => (h.flights_le flight hflight).trans (Nat.le_succ _)
  · exact fun flight hflight => (h.waiting_lt flight hflight).trans (Nat.lt_succ_self _)
  · intro _ hcurrent
    exact absurd hcurrent (Nat.ne_of_lt (Nat.lt_succ_of_le h.promiseGen_le))
  · exact h.published

theorem Sound.forget (h : Sound c) : Sound c.forget := by
  refine ⟨⟨?_, ?_, ?_, nofun, nofun⟩, nofun⟩
  · exact h.promiseGen_le.trans (Nat.le_succ _)
  · exact fun flight hflight => (h.flights_le flight hflight).trans (Nat.le_succ _)
  · exact fun flight hflight => (h.waiting_lt flight hflight).trans (Nat.lt_succ_self _)

theorem Sound.invalidate (h : Sound c) (changed : Bool) (now : ℤ) (thrown : Option E) :
    Sound (c.invalidate changed now thrown) := by
  have hmarked : Sound { c with entry := { c.entry with invalidated := true } }.bump := by
    have hcounted : Counted { c with entry := { c.entry with invalidated := true } } :=
      ⟨h.promiseGen_le, h.flights_le, h.waiting_lt, h.current, h.published⟩
    exact ⟨hcounted.bump, nofun⟩
  simp only [Cell.invalidate]
  split_ifs
  · exact hmarked.forget.run true now thrown
  · exact hmarked.run true now thrown
  · exact hmarked

theorem Sound.write (h : Sound c) (data : D) (now : ℤ) : Sound (c.write data now) := by
  refine ⟨⟨?_, ?_, ?_, nofun, nofun⟩, nofun⟩
  · exact h.promiseGen_le.trans (Nat.le_succ _)
  · exact fun flight hflight => (h.flights_le flight hflight).trans (Nat.le_succ _)
  · exact fun flight hflight => (h.waiting_lt flight hflight).trans (Nat.lt_succ_self _)

theorem Sound.hydrate (h : Sound c) (data : D) (updatedAt : ℤ) : Sound (c.hydrate data updatedAt) := by
  unfold Cell.hydrate
  split_ifs
  · exact ⟨⟨h.promiseGen_le, h.flights_le, h.waiting_lt, nofun, nofun⟩, nofun⟩
  · exact h

theorem Sound.resubscribe (h : Sound c) (change : ℤ) : Sound (c.resubscribe change) :=
  ⟨⟨h.promiseGen_le, h.flights_le, h.waiting_lt, h.current, h.published⟩, h.slot⟩

theorem Sound.outlive (h : Sound c) : Sound c.outlive :=
  ⟨⟨h.promiseGen_le, h.flights_le, h.waiting_lt, h.current, h.published⟩, h.slot⟩

theorem Sound.rebind (h : Sound c) (staleTime : ℤ) : Sound (c.rebind staleTime) :=
  ⟨⟨h.promiseGen_le, h.flights_le, h.waiting_lt, h.current, h.published⟩, h.slot⟩

theorem Sound.release (h : Sound c) {flight : Flight} (hne : flight.gen ≠ c.entry.generation) :
    Sound (c.release flight) := by
  unfold Cell.release
  split_ifs with hgen
  · refine ⟨⟨h.promiseGen_le, h.flights_le, h.waiting_lt, nofun, h.published⟩, ?_⟩
    intro hfetching hvalid
    exact absurd (hgen.symm.trans (h.slot hfetching hvalid).2) hne
  · exact h

theorem Counted.erase (h : Counted c) {flight : Flight} (hne : flight.gen ≠ c.entry.generation) :
    Counted { c with flights := c.flights.erase flight } := by
  refine ⟨h.promiseGen_le, ?_, h.waiting_lt, ?_, h.published⟩
  · exact fun other hother => h.flights_le other (List.mem_of_mem_erase hother)
  · intro hpromise hcurrent hfetching
    obtain ⟨other, hother, hgen⟩ := h.current hpromise hcurrent hfetching
    refine ⟨other, (List.mem_erase_of_ne ?_).mpr hother, hgen⟩
    rintro rfl
    exact hne hgen

theorem Counted.erase_bump (h : Counted c) (flight : Flight) :
    Counted { c with flights := c.flights.erase flight }.bump := by
  refine ⟨h.promiseGen_le.trans (Nat.le_succ _), ?_, ?_, ?_, h.published⟩
  · exact fun other hother =>
      (h.flights_le other (List.mem_of_mem_erase hother)).trans (Nat.le_succ _)
  · exact fun other hother => (h.waiting_lt other hother).trans (Nat.lt_succ_self _)
  · intro _ hcurrent
    exact absurd hcurrent (Nat.ne_of_lt (Nat.lt_succ_of_le h.promiseGen_le))

theorem generation_run (force : Bool) (now : ℤ) (thrown : Option E) :
    (c.run force now thrown).entry.generation = c.entry.generation := by
  unfold Cell.run Cell.start
  split_ifs
  · rfl
  · rfl
  · cases thrown <;> rfl

theorem Counted.run (h : Counted c) (now : ℤ) (thrown : Option E) :
    Sound (c.run true now thrown) := by
  unfold Cell.run
  split_ifs with hjoins hfresh
  · exact ⟨h, fun _ _ => hjoins⟩
  · cases hfresh.1
  · exact h.start thrown

theorem Sound.again (h : Sound c) {flight : Flight} (hmem : flight ∈ c.flights) (now : ℤ)
    (thrown : Option E) :
    Sound ({ c with flights := c.flights.erase flight }.again flight now thrown) ∧
      flight.gen < ({ c with flights := c.flights.erase flight }.again flight now
        thrown).entry.generation := by
  have hle := h.flights_le flight hmem
  have hnone : c.entry.promise = none → c.entry.state.isFetching = true →
      c.entry.invalidated = false → False := by
    intro hpromise hfetching hvalid
    have hslot := (h.slot hfetching hvalid).1
    rw [hpromise] at hslot
    cases hslot
  simp only [Cell.again]
  by_cases hgen : flight.gen = c.entry.generation
  · simp only [if_pos hgen]
    have hcounted := h.erase_bump flight
    split_ifs with hanswered
    · exact ⟨⟨hcounted, fun hfetching hvalid => (hnone hanswered.1 hfetching hvalid).elim⟩,
        Nat.lt_succ_of_le hle⟩
    · refine ⟨hcounted.run now thrown, ?_⟩
      rw [generation_run]
      exact Nat.lt_succ_of_le hle
  · simp only [if_neg hgen]
    have hcounted := h.erase hgen
    split_ifs with hanswered
    · exact ⟨⟨hcounted, fun hfetching hvalid => (hnone hanswered.1 hfetching hvalid).elim⟩,
        lt_of_le_of_ne hle hgen⟩
    · refine ⟨hcounted.run now thrown, ?_⟩
      rw [generation_run]
      exact lt_of_le_of_ne hle hgen

theorem Sound.land (h : Sound c) {flight : Flight} (hmem : flight ∈ c.flights)
    (result : Except E D) (now : ℤ) (thrown : Option E) :
    Sound (c.land flight result now thrown) := by
  simp only [Cell.land]
  split_ifs with hseen hgen
  · obtain ⟨hsound, hlt⟩ := h.again hmem now thrown
    refine ⟨⟨hsound.promiseGen_le, hsound.flights_le, ?_, hsound.current, hsound.published⟩,
      hsound.slot⟩
    exact List.forall_mem_append.mpr ⟨hsound.waiting_lt, List.forall_mem_singleton.mpr hlt⟩
  · -- the result is published, and the flag goes down
    have hflights : ∀ other ∈ c.flights.erase flight, other.gen ≤ c.entry.generation :=
      fun other hother => h.flights_le other (List.mem_of_mem_erase hother)
    cases result with
    | ok data =>
      unfold Cell.release Cell.publish
      split_ifs
      · exact ⟨⟨h.promiseGen_le, hflights, h.waiting_lt, nofun, fun _ => nofun⟩, nofun⟩
      · exact ⟨⟨h.promiseGen_le, hflights, h.waiting_lt, nofun, fun _ => nofun⟩, nofun⟩
    | error error =>
      unfold Cell.release Cell.publish
      split_ifs
      · exact ⟨⟨h.promiseGen_le, hflights, h.waiting_lt, nofun, fun _ => nofun⟩, nofun⟩
      · exact ⟨⟨h.promiseGen_le, hflights, h.waiting_lt, nofun, fun _ => nofun⟩, nofun⟩
  · have hsound : Sound { c with flights := c.flights.erase flight } := ⟨h.erase hgen, h.slot⟩
    exact hsound.release hgen

theorem Sound.answer (h : Sound c) {flight : Flight} (hmem : flight ∈ c.waiting) :
    Sound ({ c with waiting := c.waiting.erase flight }.release flight) := by
  have hsound : Sound { c with waiting := c.waiting.erase flight } :=
    ⟨⟨h.promiseGen_le, h.flights_le,
      fun other hother => h.waiting_lt other (List.mem_of_mem_erase hother), h.current, h.published⟩,
      h.slot⟩
  exact hsound.release (Nat.ne_of_lt (h.waiting_lt flight hmem))

theorem Sound.step {t : Cell D E} {e : Event D E} (h : Sound c) (hstep : step c e = some t) :
    Sound t := by
  cases e with
  | run force now thrown => exact Option.some.inj hstep ▸ h.run force now thrown
  | land flight result now thrown =>
    simp only [Query.step] at hstep
    split_ifs at hstep with hmem
    exact Option.some.inj hstep ▸ h.land hmem result now thrown
  | answer flight =>
    simp only [Query.step] at hstep
    split_ifs at hstep with hmem
    exact Option.some.inj hstep ▸ h.answer hmem
  | invalidate changed now thrown => exact Option.some.inj hstep ▸ h.invalidate changed now thrown
  | write data now => exact Option.some.inj hstep ▸ h.write data now
  | hydrate data updatedAt => exact Option.some.inj hstep ▸ h.hydrate data updatedAt
  | forget => exact Option.some.inj hstep ▸ h.forget
  | outlive => exact Option.some.inj hstep ▸ h.outlive
  | subscribe => exact Option.some.inj hstep ▸ h.resubscribe 1
  | unsubscribe => exact Option.some.inj hstep ▸ h.resubscribe (-1)
  | rebind staleTime => exact Option.some.inj hstep ▸ h.rebind staleTime

def Truthful (c : Cell D E) : Prop := c.flights = [] → c.entry.state.isFetching = false

/-- The last call in flight lands for the visitor of now, superseded, while the flag is up. -/
def Strands (c : Cell D E) : Event D E → Prop
  | .land flight _ _ _ => c.flights = [flight] ∧ flight.seen = c.visitor ∧
      flight.gen ≠ c.entry.generation ∧ c.entry.state.isFetching = true
  | _ => False

theorem Truthful.start (thrown : Option E) : Truthful (c.start thrown) := by
  intro hflights
  cases thrown with
  | none => exact (List.append_ne_nil_of_right_ne_nil _ (List.cons_ne_nil _ _) hflights).elim
  | some error => rfl

theorem Truthful.run (h : Truthful c) (force : Bool) (now : ℤ) (thrown : Option E) :
    Truthful (c.run force now thrown) := by
  unfold Cell.run
  split_ifs
  · exact h
  · exact h
  · exact .start thrown

theorem Truthful.invalidate (h : Truthful c) (changed : Bool) (now : ℤ) (thrown : Option E) :
    Truthful (c.invalidate changed now thrown) := by
  have hmarked : Truthful { c with entry := { c.entry with invalidated := true } }.bump := h
  have hcleared : Truthful
      { c with entry := { c.entry with invalidated := true } }.bump.forget := fun _ => rfl
  simp only [Cell.invalidate]
  split_ifs
  · exact hcleared.run true now thrown
  · exact hmarked.run true now thrown
  · exact hmarked

theorem Counted.truthful_run (h : Counted c) (now : ℤ) (thrown : Option E) :
    Truthful (c.run true now thrown) := by
  unfold Cell.run
  split_ifs with hjoins hfresh
  · intro hflights
    by_contra hfetching
    obtain ⟨flight, hflight, -⟩ := h.current hjoins.1 hjoins.2 (Bool.of_not_eq_false hfetching)
    rw [hflights] at hflight
    cases hflight
  · cases hfresh.1
  · exact .start thrown

theorem Sound.truthful_again (h : Sound c) (flight : Flight) (now : ℤ) (thrown : Option E) :
    Truthful ({ c with flights := c.flights.erase flight }.again flight now thrown) := by
  have hanswered : c.entry.promise = none → c.entry.invalidated = false →
      c.entry.state.isFetching = false := by
    intro hpromise hvalid
    by_contra hfetching
    have hslot := (h.slot (Bool.of_not_eq_false hfetching) hvalid).1
    rw [hpromise] at hslot
    cases hslot
  simp only [Cell.again]
  by_cases hgen : flight.gen = c.entry.generation
  · simp only [if_pos hgen]
    split_ifs with hdone
    · exact fun _ => hanswered hdone.1 hdone.2.2.1
    · exact (h.erase_bump flight).truthful_run now thrown
  · simp only [if_neg hgen]
    split_ifs with hdone
    · exact fun _ => hanswered hdone.1 hdone.2.2.1
    · exact (h.erase hgen).truthful_run now thrown

theorem flights_release (flight : Flight) : (c.release flight).flights = c.flights := by
  unfold Cell.release
  split_ifs <;> rfl

theorem state_release (flight : Flight) :
    (c.release flight).entry.state = c.entry.state := by
  unfold Cell.release
  split_ifs <;> rfl

theorem Sound.truthful_land (h : Sound c) {flight : Flight} {result : Except E D} {now : ℤ}
    {thrown : Option E} (hmem : flight ∈ c.flights)
    (hstrands : ¬ Strands c (.land flight result now thrown)) :
    Truthful (c.land flight result now thrown) := by
  simp only [Cell.land]
  split_ifs with hseen hgen
  · exact h.truthful_again flight now thrown
  · intro _
    rw [state_release]
    cases result <;> rfl
  · intro hflights
    rw [flights_release] at hflights
    rw [state_release]
    by_contra hfetching
    have hone : c.flights = [flight] := by
      have hnil : c.flights.erase flight = [] := hflights
      have hperm := List.perm_cons_erase hmem
      rw [hnil] at hperm
      exact List.perm_singleton.mp hperm
    exact hstrands ⟨hone, not_not.mp hseen, hgen, Bool.of_not_eq_false hfetching⟩

theorem Sound.truthful_step (h : Sound c) (ht : Truthful c) {e : Event D E} {t : Cell D E}
    (hstep : Query.step c e = some t) (hstrands : ¬ Strands c e) : Truthful t := by
  cases e with
  | run force now thrown => exact Option.some.inj hstep ▸ ht.run force now thrown
  | land flight result now thrown =>
    simp only [Query.step] at hstep
    split_ifs at hstep with hmem
    exact Option.some.inj hstep ▸ h.truthful_land hmem hstrands
  | answer flight =>
    simp only [Query.step] at hstep
    split_ifs at hstep with hmem
    obtain rfl := Option.some.inj hstep
    intro hflights
    rw [flights_release] at hflights
    rw [state_release]
    exact ht hflights
  | invalidate changed now thrown => exact Option.some.inj hstep ▸ ht.invalidate changed now thrown
  | write data now => exact Option.some.inj hstep ▸ fun _ => rfl
  | hydrate data updatedAt =>
    obtain rfl := Option.some.inj hstep
    unfold Cell.hydrate
    split_ifs
    · exact fun _ => rfl
    · exact ht
  | forget => exact Option.some.inj hstep ▸ fun _ => rfl
  | outlive => exact Option.some.inj hstep ▸ ht
  | subscribe => exact Option.some.inj hstep ▸ ht
  | unsubscribe => exact Option.some.inj hstep ▸ ht
  | rebind staleTime => exact Option.some.inj hstep ▸ ht

theorem not_truthful_of_strands {e : Event D E} (h : Strands c e) :
    ∃ t, Query.step c e = some t ∧ ¬ Truthful t := by
  cases e with
  | land flight result now thrown =>
    obtain ⟨hflights, hseen, hgen, hfetching⟩ := h
    refine ⟨_, if_pos (hflights ▸ List.mem_singleton_self flight), fun ht => ?_⟩
    simp only [Cell.land, if_neg (not_not.mpr hseen), if_neg hgen] at ht
    have hdown := ht (by rw [flights_release, hflights, List.erase_cons_head])
    rw [state_release, hfetching] at hdown
    cases hdown
  | run | answer | invalidate | write | hydrate | forget | outlive | subscribe | unsubscribe | rebind =>
    exact h.elim

theorem truthful_run_iff (staleTime : ℤ) (visitor : ℕ) (events : List (Event D E)) :
    (∀ front, front <+: events → ∀ t, Runs.run Query.step (.make staleTime visitor) front = some t →
      Truthful t) ↔
    Runs.Along Query.step (fun c e => ¬ Strands c e) (.make staleTime visitor) events := by
  refine Runs.forall_reached_iff_along (fun _ _ _ h hstep => Sound.step h hstep)
    (fun _ _ _ h ht hstrands hstep => h.truthful_step ht hstep hstrands)
    (fun _ _ _ hstrands => not_truthful_of_strands (not_not.mp hstrands))
    (sound_make staleTime visitor) (fun _ => rfl) events

theorem not_published_of_pending {staleTime : ℤ} {visitor : ℕ} {events : List (Event D E)}
    (hrun : Runs.run Query.step (.make staleTime visitor) events = some c)
    (hpending : c.entry.state.status = .pending) : c.published = false := by
  have hsound : Sound c :=
    Runs.run_invariant (fun _ _ _ h hstep => Sound.step h hstep) hrun (sound_make staleTime visitor)
  by_contra hpublished
  exact hsound.published (Bool.of_not_eq_false hpublished) hpending

/-- The event supersedes the calls of the fetcher that began before it. -/
def Event.Supersedes : Event D E → Prop
  | .invalidate _ _ _ | .write _ _ | .forget | .outlive => True
  | _ => False

/-- Neither the generation nor the count of visitors goes back. -/
structure Advances (c t : Cell D E) : Prop where
  generation : c.entry.generation ≤ t.entry.generation
  visitor : c.visitor ≤ t.visitor

theorem Advances.trans {t u : Cell D E} (h : Advances c t) (h' : Advances t u) : Advances c u :=
  ⟨h.generation.trans h'.generation, h.visitor.trans h'.visitor⟩

theorem advances_run (force : Bool) (now : ℤ) (thrown : Option E) :
    Advances c (c.run force now thrown) := by
  refine ⟨(generation_run force now thrown).ge, ?_⟩
  unfold Cell.run Cell.start
  split_ifs
  · exact le_rfl
  · exact le_rfl
  · cases thrown <;> exact le_rfl

theorem advances_release (flight : Flight) : Advances c (c.release flight) := by
  unfold Cell.release
  split_ifs <;> exact ⟨le_rfl, le_rfl⟩

theorem advances_again (flight : Flight) (now : ℤ) (thrown : Option E) :
    Advances c (c.again flight now thrown) := by
  have hbump : Advances c (if flight.gen = c.entry.generation then c.bump else c) := by
    split_ifs
    · exact ⟨Nat.le_succ _, le_rfl⟩
    · exact ⟨le_rfl, le_rfl⟩
  unfold Cell.again
  dsimp only
  generalize (if flight.gen = c.entry.generation then c.bump else c) = d at hbump ⊢
  split_ifs
  · exact hbump
  · exact hbump.trans (advances_run true now thrown)

theorem advances_land (flight : Flight) (result : Except E D) (now : ℤ) (thrown : Option E) :
    Advances c (c.land flight result now thrown) := by
  unfold Cell.land
  dsimp only
  have herase : Advances c { c with flights := c.flights.erase flight } := ⟨le_rfl, le_rfl⟩
  split_ifs
  · have hagain := herase.trans (advances_again flight now thrown)
    exact ⟨hagain.generation, hagain.visitor⟩
  · have hpublish : Advances c
        ({ c with flights := c.flights.erase flight }.publish flight now result) := by
      cases result <;> exact ⟨le_rfl, le_rfl⟩
    exact hpublish.trans (advances_release flight)
  · exact herase.trans (advances_release flight)

theorem advances_invalidate (changed : Bool) (now : ℤ) (thrown : Option E) :
    Advances c.bump (c.invalidate changed now thrown) := by
  let marked : Cell D E := { c with entry := { c.entry with invalidated := true } }.bump
  unfold Cell.invalidate
  dsimp only
  split_ifs
  · have hforget : Advances c.bump marked.forget := ⟨Nat.le_succ _, Nat.le_succ _⟩
    exact hforget.trans (advances_run true now thrown)
  · have hmarked : Advances c.bump marked := ⟨le_rfl, le_rfl⟩
    exact hmarked.trans (advances_run true now thrown)
  · exact ⟨le_rfl, le_rfl⟩

theorem advances_step {e : Event D E} {t : Cell D E} (hstep : Query.step c e = some t) :
    Advances c t ∧
      (e.Supersedes → c.entry.generation < t.entry.generation ∨ c.visitor < t.visitor) := by
  cases e with
  | run force now thrown =>
    exact Option.some.inj hstep ▸ ⟨advances_run force now thrown, False.elim⟩
  | land flight result now thrown =>
    simp only [Query.step] at hstep
    split_ifs at hstep
    exact Option.some.inj hstep ▸ ⟨advances_land flight result now thrown, False.elim⟩
  | answer flight =>
    simp only [Query.step] at hstep
    split_ifs at hstep
    have hrelease := @advances_release D E { c with waiting := c.waiting.erase flight } flight
    exact Option.some.inj hstep ▸ ⟨⟨hrelease.generation, hrelease.visitor⟩, False.elim⟩
  | invalidate changed now thrown =>
    have hinvalidate := @advances_invalidate D E c changed now thrown
    exact Option.some.inj hstep ▸ ⟨⟨(Nat.le_succ _).trans hinvalidate.generation,
      hinvalidate.visitor⟩, fun _ => Or.inl hinvalidate.generation⟩
  | write data now =>
    exact Option.some.inj hstep ▸ ⟨⟨Nat.le_succ _, le_rfl⟩, fun _ => Or.inl (Nat.lt_succ_self _)⟩
  | hydrate data updatedAt =>
    obtain rfl := Option.some.inj hstep
    unfold Cell.hydrate
    split_ifs <;> exact ⟨⟨le_rfl, le_rfl⟩, False.elim⟩
  | forget =>
    exact Option.some.inj hstep ▸ ⟨⟨Nat.le_succ _, Nat.le_succ _⟩, fun _ =>
      Or.inl (Nat.lt_succ_self _)⟩
  | outlive =>
    exact Option.some.inj hstep ▸ ⟨⟨le_rfl, Nat.le_succ _⟩, fun _ => Or.inr (Nat.lt_succ_self _)⟩
  | subscribe => exact Option.some.inj hstep ▸ ⟨⟨le_rfl, le_rfl⟩, False.elim⟩
  | unsubscribe => exact Option.some.inj hstep ▸ ⟨⟨le_rfl, le_rfl⟩, False.elim⟩
  | rebind staleTime => exact Option.some.inj hstep ▸ ⟨⟨le_rfl, le_rfl⟩, False.elim⟩

theorem advances_events {events : List (Event D E)} {t : Cell D E}
    (hrun : Runs.run Query.step c events = some t) : Advances c t :=
  Runs.run_invariant (fun _ _ _ h hstep => h.trans (advances_step hstep).1) hrun ⟨le_rfl, le_rfl⟩

/-- What a call of the fetcher brings has no effect once an invalidation, a write or a change of the
visitor has come after its start. -/
theorem superseded_call_inert {events : List (Event D E)} {t : Cell D E}
    (hrun : Runs.run Query.step c events = some t) (hlater : ∃ e ∈ events, e.Supersedes)
    (result result' : Except E D) (now : ℤ) (thrown : Option E) :
    t.land ⟨c.entry.generation, c.visitor⟩ result now thrown =
      t.land ⟨c.entry.generation, c.visitor⟩ result' now thrown := by
  obtain ⟨e, he, hsupersedes⟩ := hlater
  obtain ⟨front, back, rfl⟩ := List.append_of_mem he
  obtain ⟨u, hfront, hback⟩ := Runs.run_append_iff.mp hrun
  obtain ⟨v, hstep, hback⟩ := Runs.run_cons_iff.mp hback
  have hbefore := advances_events hfront
  have hafter := advances_events hback
  have hgone : c.entry.generation < t.entry.generation ∨ c.visitor < t.visitor :=
    ((advances_step hstep).2 hsupersedes).imp
      (fun hlt => (hbefore.generation.trans_lt hlt).trans_le hafter.generation)
      fun hlt => (hbefore.visitor.trans_lt hlt).trans_le hafter.visitor
  unfold Cell.land
  dsimp only
  by_cases hseen : c.visitor ≠ t.visitor
  · rw [if_pos hseen, if_pos hseen]
  · have hgen : c.entry.generation ≠ t.entry.generation :=
      (hgone.resolve_right fun hlt => hseen hlt.ne).ne
    rw [if_neg hseen, if_neg hseen, if_neg hgen, if_neg hgen]

theorem superseded_call_inert_write :
    (((Cell.make 0 0 : Cell ℕ ℕ).run false 0 none).write 7 1).land ⟨0, 0⟩ (.error 5) 2 none =
      (((Cell.make 0 0 : Cell ℕ ℕ).run false 0 none).write 7 1).land ⟨0, 0⟩ (.ok 3) 2 none :=
  @superseded_call_inert ℕ ℕ (.make 0 0) [.run false 0 none, .write 7 1] _ rfl
    ⟨.write 7 1, by simp, trivial⟩ (.error 5) (.ok 3) 2 none

end Nifra.Query
