import Mathlib.Data.List.Nodup
import Nifra.Query.Entry

/-! # The entry of an infinite query

A load of pages takes a new generation, and an invalidation frees the slot, so that the next load
joins none from before. The rest is as for a query of one page.
-/

namespace Nifra.Query.Paged

variable {D E : Type}

structure Entry (D E : Type) where
  staleTime : ℤ
  state : QueryState D E
  promise : Option Flight
  generation : ℕ
  answeredFor : Option ℕ
  invalidated : Bool
  subscribers : ℤ

/-- An entry with the count of visitors, the loads in flight, the loads that wait for one for the
next visitor, and whether a result was published since the entry was made or cleared. -/
structure Cell (D E : Type) where
  entry : Entry D E
  visitor : ℕ
  flights : List Flight
  waiting : List Flight
  published : Bool

def Cell.make (staleTime : ℤ) (visitor : ℕ) : Cell D E where
  entry := ⟨staleTime, .pending, none, 0, none, false, 0⟩
  visitor := visitor
  flights := []
  waiting := []
  published := false

namespace Cell

/-- The part of `runPaged` that builds pages. What it builds, and from which pages, shows in its
answer alone. -/
def start (c : Cell D E) : Cell D E :=
  let flight : Flight := ⟨c.entry.generation + 1, c.visitor⟩
  { c with
    entry := { c.entry with
      generation := flight.gen
      state := c.entry.state.fetching
      promise := some flight }
    flights := c.flights ++ [flight] }

def runPaged (c : Cell D E) : Cell D E := if c.entry.promise.isSome then c else c.start

/-- `fetchFirst`, not forced -/
def fetchFirst (c : Cell D E) (now : ℤ) : Cell D E :=
  if c.entry.state.status = .success ∧ (c.entry.invalidated = false ∧
      c.entry.state.isStale c.entry.staleTime now = false) ∧ c.entry.state.data.isSome then c
  else c.runPaged

/-- `fetchNextPage` and `fetchPreviousPage`, where the page's own function says whether there is
one. -/
def fetchPage (c : Cell D E) (more : Bool) (now : ℤ) : Cell D E :=
  if c.entry.state.data.isNone then c.fetchFirst now
  else if more then c.runPaged
  else c

def supersede (c : Cell D E) : Cell D E :=
  { c with entry := { c.entry with generation := c.entry.generation + 1, promise := none } }

def again (c : Cell D E) (flight : Flight) : Cell D E :=
  let c := if flight.gen = c.entry.generation then c.supersede else c
  if c.entry.promise = none ∧ c.entry.answeredFor = some c.visitor ∧ c.entry.invalidated = false ∧
      (c.entry.state.status = .error ∨ c.entry.state.data.isSome) then c
  else c.runPaged

def publish (c : Cell D E) (flight : Flight) (now : ℤ) : Except E D → Cell D E
  | .ok data =>
    { c with
      entry := { c.entry with
        invalidated := false
        answeredFor := some flight.seen
        state := .success data now }
      published := true }
  | .error error =>
    { c with
      entry := { c.entry with
        answeredFor := some flight.seen
        state := c.entry.state.failed error }
      published := true }

def release (c : Cell D E) (flight : Flight) : Cell D E :=
  if flight.gen = c.entry.generation then { c with entry := { c.entry with promise := none } } else c

def land (c : Cell D E) (flight : Flight) (result : Except E D) (now : ℤ) : Cell D E :=
  let c := { c with flights := c.flights.erase flight }
  if flight.seen ≠ c.visitor then
    let c := c.again flight
    { c with waiting := c.waiting ++ [flight] }
  else if flight.gen = c.entry.generation then (c.publish flight now result).release flight
  else c.release flight

/-- `reset`, at a change of the visitor -/
def forget (c : Cell D E) : Cell D E :=
  let c := { c with visitor := c.visitor + 1, published := false }.supersede
  { c with entry := { c.entry with invalidated := true, state := .pending } }

def outlive (c : Cell D E) : Cell D E := { c with visitor := c.visitor + 1 }

def invalidate (c : Cell D E) (changed : Bool) : Cell D E :=
  let c := { c with entry := { c.entry with invalidated := true } }.supersede
  if 0 < c.entry.subscribers then (if changed then c.forget else c).runPaged else c

/-- A snapshot of the server is taken unless the entry holds data as fresh. -/
def seed (c : Cell D E) (data : D) (updatedAt : ℤ) : Cell D E :=
  if c.entry.state.status = .success ∧ c.entry.state.updatedAt.any (updatedAt ≤ ·) then c
  else { c with entry := { c.entry with state := .success data updatedAt }, published := true }

def resubscribe (c : Cell D E) (change : ℤ) : Cell D E :=
  { c with entry := { c.entry with subscribers := c.entry.subscribers + change } }

def rebind (c : Cell D E) (staleTime : ℤ) : Cell D E :=
  { c with entry := { c.entry with staleTime := staleTime } }

end Cell

inductive Event (D E : Type)
  | fetch (now : ℤ)
  | reload
  | fetchPage (more : Bool) (now : ℤ)
  | land (flight : Flight) (result : Except E D) (now : ℤ)
  | answer (flight : Flight)
  | invalidate (changed : Bool)
  | seed (data : D) (updatedAt : ℤ)
  | forget
  | outlive
  | subscribe
  | unsubscribe
  | rebind (staleTime : ℤ)

def step (c : Cell D E) : Event D E → Option (Cell D E)
  | .fetch now => some (c.fetchFirst now)
  | .reload => some c.runPaged
  | .fetchPage more now => some (c.fetchPage more now)
  | .land flight result now =>
    if flight ∈ c.flights then some (c.land flight result now) else none
  | .answer flight =>
    if flight ∈ c.waiting then
      some ({ c with waiting := c.waiting.erase flight }.release flight)
    else none
  | .invalidate changed => some (c.invalidate changed)
  | .seed data updatedAt => some (c.seed data updatedAt)
  | .forget => some c.forget
  | .outlive => some c.outlive
  | .subscribe => some (c.resubscribe 1)
  | .unsubscribe => some (c.resubscribe (-1))
  | .rebind staleTime => some (c.rebind staleTime)

structure Counted (c : Cell D E) : Prop where
  nodup : (c.flights.map Flight.gen).Nodup
  flights_le : ∀ flight ∈ c.flights, flight.gen ≤ c.entry.generation
  seen_le : ∀ flight ∈ c.flights, flight.seen ≤ c.visitor
  waiting_lt : ∀ flight ∈ c.waiting, flight.gen < c.entry.generation
  answered_le : ∀ seen ∈ c.entry.answeredFor, seen ≤ c.visitor
  published : c.published = true → c.entry.state.status ≠ .pending

/-- The slot holds a load of the current generation that is in flight, for no visitor before the one
that was answered last, and a flag without a load in the slot has been invalidated. -/
structure Sound (c : Cell D E) : Prop extends Counted c where
  slot : ∀ flight ∈ c.entry.promise, flight.gen = c.entry.generation ∧ flight ∈ c.flights
  answered : ∀ seen ∈ c.entry.answeredFor, ∀ flight ∈ c.flights,
    flight.gen = c.entry.generation → seen ≤ flight.seen
  flag : c.entry.state.isFetching = true → c.entry.invalidated = false → c.entry.promise.isSome

variable {c : Cell D E}

theorem sound_make (staleTime : ℤ) (visitor : ℕ) : Sound (Cell.make staleTime visitor : Cell D E) :=
  ⟨⟨List.nodup_nil, nofun, nofun, nofun, nofun, nofun⟩, nofun, nofun, nofun⟩

theorem Counted.start (h : Counted c) : Sound c.start := by
  refine ⟨⟨?_, ?_, ?_, ?_, h.answered_le, h.published⟩, ?_, ?_, fun _ _ => rfl⟩
  · rw [Cell.start, List.map_append, List.nodup_append']
    refine ⟨h.nodup, List.nodup_singleton _, ?_⟩
    rw [List.map_singleton, List.disjoint_singleton]
    intro hgen
    obtain ⟨flight, hflight, heq⟩ := List.mem_map.mp hgen
    exact Nat.ne_of_lt (Nat.lt_succ_of_le (h.flights_le flight hflight)) heq
  · intro flight hflight
    rcases List.mem_append.mp hflight with hflight | hflight
    · exact (h.flights_le flight hflight).trans (Nat.le_succ _)
    · rw [List.mem_singleton.mp hflight]
      exact le_rfl
  · intro flight hflight
    rcases List.mem_append.mp hflight with hflight | hflight
    · exact h.seen_le flight hflight
    · rw [List.mem_singleton.mp hflight]
      exact le_rfl
  · exact fun flight hflight => (h.waiting_lt flight hflight).trans (Nat.lt_succ_self _)
  · intro flight hflight
    obtain rfl := Option.some.inj hflight
    exact ⟨rfl, List.mem_append_right _ (List.mem_singleton_self _)⟩
  · intro seen hseen flight hflight hgen
    rcases List.mem_append.mp hflight with hflight | hflight
    · exact absurd hgen (Nat.ne_of_lt (Nat.lt_succ_of_le (h.flights_le flight hflight)))
    · rw [List.mem_singleton.mp hflight]
      exact h.answered_le seen hseen

theorem Sound.runPaged (h : Sound c) : Sound c.runPaged := by
  unfold Cell.runPaged
  split_ifs
  · exact h
  · exact h.start

theorem Sound.fetchFirst (h : Sound c) (now : ℤ) : Sound (c.fetchFirst now) := by
  unfold Cell.fetchFirst
  split_ifs
  · exact h
  · exact h.runPaged

theorem Sound.fetchPage (h : Sound c) (more : Bool) (now : ℤ) : Sound (c.fetchPage more now) := by
  unfold Cell.fetchPage
  split_ifs
  · exact h.fetchFirst now
  · exact h.runPaged
  · exact h

theorem Counted.supersede (h : Counted c) : Counted c.supersede := by
  refine ⟨h.nodup, ?_, h.seen_le, ?_, h.answered_le, h.published⟩
  · exact fun flight hflight => (h.flights_le flight hflight).trans (Nat.le_succ _)
  · exact fun flight hflight => (h.waiting_lt flight hflight).trans (Nat.lt_succ_self _)

theorem Counted.sound_supersede (h : Counted c)
    (hflag : c.entry.state.isFetching = true → c.entry.invalidated = true) : Sound c.supersede := by
  refine ⟨h.supersede, nofun, ?_, ?_⟩
  · intro seen _ flight hflight hgen
    exact absurd hgen (Nat.ne_of_lt (Nat.lt_succ_of_le (h.flights_le flight hflight)))
  · intro hfetching hvalid
    have hmarked := hflag hfetching
    have hvalid : c.entry.invalidated = false := hvalid
    rw [hvalid] at hmarked
    cases hmarked

theorem Sound.forget (h : Sound c) : Sound c.forget := by
  have hcounted : Counted { c with visitor := c.visitor + 1, published := false } := by
    refine ⟨h.nodup, h.flights_le, ?_, h.waiting_lt, ?_, nofun⟩
    · exact fun flight hflight => (h.seen_le flight hflight).trans (Nat.le_succ _)
    · exact fun seen hseen => (h.answered_le seen hseen).trans (Nat.le_succ _)
  have hsuperseded := hcounted.supersede
  refine ⟨⟨hsuperseded.nodup, hsuperseded.flights_le, hsuperseded.seen_le, hsuperseded.waiting_lt,
    hsuperseded.answered_le, nofun⟩, nofun, ?_, nofun⟩
  intro seen _ flight hflight hgen
  exact absurd hgen (Nat.ne_of_lt (Nat.lt_succ_of_le (h.flights_le flight hflight)))

theorem Sound.outlive (h : Sound c) : Sound c.outlive := by
  refine ⟨⟨h.nodup, h.flights_le, ?_, h.waiting_lt, ?_, h.published⟩, h.slot, h.answered, h.flag⟩
  · exact fun flight hflight => (h.seen_le flight hflight).trans (Nat.le_succ _)
  · exact fun seen hseen => (h.answered_le seen hseen).trans (Nat.le_succ _)

theorem Sound.invalidate (h : Sound c) (changed : Bool) : Sound (c.invalidate changed) := by
  have hmarked : Sound { c with entry := { c.entry with invalidated := true } }.supersede := by
    have hcounted : Counted { c with entry := { c.entry with invalidated := true } } :=
      ⟨h.nodup, h.flights_le, h.seen_le, h.waiting_lt, h.answered_le, h.published⟩
    exact hcounted.sound_supersede fun _ => rfl
  simp only [Cell.invalidate]
  split_ifs
  · exact hmarked.forget.runPaged
  · exact hmarked.runPaged
  · exact hmarked

theorem Sound.seed (h : Sound c) (data : D) (updatedAt : ℤ) : Sound (c.seed data updatedAt) := by
  unfold Cell.seed
  split_ifs
  · exact h
  · exact ⟨⟨h.nodup, h.flights_le, h.seen_le, h.waiting_lt, h.answered_le, nofun⟩, h.slot, h.answered,
      nofun⟩

theorem Sound.resubscribe (h : Sound c) (change : ℤ) : Sound (c.resubscribe change) :=
  ⟨⟨h.nodup, h.flights_le, h.seen_le, h.waiting_lt, h.answered_le, h.published⟩, h.slot, h.answered,
    h.flag⟩

theorem Sound.rebind (h : Sound c) (staleTime : ℤ) : Sound (c.rebind staleTime) :=
  ⟨⟨h.nodup, h.flights_le, h.seen_le, h.waiting_lt, h.answered_le, h.published⟩, h.slot, h.answered,
    h.flag⟩

theorem Counted.erase (h : Counted c) (flight : Flight) :
    Counted { c with flights := c.flights.erase flight } := by
  refine ⟨h.nodup.sublist (List.erase_sublist.map _), ?_, ?_, h.waiting_lt, h.answered_le,
    h.published⟩
  · exact fun other hother => h.flights_le other (List.mem_of_mem_erase hother)
  · exact fun other hother => h.seen_le other (List.mem_of_mem_erase hother)

theorem Sound.erase (h : Sound c) {flight : Flight} (hne : flight.gen ≠ c.entry.generation) :
    Sound { c with flights := c.flights.erase flight } := by
  refine ⟨h.toCounted.erase flight, ?_, ?_, h.flag⟩
  · intro other hother
    obtain ⟨hgen, hmem⟩ := h.slot other hother
    refine ⟨hgen, (List.mem_erase_of_ne ?_).mpr hmem⟩
    rintro rfl
    exact hne hgen
  · exact fun seen hseen other hother => h.answered seen hseen other (List.mem_of_mem_erase hother)

theorem generation_runPaged_le (c : Cell D E) : c.entry.generation ≤ c.runPaged.entry.generation := by
  unfold Cell.runPaged
  split_ifs
  · exact le_rfl
  · exact Nat.le_succ _

/-- A load that still holds the slot for a visitor who left starts the next one; a superseded one
answers with what there is, or joins or starts a load. -/
theorem Sound.again (h : Sound c) {flight : Flight} (hmem : flight ∈ c.flights)
    (hseen : flight.seen ≠ c.visitor) :
    Sound ({ c with flights := c.flights.erase flight }.again flight) ∧
      flight.gen < ({ c with flights := c.flights.erase flight }.again flight).entry.generation := by
  have hle := h.flights_le flight hmem
  simp only [Cell.again]
  by_cases hgen : flight.gen = c.entry.generation
  · simp only [if_pos hgen]
    have hlate : c.entry.answeredFor ≠ some c.visitor := by
      intro hanswered
      have hearly := h.answered c.visitor hanswered flight hmem hgen
      exact hseen (le_antisymm (h.seen_le flight hmem) hearly)
    rw [if_neg fun hdone => hlate hdone.2.1]
    have hcounted := (h.toCounted.erase flight).supersede
    unfold Cell.runPaged
    rw [if_neg (by simp [Cell.supersede])]
    refine ⟨hcounted.start, ?_⟩
    exact lt_of_le_of_lt hle (Nat.lt_succ_of_le (Nat.le_succ _))
  · simp only [if_neg hgen]
    have hsound := h.erase hgen
    split_ifs
    · exact ⟨hsound, lt_of_le_of_ne hle hgen⟩
    · exact ⟨hsound.runPaged, lt_of_lt_of_le (lt_of_le_of_ne hle hgen)
        (generation_runPaged_le { c with flights := c.flights.erase flight })⟩

theorem Sound.land (h : Sound c) {flight : Flight} (hmem : flight ∈ c.flights)
    (result : Except E D) (now : ℤ) : Sound (c.land flight result now) := by
  simp only [Cell.land]
  split_ifs with hseen hgen
  · obtain ⟨hsound, hlt⟩ := h.again hmem hseen
    refine ⟨⟨hsound.nodup, hsound.flights_le, hsound.seen_le, ?_, hsound.answered_le, hsound.published⟩,
      hsound.slot, hsound.answered, hsound.flag⟩
    exact List.forall_mem_append.mpr ⟨hsound.waiting_lt, List.forall_mem_singleton.mpr hlt⟩
  · -- the answer is published, and the slot is free
    have hcounted := h.toCounted.erase flight
    have hseen : flight.seen = c.visitor := not_not.mp hseen
    have hanswered : ∀ seen ∈ some flight.seen, seen ≤ c.visitor := by
      rintro seen ⟨⟩
      exact hseen.le
    have hlater : ∀ seen ∈ some flight.seen, ∀ other ∈ c.flights.erase flight,
        other.gen = c.entry.generation → seen ≤ other.seen := by
      intro _ _ other hother hcurrent
      obtain ⟨hne, hother⟩ := (h.nodup.of_map _).mem_erase_iff.mp hother
      exact (hne (List.inj_on_of_nodup_map h.nodup hother hmem (hcurrent.trans hgen.symm))).elim
    unfold Cell.release
    cases result with
    | ok data =>
      rw [if_pos (by exact hgen)]
      exact ⟨⟨hcounted.nodup, hcounted.flights_le, hcounted.seen_le, hcounted.waiting_lt, hanswered,
        fun _ => nofun⟩, nofun, hlater, nofun⟩
    | error error =>
      rw [if_pos (by exact hgen)]
      exact ⟨⟨hcounted.nodup, hcounted.flights_le, hcounted.seen_le, hcounted.waiting_lt, hanswered,
        fun _ => nofun⟩, nofun, hlater, nofun⟩
  · have hrelease : { c with flights := c.flights.erase flight }.release flight =
        { c with flights := c.flights.erase flight } := if_neg hgen
    rw [hrelease]
    exact h.erase hgen

theorem Sound.answer (h : Sound c) {flight : Flight} (hmem : flight ∈ c.waiting) :
    Sound ({ c with waiting := c.waiting.erase flight }.release flight) := by
  have hrelease : { c with waiting := c.waiting.erase flight }.release flight =
      { c with waiting := c.waiting.erase flight } :=
    if_neg (Nat.ne_of_lt (h.waiting_lt flight hmem))
  rw [hrelease]
  refine ⟨⟨h.nodup, h.flights_le, h.seen_le, ?_, h.answered_le, h.published⟩, h.slot, h.answered,
    h.flag⟩
  exact fun other hother => h.waiting_lt other (List.mem_of_mem_erase hother)

theorem Sound.step {t : Cell D E} {e : Event D E} (h : Sound c) (hstep : step c e = some t) :
    Sound t := by
  cases e with
  | fetch now => exact Option.some.inj hstep ▸ h.fetchFirst now
  | reload => exact Option.some.inj hstep ▸ h.runPaged
  | fetchPage more now => exact Option.some.inj hstep ▸ h.fetchPage more now
  | land flight result now =>
    simp only [Paged.step] at hstep
    split_ifs at hstep with hmem
    exact Option.some.inj hstep ▸ h.land hmem result now
  | answer flight =>
    simp only [Paged.step] at hstep
    split_ifs at hstep with hmem
    exact Option.some.inj hstep ▸ h.answer hmem
  | invalidate changed => exact Option.some.inj hstep ▸ h.invalidate changed
  | seed data updatedAt => exact Option.some.inj hstep ▸ h.seed data updatedAt
  | forget => exact Option.some.inj hstep ▸ h.forget
  | outlive => exact Option.some.inj hstep ▸ h.outlive
  | subscribe => exact Option.some.inj hstep ▸ h.resubscribe 1
  | unsubscribe => exact Option.some.inj hstep ▸ h.resubscribe (-1)
  | rebind staleTime => exact Option.some.inj hstep ▸ h.rebind staleTime

def Truthful (c : Cell D E) : Prop := c.flights = [] → c.entry.state.isFetching = false

/-- The last load in flight lands for the visitor of now, superseded, while the flag is up. -/
def Strands (c : Cell D E) : Event D E → Prop
  | .land flight _ _ => c.flights = [flight] ∧ flight.seen = c.visitor ∧
      flight.gen ≠ c.entry.generation ∧ c.entry.state.isFetching = true
  | _ => False

theorem Truthful.runPaged (h : Truthful c) : Truthful c.runPaged := by
  unfold Cell.runPaged
  split_ifs
  · exact h
  · intro hflights
    exact (List.append_ne_nil_of_right_ne_nil _ (List.cons_ne_nil _ _) hflights).elim

theorem Truthful.fetchFirst (h : Truthful c) (now : ℤ) : Truthful (c.fetchFirst now) := by
  unfold Cell.fetchFirst
  split_ifs
  · exact h
  · exact h.runPaged

theorem Truthful.fetchPage (h : Truthful c) (more : Bool) (now : ℤ) :
    Truthful (c.fetchPage more now) := by
  unfold Cell.fetchPage
  split_ifs
  · exact h.fetchFirst now
  · exact h.runPaged
  · exact h

theorem Truthful.invalidate (h : Truthful c) (changed : Bool) : Truthful (c.invalidate changed) := by
  have hmarked : Truthful { c with entry := { c.entry with invalidated := true } }.supersede := h
  have hcleared : Truthful
      { c with entry := { c.entry with invalidated := true } }.supersede.forget := fun _ => rfl
  simp only [Cell.invalidate]
  split_ifs
  · exact hcleared.runPaged
  · exact hmarked.runPaged
  · exact hmarked

theorem flights_runPaged (hslot : ∀ flight ∈ c.entry.promise, flight ∈ c.flights) :
    c.runPaged.flights ≠ [] := by
  unfold Cell.runPaged
  split_ifs with hpromise
  · obtain ⟨flight, hflight⟩ := Option.isSome_iff_exists.mp hpromise
    exact List.ne_nil_of_mem (hslot flight hflight)
  · exact List.append_ne_nil_of_right_ne_nil _ (List.cons_ne_nil _ _)

theorem Sound.truthful_again (h : Sound c) {flight : Flight} (hmem : flight ∈ c.flights)
    (hseen : flight.seen ≠ c.visitor) :
    Truthful ({ c with flights := c.flights.erase flight }.again flight) := by
  simp only [Cell.again]
  by_cases hgen : flight.gen = c.entry.generation
  · simp only [if_pos hgen]
    have hlate : c.entry.answeredFor ≠ some c.visitor := by
      intro hanswered
      have hearly := h.answered c.visitor hanswered flight hmem hgen
      exact hseen (le_antisymm (h.seen_le flight hmem) hearly)
    rw [if_neg fun hdone => hlate hdone.2.1]
    exact fun hflights => (flights_runPaged (by simp [Cell.supersede]) hflights).elim
  · simp only [if_neg hgen]
    have hsound := h.erase hgen
    split_ifs with hdone
    · intro _
      by_contra hfetching
      have hslot := hsound.flag (Bool.of_not_eq_false hfetching) hdone.2.2.1
      rw [hdone.1] at hslot
      cases hslot
    · exact fun hflights => (flights_runPaged (fun other hother => (hsound.slot other hother).2)
        hflights).elim

theorem flights_release (flight : Flight) : (c.release flight).flights = c.flights := by
  unfold Cell.release
  split_ifs <;> rfl

theorem state_release (flight : Flight) : (c.release flight).entry.state = c.entry.state := by
  unfold Cell.release
  split_ifs <;> rfl

theorem Sound.truthful_land (h : Sound c) {flight : Flight} {result : Except E D} {now : ℤ}
    (hmem : flight ∈ c.flights) (hstrands : ¬ Strands c (.land flight result now)) :
    Truthful (c.land flight result now) := by
  simp only [Cell.land]
  split_ifs with hseen hgen
  · exact h.truthful_again hmem hseen
  · intro _
    rw [state_release]
    cases result <;> rfl
  · intro hflights
    rw [flights_release] at hflights
    rw [state_release]
    by_contra hfetching
    have hone : c.flights = [flight] := by
      have hnil : c.flights.erase flight = [] := hflights
      have hperm := List.perm_cons_erase hmem
      rw [hnil] at hperm
      exact List.perm_singleton.mp hperm
    exact hstrands ⟨hone, not_not.mp hseen, hgen, Bool.of_not_eq_false hfetching⟩

theorem Sound.truthful_step (h : Sound c) (ht : Truthful c) {e : Event D E} {t : Cell D E}
    (hstep : Paged.step c e = some t) (hstrands : ¬ Strands c e) : Truthful t := by
  cases e with
  | fetch now => exact Option.some.inj hstep ▸ ht.fetchFirst now
  | reload => exact Option.some.inj hstep ▸ ht.runPaged
  | fetchPage more now => exact Option.some.inj hstep ▸ ht.fetchPage more now
  | land flight result now =>
    simp only [Paged.step] at hstep
    split_ifs at hstep with hmem
    exact Option.some.inj hstep ▸ h.truthful_land hmem hstrands
  | answer flight =>
    simp only [Paged.step] at hstep
    split_ifs at hstep with hmem
    obtain rfl := Option.some.inj hstep
    intro hflights
    rw [flights_release] at hflights
    rw [state_release]
    exact ht hflights
  | invalidate changed => exact Option.some.inj hstep ▸ ht.invalidate changed
  | seed data updatedAt =>
    obtain rfl := Option.some.inj hstep
    unfold Cell.seed
    split_ifs
    · exact ht
    · exact fun _ => rfl
  | forget => exact Option.some.inj hstep ▸ fun _ => rfl
  | outlive => exact Option.some.inj hstep ▸ ht
  | subscribe => exact Option.some.inj hstep ▸ ht
  | unsubscribe => exact Option.some.inj hstep ▸ ht
  | rebind staleTime => exact Option.some.inj hstep ▸ ht

theorem not_truthful_of_strands {e : Event D E} (h : Strands c e) :
    ∃ t, Paged.step c e = some t ∧ ¬ Truthful t := by
  cases e with
  | land flight result now =>
    obtain ⟨hflights, hseen, hgen, hfetching⟩ := h
    refine ⟨_, if_pos (hflights ▸ List.mem_singleton_self flight), fun ht => ?_⟩
    simp only [Cell.land, if_neg (not_not.mpr hseen), if_neg hgen] at ht
    have hdown := ht (by rw [flights_release, hflights, List.erase_cons_head])
    rw [state_release, hfetching] at hdown
    cases hdown
  | fetch | reload | fetchPage | answer | invalidate | seed | forget | outlive | subscribe
  | unsubscribe | rebind => exact h.elim

theorem truthful_run_iff (staleTime : ℤ) (visitor : ℕ) (events : List (Event D E)) :
    (∀ front, front <+: events → ∀ t, Runs.run Paged.step (.make staleTime visitor) front = some t →
      Truthful t) ↔
    Runs.Along Paged.step (fun c e => ¬ Strands c e) (.make staleTime visitor) events := by
  refine Runs.forall_reached_iff_along (fun _ _ _ h hstep => Sound.step h hstep)
    (fun _ _ _ h ht hstrands hstep => h.truthful_step ht hstep hstrands)
    (fun _ _ _ hstrands => not_truthful_of_strands (not_not.mp hstrands))
    (sound_make staleTime visitor) (fun _ => rfl) events

theorem not_published_of_pending {staleTime : ℤ} {visitor : ℕ} {events : List (Event D E)}
    (hrun : Runs.run Paged.step (.make staleTime visitor) events = some c)
    (hpending : c.entry.state.status = .pending) : c.published = false := by
  have hsound : Sound c :=
    Runs.run_invariant (fun _ _ _ h hstep => Sound.step h hstep) hrun (sound_make staleTime visitor)
  by_contra hpublished
  exact hsound.published (Bool.of_not_eq_false hpublished) hpending

end Nifra.Query.Paged

namespace Nifra.Query

variable {D E : Type}

/-- The flag of a query, plain or infinite, tells the truth at rest in every state of a run exactly
when no load of the run strands it; and a query is pending only while nothing was published. -/
theorem isFetching_truthful_iff (staleTime : ℤ) (visitor : ℕ) (events : List (Event D E))
    (pagedEvents : List (Paged.Event D E)) :
    ((∀ front, front <+: events → ∀ t, Runs.run step (.make staleTime visitor) front = some t →
        Truthful t ∧ (t.entry.state.status = .pending → t.published = false)) ↔
      Runs.Along step (fun c e => ¬ Strands c e) (.make staleTime visitor) events) ∧
    ((∀ front, front <+: pagedEvents → ∀ t,
        Runs.run Paged.step (.make staleTime visitor) front = some t →
        Paged.Truthful t ∧ (t.entry.state.status = .pending → t.published = false)) ↔
      Runs.Along Paged.step (fun c e => ¬ Paged.Strands c e) (.make staleTime visitor)
        pagedEvents) := by
  constructor
  · rw [← truthful_run_iff]
    constructor
    · exact fun h front hfront t ht => (h front hfront t ht).1
    · exact fun h front hfront t ht => ⟨h front hfront t ht, not_published_of_pending ht⟩
  · rw [← Paged.truthful_run_iff]
    constructor
    · exact fun h front hfront t ht => (h front hfront t ht).1
    · exact fun h front hfront t ht => ⟨h front hfront t ht, Paged.not_published_of_pending ht⟩

/-- A prefetch that an invalidation supersedes leaves the flag up. -/
theorem not_truthful_prefetch : ¬ ∀ (events : List (Event ℕ ℕ)) (t : Cell ℕ ℕ),
    Runs.run step (.make 0 0) events = some t → Truthful t := by
  intro h
  have hdown := h [.run false 0 none, .invalidate false 1 none, .land ⟨0, 0⟩ (.ok 7) 2 none] _ rfl rfl
  cases hdown

end Nifra.Query
