import Nifra.Query.Mutation

/-! # The latest call alone

What one call does never shows in the state of another, and a call that was stopped does nothing
more.
-/

namespace Nifra.Query

open MutationStore

variable {V D E : Type} {s t : MutationStore V D E} {i : ℕ} {call : MutateCall V D E}

def MutateCall.shown (call : MutateCall V D E) : MutationState V D E :=
  match call.outcome with
  | none => ⟨.pending, none, none, some call.vars⟩
  | some (.ok data) => ⟨.success, some data, none, some call.vars⟩
  | some (.error error) => ⟨.error, none, some error, some call.vars⟩

def MutateCall.Settled (call : MutateCall V D E) : Prop := ∃ result, call.place = .done result

def Place.Agrees : Place D E → Option (Except E D) → Prop
  | .pending, outcome | .onMutate, outcome | .mutationFn, outcome => outcome = none
  | .failed error, outcome | .onError error, outcome | .settledError error, outcome =>
    outcome = some (.error error)
  | .published data, outcome | .onSuccess data, outcome | .settledData data _, outcome =>
    outcome = some (.ok data)
  | .done _, _ => True

inductive Progress (call : MutateCall V D E) : Option (Except E D) → List Deed → Prop
  | kept {deeds : List Deed} (hstate : .setState ∉ deeds) (hfailed : .workFailed ∉ deeds)
      (hresolved : .fnResolved ∉ deeds)
      (herror : .onError ∈ deeds → ∃ error, call.outcome = some (.error error)) :
      Progress call call.outcome deeds
  | failed (error : E) {deeds : List Deed} (hnone : call.outcome = none)
      (hfailed : .workFailed ∈ deeds) (hresolved : .fnResolved ∉ deeds) (herror : .onError ∉ deeds) :
      Progress call (some (.error error)) deeds
  | resolved (data : D) {deeds : List Deed} (hnone : call.outcome = none)
      (hresolved : .fnResolved ∈ deeds) (hfailed : .workFailed ∉ deeds)
      (herror : .onError ∉ deeds) :
      Progress call (some (.ok data)) deeds

/-- One step of a call: it takes a place, notes its deeds, and publishes its result if it is the
latest. -/
structure Moved (s t : MutationStore V D E) (i : ℕ) (call : MutateCall V D E) (place : Place D E)
    (outcome : Option (Except E D)) (deeds : List Deed) : Prop where
  calls : t.calls = s.calls.set i { call with place := place, outcome := outcome }
  log : t.log = s.log ++ deeds.map fun deed => (i, deed)
  cancels : t.cancels = s.cancels
  documentEpoch : t.documentEpoch = s.documentEpoch
  identityEpoch : t.identityEpoch = s.identityEpoch
  latest : t.latest = s.latest
  recent : t.recent = s.recent
  browser : t.browser = s.browser
  active : t.active = s.active ∧ t.watching = s.watching ∨
    (∃ result, place = .done result) ∧ t.active = s.active.erase i ∧
      t.watching = (if s.active.erase i = [] then false else s.watching)
  agrees : place.Agrees outcome
  progress : Progress call outcome deeds
  state : t.state = s.state ∧ .setState ∉ deeds ∧ (outcome = call.outcome ∨ call.mine ≠ s.latest) ∨
    .setState ∈ deeds ∧ call.mine = s.latest ∧ t.state = { call with outcome := outcome }.shown

theorem modify_eq_set {f : MutateCall V D E → MutateCall V D E} (hcall : s.calls[i]? = some call) :
    s.calls.modify i f = s.calls.set i (f call) := by
  rw [List.modify_eq_set_getElem?, hcall]
  rfl

theorem moved_goto (hcall : s.calls[i]? = some call) {place : Place D E} {deeds : List Deed}
    (hagrees : place.Agrees call.outcome) (hstate : .setState ∉ deeds)
    (hfailed : .workFailed ∉ deeds) (hresolved : .fnResolved ∉ deeds)
    (herror : .onError ∈ deeds → ∃ error, call.outcome = some (.error error)) :
    Moved s (s.goto i place deeds) i call place call.outcome deeds where
  calls := modify_eq_set hcall
  log := rfl
  cancels := rfl
  documentEpoch := rfl
  identityEpoch := rfl
  latest := rfl
  recent := rfl
  browser := rfl
  active := Or.inl ⟨rfl, rfl⟩
  agrees := hagrees
  progress := .kept hstate hfailed hresolved herror
  state := Or.inl ⟨rfl, hstate, Or.inl rfl⟩

theorem moved_settle (hcall : s.calls[i]? = some call) (result : Except (Rejection E) D) :
    Moved s (s.settle i result) i call (.done result) call.outcome [] := by
  unfold settle stopWatchingWhenIdle
  have hactive : (s.goto i (.done result) []).active.erase i = s.active.erase i := rfl
  simp only [hactive]
  split_ifs with hidle
  · exact ⟨modify_eq_set hcall, rfl, rfl, rfl, rfl, rfl, rfl, rfl,
      Or.inr ⟨⟨result, rfl⟩, rfl, (if_pos hidle).symm⟩, trivial, .kept nofun nofun nofun nofun,
      Or.inl ⟨rfl, nofun, Or.inl rfl⟩⟩
  · exact ⟨modify_eq_set hcall, rfl, rfl, rfl, rfl, rfl, rfl, rfl,
      Or.inr ⟨⟨result, rfl⟩, rfl, (if_neg hidle).symm⟩, trivial, .kept nofun nofun nofun nofun,
      Or.inl ⟨rfl, nofun, Or.inl rfl⟩⟩

theorem moved_fail (hcall : s.calls[i]? = some call) (hnone : call.outcome = none) (error : E) :
    ∃ deeds, Moved s (s.fail i call error) i call (.failed error) (some (.error error)) deeds := by
  simp only [fail, publish]
  split_ifs with hlatest
  · refine ⟨[.workFailed, .setState], modify_eq_set hcall, ?_, rfl, rfl, rfl, rfl, rfl, rfl,
      Or.inl ⟨rfl, rfl⟩, rfl, .failed error hnone (by simp) (by simp) (by simp),
      Or.inr ⟨by simp, hlatest, rfl⟩⟩
    simp [note]
  · exact ⟨[.workFailed], modify_eq_set hcall, rfl, rfl, rfl, rfl, rfl, rfl, rfl,
      Or.inl ⟨rfl, rfl⟩, rfl, .failed error hnone (by simp) (by simp) (by simp),
      Or.inl ⟨rfl, by simp, Or.inr hlatest⟩⟩

theorem moved_succeed (hcall : s.calls[i]? = some call) (hnone : call.outcome = none) (data : D) :
    ∃ deeds, Moved s (s.succeed i call data) i call (.published data) (some (.ok data)) deeds := by
  simp only [succeed, publish]
  split_ifs with hlatest
  · refine ⟨[.fnResolved, .setState], modify_eq_set hcall, ?_, rfl, rfl, rfl, rfl, rfl, rfl,
      Or.inl ⟨rfl, rfl⟩, rfl, .resolved data hnone (by simp) (by simp) (by simp),
      Or.inr ⟨by simp, hlatest, rfl⟩⟩
    simp [note]
  · exact ⟨[.fnResolved], modify_eq_set hcall, rfl, rfl, rfl, rfl, rfl, rfl, rfl,
      Or.inl ⟨rfl, rfl⟩, rfl, .resolved data hnone (by simp) (by simp) (by simp),
      Or.inl ⟨rfl, by simp, Or.inr hlatest⟩⟩

def Moves (s t : MutationStore V D E) (i : ℕ) (call : MutateCall V D E) : Prop :=
  ∃ place outcome deeds, Moved s t i call place outcome deeds

theorem moves_settleError (hcall : s.calls[i]? = some call) {error : E}
    (hagrees : call.outcome = some (.error error)) : Moves s (s.settleError i error) i call := by
  unfold settleError
  split_ifs
  · exact ⟨_, _, _, moved_goto hcall hagrees (by simp) (by simp) (by simp) (by simp)⟩
  · exact ⟨_, _, _, moved_settle hcall _⟩

theorem moves_finish (hcall : s.calls[i]? = some call) (data : D) (settled success : Option E) :
    Moves s (s.finish i data settled success) i call := by
  unfold finish
  split
  · exact ⟨_, _, _, moved_settle hcall _⟩
  · exact ⟨_, _, _, moved_settle hcall _⟩
  · exact ⟨_, _, _, moved_settle hcall _⟩

theorem moves_settleData (hcall : s.calls[i]? = some call) {data : D} {failure : Option E}
    (hagrees : call.outcome = some (.ok data)) :
    Moves s (s.settleData i data failure) i call := by
  unfold settleData
  split_ifs
  · exact ⟨_, _, _, moved_goto hcall hagrees (by simp) (by simp) (by simp) (by simp)⟩
  · exact moves_finish hcall data none failure

theorem not_settled_of_next {answer : Answer D E} (h : s.next i call call.place answer = some t) :
    ¬ call.Settled := by
  rintro ⟨result, hdone⟩
  rw [hdone] at h
  cases answer <;> cases h

theorem moves_next (hcall : s.calls[i]? = some call) (hagrees : call.place.Agrees call.outcome)
    {answer : Answer D E} (h : s.next i call call.place answer = some t) : Moves s t i call := by
  have hfn (hnone : call.outcome = none) : Moves s (s.callMutationFn i) i call :=
    ⟨_, _, _, moved_goto hcall hnone (by simp) (by simp) (by simp) (by simp)⟩
  generalize call.place = place at h hagrees
  unfold next at h
  split at h
  · obtain rfl := Option.some.inj h
    split_ifs
    · exact ⟨_, _, _, moved_goto hcall hagrees (by simp) (by simp) (by simp) (by simp)⟩
    · exact hfn hagrees
  · exact Option.some.inj h ▸ hfn hagrees
  · exact Option.some.inj h ▸ ⟨_, _, moved_fail hcall hagrees _⟩
  · exact Option.some.inj h ▸ ⟨_, _, moved_succeed hcall hagrees _⟩
  · exact Option.some.inj h ▸ ⟨_, _, moved_fail hcall hagrees _⟩
  · obtain rfl := Option.some.inj h
    split_ifs
    · exact ⟨_, _, _, moved_goto hcall hagrees (by simp) (by simp) (by simp) fun _ => ⟨_, hagrees⟩⟩
    · exact moves_settleError hcall hagrees
  · exact Option.some.inj h ▸ moves_settleError hcall hagrees
  · exact Option.some.inj h ▸ ⟨_, _, _, moved_settle hcall _⟩
  · exact Option.some.inj h ▸ ⟨_, _, _, moved_settle hcall _⟩
  · exact Option.some.inj h ▸ ⟨_, _, _, moved_settle hcall _⟩
  · obtain rfl := Option.some.inj h
    split_ifs
    · exact ⟨_, _, _, moved_goto hcall hagrees (by simp) (by simp) (by simp) (by simp)⟩
    · exact moves_settleData hcall hagrees
  · exact Option.some.inj h ▸ moves_settleData hcall hagrees
  · exact Option.some.inj h ▸ moves_settleData hcall hagrees
  · exact Option.some.inj h ▸ moves_finish hcall _ _ _
  · exact Option.some.inj h ▸ moves_finish hcall _ _ _
  · cases h

/-- What a call that goes on may do: a step of its own, to its end where it was aborted, or a
cancellation where its epoch is over. -/
theorem resume_cases {answer : Answer D E} (h : s.resume i answer = some t)
    (hagrees : ∀ call, s.calls[i]? = some call → call.place.Agrees call.outcome) :
    ∃ call, s.calls[i]? = some call ∧ i ∉ s.cancels.flatten ∧ ¬ call.Settled ∧
      (call.aborted = true ∧ t = s.settle i (.error .cancelled) ∨
      call.aborted = false ∧ call.epoch ≠ s.documentEpoch ∧ t = s.cancel ∨
      call.aborted = false ∧ call.epoch = s.documentEpoch ∧ Moves s t i call) := by
  unfold resume at h
  split at h
  · cases h
  · rename_i call hcall
    split_ifs at h with hpending haborted hepoch
    · split at h
      · cases h
      · rename_i hdone
        exact ⟨call, hcall, hpending, fun ⟨result, heq⟩ => hdone result heq,
          Or.inl ⟨haborted, (Option.some.inj h).symm⟩⟩
    · split at h
      · cases h
      · rename_i hdone
        exact ⟨call, hcall, hpending, fun ⟨result, heq⟩ => hdone result heq,
          Or.inr (Or.inl ⟨Bool.of_not_eq_true haborted, hepoch, (Option.some.inj h).symm⟩)⟩
    · exact ⟨call, hcall, hpending, not_settled_of_next h, Or.inr (Or.inr
        ⟨Bool.of_not_eq_true haborted, not_not.mp hepoch, moves_next hcall (hagrees call hcall) h⟩)⟩

def Stopped (s : MutationStore V D E) (i : ℕ) (call : MutateCall V D E) : Prop :=
  call.Settled ∨ call.aborted = true ∨ i ∈ s.cancels.flatten

abbrev MutationStore.HasCall (s : MutationStore V D E) (i : ℕ) (call : MutateCall V D E) : Prop :=
  s.calls[i]? = some call

structure MutationStore.Sound (s : MutationStore V D E) : Prop where
  alive : ∀ i call, s.HasCall i call → Stopped s i call ∨ i ∈ s.active
  active : ∀ i call, s.HasCall i call → i ∈ s.active → call.epoch = s.identityEpoch
  epoch_le : ∀ i call, s.HasCall i call → call.epoch ≤ s.identityEpoch
  identityEpoch_le : s.identityEpoch ≤ s.documentEpoch
  mine_le : ∀ i call, s.HasCall i call → call.mine ≤ s.latest
  mine_inj : ∀ i j call other, s.HasCall i call → s.HasCall j other →
    call.mine = other.mine → i = j
  recent : ∀ i ∈ s.recent, ∃ call, s.HasCall i call ∧ call.mine = s.latest ∧
    s.state = call.shown
  idle : s.recent = none → s.state = .idle
  latest : ∀ i call, s.HasCall i call → call.mine = s.latest →
    s.recent = some i ∨ Stopped s i call
  watched : s.browser = true → s.active ≠ [] → s.watching = true
  watching : s.watching = true → s.active ≠ [] ∨ s.cancels ≠ []
  agrees : ∀ i call, s.HasCall i call → call.place.Agrees call.outcome
  log_lt : ∀ entry ∈ s.log, entry.1 < s.calls.length
  failed : ∀ i call error, s.HasCall i call →
    call.outcome = some (.error error) → (i, Deed.workFailed) ∈ s.log
  onError : ∀ i call, s.HasCall i call → (i, Deed.onError) ∈ s.log →
    ∃ error, call.outcome = some (.error error)
  resolved : ∀ i call, s.HasCall i call → (i, Deed.fnResolved) ∈ s.log →
    ∃ data, call.outcome = some (.ok data)

theorem sound_create (browser : Bool) (callbacks : MutationCallbacks) (documentEpoch : ℕ) :
    (create browser callbacks documentEpoch : MutationStore V D E).Sound := by
  constructor
  case identityEpoch_le => exact le_rfl
  case idle => exact fun _ => rfl
  case watched => exact fun _ h => (h rfl).elim
  case watching => nofun
  case recent => nofun
  case log_lt => nofun
  all_goals
    intros
    contradiction

section Moved
variable {place : Place D E} {outcome : Option (Except E D)} {deeds : List Deed}

theorem Moved.hasCall (hm : Moved s t i call place outcome deeds) (hcall : s.HasCall i call) {j : ℕ}
    {other : MutateCall V D E} : t.HasCall j other ↔
      j = i ∧ other = { call with place := place, outcome := outcome } ∨
        j ≠ i ∧ s.HasCall j other := by
  have hlt : i < s.calls.length := (List.getElem?_eq_some_iff.mp hcall).1
  rw [HasCall, hm.calls, List.getElem?_set]
  by_cases hj : i = j
  · subst hj
    simp [hlt, eq_comm]
  · simp [hj, Ne.symm hj, eq_comm]

theorem Moved.length_calls (hm : Moved s t i call place outcome deeds) :
    t.calls.length = s.calls.length := by
  rw [hm.calls, List.length_set]

theorem Moved.mem_log (hm : Moved s t i call place outcome deeds) {j : ℕ} {deed : Deed} :
    (j, deed) ∈ t.log ↔ (j, deed) ∈ s.log ∨ j = i ∧ deed ∈ deeds := by
  rw [hm.log, List.mem_append, List.mem_map]
  simp only [Prod.mk.injEq]
  constructor
  · rintro (h | ⟨_, hdeed, rfl, rfl⟩)
    · exact Or.inl h
    · exact Or.inr ⟨rfl, hdeed⟩
  · rintro (h | ⟨rfl, hdeed⟩)
    · exact Or.inl h
    · exact Or.inr ⟨deed, hdeed, rfl, rfl⟩

theorem Moved.stopped (hm : Moved s t i call place outcome deeds) {j : ℕ}
    {other : MutateCall V D E} : Stopped t j other ↔ Stopped s j other := by
  rw [Stopped, Stopped, hm.cancels]

theorem Moved.mem_active (hm : Moved s t i call place outcome deeds) {j : ℕ} (hj : j ∈ s.active)
    (hne : j ≠ i) : j ∈ t.active := by
  rcases hm.active with ⟨hactive, -⟩ | ⟨-, hactive, -⟩
  · rwa [hactive]
  · rw [hactive]
    exact (List.mem_erase_of_ne hne).mpr hj

theorem Moved.active_subset (hm : Moved s t i call place outcome deeds) : t.active ⊆ s.active := by
  rcases hm.active with ⟨hactive, -⟩ | ⟨-, hactive, -⟩
  · rw [hactive]
    exact List.Subset.refl _
  · rw [hactive]
    exact List.erase_subset

theorem Moved.stillStopped (hm : Moved s t i call place outcome deeds) (h : Stopped s i call)
    (hplace : call.Settled → ∃ result, place = .done result) :
    Stopped t i { call with place := place, outcome := outcome } := by
  rcases h with hsettled | haborted | hpending
  · exact Or.inl (hplace hsettled)
  · exact Or.inr (Or.inl haborted)
  · exact Or.inr (Or.inr (hm.cancels ▸ hpending))

theorem MutationStore.Sound.moved (h : s.Sound) (hcall : s.HasCall i call)
    (hm : Moved s t i call place outcome deeds) (hlive : ¬ call.Settled)
    (hpublish : .setState ∈ deeds → ¬ Stopped s i call) : t.Sound where
  alive j other hother := by
    rcases (hm.hasCall hcall).mp hother with ⟨rfl, rfl⟩ | ⟨hne, hother⟩
    · rcases h.alive j call hcall with hstopped | hactive
      · exact Or.inl (hm.stillStopped hstopped fun hsettled => (hlive hsettled).elim)
      · rcases hm.active with ⟨heq, -⟩ | ⟨hdone, -⟩
        · exact Or.inr (heq ▸ hactive)
        · exact Or.inl (Or.inl hdone)
    · rcases h.alive j other hother with hstopped | hactive
      · exact Or.inl (hm.stopped.mpr hstopped)
      · exact Or.inr (hm.mem_active hactive hne)
  active j other hother hactive := by
    rw [hm.identityEpoch]
    rcases (hm.hasCall hcall).mp hother with ⟨rfl, rfl⟩ | ⟨-, hother⟩
    · exact h.active j call hcall (hm.active_subset hactive)
    · exact h.active j other hother (hm.active_subset hactive)
  epoch_le j other hother := by
    rw [hm.identityEpoch]
    rcases (hm.hasCall hcall).mp hother with ⟨rfl, rfl⟩ | ⟨-, hother⟩
    · exact h.epoch_le j call hcall
    · exact h.epoch_le j other hother
  identityEpoch_le := by
    rw [hm.identityEpoch, hm.documentEpoch]
    exact h.identityEpoch_le
  mine_le j other hother := by
    rw [hm.latest]
    rcases (hm.hasCall hcall).mp hother with ⟨rfl, rfl⟩ | ⟨-, hother⟩
    · exact h.mine_le j call hcall
    · exact h.mine_le j other hother
  mine_inj j k first second hfirst hsecond hmine := by
    rcases (hm.hasCall hcall).mp hfirst with ⟨rfl, rfl⟩ | ⟨-, hfirst⟩ <;>
      rcases (hm.hasCall hcall).mp hsecond with ⟨rfl, rfl⟩ | ⟨-, hsecond⟩
    · rfl
    · exact h.mine_inj _ _ _ _ hcall hsecond hmine
    · exact h.mine_inj _ _ _ _ hfirst hcall hmine
    · exact h.mine_inj _ _ _ _ hfirst hsecond hmine
  recent j hj := by
    rw [hm.recent] at hj
    obtain ⟨other, hother, hmine, hstate⟩ := h.recent j hj
    by_cases hji : j = i
    · subst hji
      obtain rfl : call = other := Option.some.inj (hcall.symm.trans hother)
      refine ⟨_, (hm.hasCall hcall).mpr (Or.inl ⟨rfl, rfl⟩), hm.latest ▸ hmine, ?_⟩
      rcases hm.state with ⟨hsame, -, hkept⟩ | ⟨-, -, hshown⟩
      · obtain rfl := hkept.resolve_right fun hne => hne hmine
        rw [hsame, hstate]
        rfl
      · exact hshown
    · refine ⟨other, (hm.hasCall hcall).mpr (Or.inr ⟨hji, hother⟩), hm.latest ▸ hmine, ?_⟩
      rcases hm.state with ⟨hsame, -, -⟩ | ⟨hdeed, hlatest, -⟩
      · rw [hsame, hstate]
      · have hrecent := (h.latest i call hcall hlatest).resolve_right (hpublish hdeed)
        exact (hji (Option.some.inj (hj.symm.trans hrecent))).elim
  idle hnone := by
    rw [hm.recent] at hnone
    rcases hm.state with ⟨hsame, -, -⟩ | ⟨hdeed, hlatest, -⟩
    · rw [hsame, h.idle hnone]
    · have hrecent := (h.latest i call hcall hlatest).resolve_right (hpublish hdeed)
      rw [hnone] at hrecent
      cases hrecent
  latest j other hother hmine := by
    rw [hm.latest] at hmine
    rw [hm.recent]
    rcases (hm.hasCall hcall).mp hother with ⟨rfl, rfl⟩ | ⟨-, hother⟩
    · exact (h.latest j call hcall hmine).imp_right fun hstopped =>
        hm.stillStopped hstopped fun hsettled => (hlive hsettled).elim
    · exact (h.latest j other hother hmine).imp_right hm.stopped.mpr
  watched hbrowser hactive := by
    rw [hm.browser] at hbrowser
    rcases hm.active with ⟨heq, hwatching⟩ | ⟨-, heq, hwatching⟩
    · rw [heq] at hactive
      rw [hwatching, h.watched hbrowser hactive]
    · rw [heq] at hactive
      have hne : s.active ≠ [] := by
        intro hnil
        rw [hnil] at hactive
        exact hactive rfl
      rw [hwatching, if_neg hactive, h.watched hbrowser hne]
  watching hwatching := by
    rw [hm.cancels]
    rcases hm.active with ⟨heq, hsame⟩ | ⟨-, heq, hsame⟩
    · rw [heq]
      exact h.watching (hsame ▸ hwatching)
    · rw [heq]
      rw [hsame] at hwatching
      split_ifs at hwatching with hidle
      exact Or.inl hidle
  agrees j other hother := by
    rcases (hm.hasCall hcall).mp hother with ⟨rfl, rfl⟩ | ⟨-, hother⟩
    · exact hm.agrees
    · exact h.agrees j other hother
  log_lt entry hentry := by
    rw [hm.length_calls]
    obtain ⟨j, deed⟩ := entry
    rcases hm.mem_log.mp hentry with hentry | ⟨rfl, -⟩
    · exact h.log_lt _ hentry
    · exact (List.getElem?_eq_some_iff.mp hcall).1
  failed j other error hother houtcome := by
    rw [hm.mem_log]
    rcases (hm.hasCall hcall).mp hother with ⟨rfl, rfl⟩ | ⟨-, hother⟩
    · cases hm.progress with
      | kept => exact Or.inl (h.failed j call error hcall houtcome)
      | failed _ _ hfailed => exact Or.inr ⟨rfl, hfailed⟩
      | resolved => cases houtcome
    · exact Or.inl (h.failed j other error hother houtcome)
  onError j other hother hlog := by
    rcases (hm.hasCall hcall).mp hother with ⟨rfl, rfl⟩ | ⟨hne, hother⟩
    · rcases hm.mem_log.mp hlog with hlog | ⟨-, hdeed⟩
      · obtain ⟨error, hold⟩ := h.onError j call hcall hlog
        cases hm.progress with
        | kept => exact ⟨error, hold⟩
        | failed _ hnone => cases hnone.symm.trans hold
        | resolved _ hnone => cases hnone.symm.trans hold
      · cases hm.progress with
        | kept _ _ _ herror => exact herror hdeed
        | failed _ _ _ _ herror => exact (herror hdeed).elim
        | resolved _ _ _ _ herror => exact (herror hdeed).elim
    · exact h.onError j other hother ((hm.mem_log.mp hlog).resolve_right fun hdeed => hne hdeed.1)
  resolved j other hother hlog := by
    rcases (hm.hasCall hcall).mp hother with ⟨rfl, rfl⟩ | ⟨hne, hother⟩
    · rcases hm.mem_log.mp hlog with hlog | ⟨-, hdeed⟩
      · obtain ⟨data, hold⟩ := h.resolved j call hcall hlog
        cases hm.progress with
        | kept => exact ⟨data, hold⟩
        | failed _ hnone => cases hnone.symm.trans hold
        | resolved _ hnone => cases hnone.symm.trans hold
      · cases hm.progress with
        | kept _ _ hresolved => exact (hresolved hdeed).elim
        | failed _ _ _ hresolved => exact (hresolved hdeed).elim
        | resolved data => exact ⟨data, rfl⟩
    · exact h.resolved j other hother ((hm.mem_log.mp hlog).resolve_right fun hdeed => hne hdeed.1)

end Moved

theorem MutationStore.Sound.cancel (h : s.Sound) : s.cancel.Sound where
  alive i call hcall := by
    rcases h.alive i call hcall with (hsettled | haborted | hpending) | hactive
    · exact Or.inl (Or.inl hsettled)
    · exact Or.inl (Or.inr (Or.inl haborted))
    · exact Or.inl (Or.inr (Or.inr (List.mem_append_right _ hpending)))
    · exact Or.inl (Or.inr (Or.inr (List.mem_append_left _ hactive)))
  active := nofun
  epoch_le i call hcall := (h.epoch_le i call hcall).trans h.identityEpoch_le
  identityEpoch_le := le_rfl
  mine_le := h.mine_le
  mine_inj := h.mine_inj
  recent := nofun
  idle _ := rfl
  latest i call hcall _ := by
    rcases h.alive i call hcall with (hsettled | haborted | hpending) | hactive
    · exact Or.inr (Or.inl hsettled)
    · exact Or.inr (Or.inr (Or.inl haborted))
    · exact Or.inr (Or.inr (Or.inr (List.mem_append_right _ hpending)))
    · exact Or.inr (Or.inr (Or.inr (List.mem_append_left _ hactive)))
  watched _ hactive := (hactive rfl).elim
  watching _ := Or.inr (List.cons_ne_nil _ _)
  agrees := h.agrees
  log_lt := h.log_lt
  failed := h.failed
  onError := h.onError
  resolved := h.resolved

theorem MutationStore.Sound.reset (h : s.Sound) : s.reset.Sound where
  alive := h.alive
  active := h.active
  epoch_le := h.epoch_le
  identityEpoch_le := h.identityEpoch_le
  mine_le i call hcall := (h.mine_le i call hcall).trans (Nat.le_succ _)
  mine_inj := h.mine_inj
  recent := nofun
  idle _ := rfl
  latest i call hcall hmine :=
    absurd hmine (Nat.ne_of_lt (Nat.lt_succ_of_le (h.mine_le i call hcall)))
  watched := h.watched
  watching := h.watching
  agrees := h.agrees
  log_lt := h.log_lt
  failed := h.failed
  onError := h.onError
  resolved := h.resolved

theorem MutationStore.Sound.rotate (h : s.Sound) :
    { s with documentEpoch := s.documentEpoch + 1 }.Sound where
  __ := h
  alive := h.alive
  identityEpoch_le := h.identityEpoch_le.trans (Nat.le_succ _)
  latest := h.latest

theorem MutationStore.Sound.rebind (h : s.Sound) (callbacks : MutationCallbacks) :
    { s with callbacks := callbacks }.Sound where
  __ := h
  alive := h.alive
  latest := h.latest

theorem hasCall_mutate {vars : V} {j : ℕ} {other : MutateCall V D E} :
    (s.mutate vars).HasCall j other ↔ s.HasCall j other ∨ j = s.calls.length ∧
      other = ⟨vars, s.latest + 1, s.identityEpoch, false, .pending, none⟩ := by
  rw [HasCall, mutate]
  rcases lt_trichotomy j s.calls.length with hlt | rfl | hgt
  · rw [List.getElem?_append_left hlt]
    simp [HasCall, hlt.ne]
  · simp [HasCall, eq_comm]
  · rw [List.getElem?_eq_none (by simpa using Nat.succ_le_of_lt hgt), HasCall,
      List.getElem?_eq_none hgt.le]
    simp [hgt.ne']

theorem MutationStore.Sound.mutate (h : s.Sound) (vars : V) : (s.mutate vars).Sound where
  alive j other hother := by
    rcases hasCall_mutate.mp hother with hother | ⟨rfl, rfl⟩
    · exact (h.alive j other hother).imp_right (List.mem_append_left _)
    · exact Or.inr (List.mem_append_right _ (List.mem_singleton_self _))
  active j other hother hactive := by
    rcases hasCall_mutate.mp hother with hother | ⟨rfl, rfl⟩
    · have hlt : j < s.calls.length := (List.getElem?_eq_some_iff.mp hother).1
      refine h.active j other hother ((List.mem_append.mp hactive).resolve_right fun hlast => ?_)
      exact hlt.ne (List.mem_singleton.mp hlast)
    · rfl
  epoch_le j other hother := by
    rcases hasCall_mutate.mp hother with hother | ⟨rfl, rfl⟩
    · exact h.epoch_le j other hother
    · exact le_rfl
  identityEpoch_le := h.identityEpoch_le
  mine_le j other hother := by
    rcases hasCall_mutate.mp hother with hother | ⟨rfl, rfl⟩
    · exact (h.mine_le j other hother).trans (Nat.le_succ _)
    · exact le_rfl
  mine_inj j k first second hfirst hsecond hmine := by
    rcases hasCall_mutate.mp hfirst with hfirst | ⟨rfl, rfl⟩ <;>
      rcases hasCall_mutate.mp hsecond with hsecond | ⟨rfl, rfl⟩
    · exact h.mine_inj _ _ _ _ hfirst hsecond hmine
    · exact absurd hmine (Nat.ne_of_lt (Nat.lt_succ_of_le (h.mine_le _ _ hfirst)))
    · exact absurd hmine.symm (Nat.ne_of_lt (Nat.lt_succ_of_le (h.mine_le _ _ hsecond)))
    · rfl
  recent j hj := by
    obtain rfl : s.calls.length = j := Option.some.inj hj
    exact ⟨_, hasCall_mutate.mpr (Or.inr ⟨rfl, rfl⟩), rfl, rfl⟩
  idle := nofun
  latest j other hother hmine := by
    rcases hasCall_mutate.mp hother with hother | ⟨rfl, rfl⟩
    · exact absurd hmine (Nat.ne_of_lt (Nat.lt_succ_of_le (h.mine_le j other hother)))
    · exact Or.inl rfl
  watched hbrowser _ := by
    have hbrowser : s.browser = true := hbrowser
    simp [MutationStore.mutate, hbrowser]
  watching _ := Or.inl (List.append_ne_nil_of_right_ne_nil _ (List.cons_ne_nil _ _))
  agrees j other hother := by
    rcases hasCall_mutate.mp hother with hother | ⟨rfl, rfl⟩
    · exact h.agrees j other hother
    · exact rfl
  log_lt entry hentry := by
    have hlength : (s.mutate vars).calls.length = s.calls.length + 1 := List.length_append
    rw [hlength]
    rcases List.mem_append.mp hentry with hentry | hentry
    · exact (h.log_lt entry hentry).trans (Nat.lt_succ_self _)
    · rw [List.mem_singleton.mp hentry]
      exact Nat.lt_succ_self _
  failed j other error hother houtcome := by
    rcases hasCall_mutate.mp hother with hother | ⟨rfl, rfl⟩
    · exact List.mem_append_left _ (h.failed j other error hother houtcome)
    · cases houtcome
  onError j other hother hlog := by
    have hlog := (List.mem_append.mp hlog).resolve_right (by simp)
    rcases hasCall_mutate.mp hother with hother | ⟨rfl, rfl⟩
    · exact h.onError j other hother hlog
    · exact absurd (h.log_lt _ hlog) (lt_irrefl _)
  resolved j other hother hlog := by
    have hlog := (List.mem_append.mp hlog).resolve_right (by simp)
    rcases hasCall_mutate.mp hother with hother | ⟨rfl, rfl⟩
    · exact h.resolved j other hother hlog
    · exact absurd (h.log_lt _ hlog) (lt_irrefl _)

theorem MutationStore.Sound.stopWatchingWhenIdle (h : s.Sound) {cancels : List (List ℕ)}
    (hcancels : s.cancels = [] :: cancels) :
    { s with cancels := cancels }.stopWatchingWhenIdle.Sound := by
  have hflatten : s.cancels.flatten = cancels.flatten := by
    rw [hcancels, List.flatten_cons, List.nil_append]
  have hstopped {j : ℕ} {call : MutateCall V D E} :
      Stopped { s with cancels := cancels } j call ↔ Stopped s j call := by
    rw [Stopped, Stopped, hflatten]
  unfold MutationStore.stopWatchingWhenIdle
  split_ifs with hidle
  · exact { h with
      alive := fun i call hcall => (h.alive i call hcall).imp_left hstopped.mpr
      latest := fun i call hcall hmine => (h.latest i call hcall hmine).imp_right hstopped.mpr
      watched := fun _ hactive => (hactive hidle).elim
      watching := nofun }
  · exact { h with
      alive := fun i call hcall => (h.alive i call hcall).imp_left hstopped.mpr
      latest := fun i call hcall hmine => (h.latest i call hcall hmine).imp_right hstopped.mpr
      watching := fun _ => Or.inl hidle }

def abort (s : MutationStore V D E) (i : ℕ) (pending : List ℕ) (cancels : List (List ℕ)) :
    MutationStore V D E :=
  { s with
    cancels := pending :: cancels
    calls := s.calls.modify i fun call => { call with aborted := true } }

theorem hasCall_abort {pending : List ℕ} {cancels : List (List ℕ)} {j : ℕ}
    {other : MutateCall V D E} : (abort s i pending cancels).HasCall j other ↔
      ∃ call, s.HasCall j call ∧
        other = if i = j then { call with aborted := true } else call := by
  rw [HasCall, abort, List.getElem?_modify, Option.map_eq_map, Option.map_eq_some_iff]
  simp only [HasCall, eq_comm]

theorem stopped_abort {pending : List ℕ} {cancels : List (List ℕ)}
    (hcancels : s.cancels = (i :: pending) :: cancels) {j : ℕ} (hold : Stopped s j call) :
    Stopped (abort s i pending cancels) j
      (if i = j then { call with aborted := true } else call) := by
  by_cases hji : i = j
  · rw [if_pos hji]
    exact Or.inr (Or.inl rfl)
  · rw [if_neg hji]
    refine hold.imp_right (Or.imp_right fun hpending => ?_)
    rw [hcancels, List.flatten_cons, List.cons_append] at hpending
    exact (List.mem_cons.mp hpending).resolve_left (Ne.symm hji)

theorem MutationStore.Sound.abort (h : s.Sound) {pending : List ℕ} {cancels : List (List ℕ)}
    (hcancels : s.cancels = (i :: pending) :: cancels) : (abort s i pending cancels).Sound := by
  have hsame {j : ℕ} (call : MutateCall V D E) :
      (if i = j then { call with aborted := true } else call).epoch = call.epoch ∧
      (if i = j then { call with aborted := true } else call).mine = call.mine ∧
      (if i = j then { call with aborted := true } else call).place = call.place ∧
      (if i = j then { call with aborted := true } else call).outcome = call.outcome ∧
      (if i = j then { call with aborted := true } else call).shown = call.shown := by
    split_ifs <;> exact ⟨rfl, rfl, rfl, rfl, rfl⟩
  constructor
  case alive =>
    intro j other hother
    obtain ⟨call, hcall, rfl⟩ := hasCall_abort.mp hother
    exact (h.alive j call hcall).imp_left (stopped_abort hcancels)
  case active =>
    intro j other hother hactive
    obtain ⟨call, hcall, rfl⟩ := hasCall_abort.mp hother
    exact (hsame call).1.trans (h.active j call hcall hactive)
  case epoch_le =>
    intro j other hother
    obtain ⟨call, hcall, rfl⟩ := hasCall_abort.mp hother
    exact (hsame call).1.le.trans (h.epoch_le j call hcall)
  case identityEpoch_le => exact h.identityEpoch_le
  case mine_le =>
    intro j other hother
    obtain ⟨call, hcall, rfl⟩ := hasCall_abort.mp hother
    exact (hsame call).2.1.le.trans (h.mine_le j call hcall)
  case mine_inj =>
    intro j k first second hfirst hsecond hmine
    obtain ⟨call, hcall, rfl⟩ := hasCall_abort.mp hfirst
    obtain ⟨other, hother, rfl⟩ := hasCall_abort.mp hsecond
    rw [(hsame call).2.1, (hsame other).2.1] at hmine
    exact h.mine_inj j k call other hcall hother hmine
  case recent =>
    intro j hj
    obtain ⟨call, hcall, hmine, hstate⟩ := h.recent j hj
    refine ⟨_, hasCall_abort.mpr ⟨call, hcall, rfl⟩, ?_, ?_⟩
    · exact (hsame call).2.1.trans hmine
    · exact hstate.trans (hsame call).2.2.2.2.symm
  case idle => exact h.idle
  case latest =>
    intro j other hother hmine
    obtain ⟨call, hcall, rfl⟩ := hasCall_abort.mp hother
    rw [(hsame call).2.1] at hmine
    exact (h.latest j call hcall hmine).imp_right (stopped_abort hcancels)
  case watched => exact h.watched
  case watching => exact fun _ => Or.inr (List.cons_ne_nil _ _)
  case agrees =>
    intro j other hother
    obtain ⟨call, hcall, rfl⟩ := hasCall_abort.mp hother
    rw [(hsame call).2.2.1, (hsame call).2.2.2.1]
    exact h.agrees j call hcall
  case log_lt =>
    intro entry hentry
    rw [Query.abort, List.length_modify]
    exact h.log_lt entry hentry
  case failed =>
    intro j other error hother houtcome
    obtain ⟨call, hcall, rfl⟩ := hasCall_abort.mp hother
    exact h.failed j call error hcall ((hsame call).2.2.2.1 ▸ houtcome)
  case onError =>
    intro j other hother hlog
    obtain ⟨call, hcall, rfl⟩ := hasCall_abort.mp hother
    rw [(hsame call).2.2.2.1]
    exact h.onError j call hcall hlog
  case resolved =>
    intro j other hother hlog
    obtain ⟨call, hcall, rfl⟩ := hasCall_abort.mp hother
    rw [(hsame call).2.2.2.1]
    exact h.resolved j call hcall hlog

theorem not_stopped {i : ℕ} {call : MutateCall V D E} (hlive : ¬ call.Settled)
    (haborted : call.aborted = false) (hpending : i ∉ s.cancels.flatten) : ¬ Stopped s i call := by
  rintro (hsettled | hyes | hmem)
  · exact hlive hsettled
  · rw [haborted] at hyes
    cases hyes
  · exact hpending hmem

theorem MutationStore.Sound.step {e : MutationEvent V D E} (h : s.Sound)
    (hstep : mutationStep s e = some t) : t.Sound := by
  cases e with
  | mutate vars =>
    simp only [mutationStep] at hstep
    split_ifs at hstep
    exact Option.some.inj hstep ▸ h.mutate vars
  | reset => exact Option.some.inj hstep ▸ h.reset
  | cancel => exact Option.some.inj hstep ▸ h.cancel
  | stop =>
    simp only [mutationStep, stop] at hstep
    split at hstep
    · cases hstep
    · rename_i cancels hcancels
      exact Option.some.inj hstep ▸ h.stopWatchingWhenIdle hcancels
    · rename_i pending cancels hcancels
      exact Option.some.inj hstep ▸ h.abort hcancels
  | resume i answer =>
    obtain ⟨call, hcall, hpending, hlive, hcases⟩ := resume_cases hstep (h.agrees i)
    rcases hcases with ⟨haborted, rfl⟩ | ⟨-, -, rfl⟩ | ⟨haborted, -, place, outcome, deeds, hm⟩
    · exact h.moved hcall (moved_settle hcall _) hlive nofun
    · exact h.cancel
    · exact h.moved hcall hm hlive fun _ => not_stopped hlive haborted hpending
  | rotate => exact Option.some.inj hstep ▸ h.rotate
  | identityChanged =>
    simp only [mutationStep] at hstep
    split_ifs at hstep with hbrowser hwatching
    · exact Option.some.inj hstep ▸ h.cancel
    · exact Option.some.inj hstep ▸ h
  | rebind callbacks => exact Option.some.inj hstep ▸ h.rebind callbacks

end Nifra.Query
