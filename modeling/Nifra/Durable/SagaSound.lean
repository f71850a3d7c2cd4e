import Nifra.Durable.SagaHistory

/-! # Sound threads

Every wait of a thread carries what the writes after it rely on, and every write that a
thread issues does, on the record it was computed from, what its wait says. One lemma for
each function of the engine.
-/

namespace Nifra.Durable.SagaEngine

open Next

variable {V : Type} {definition : SagaDefinition} {log : List (Entry V)}
variable {known : SagaRecord V → Prop} {drawn held : Option JSString}
variable {record base : SagaRecord V} {step : SagaStepRecord V} {input : DurableSagaTransitionInput V}
variable {wait : Wait V} {thrown : Next V} {index k leaseMs : ℕ} {o : Oracle} {effectId : JSString}

theorem save_eq_some {reading : ℕ} (update : SagaRecord V)
    (h : save leaseMs reading record update = some input) :
    input.version = record.version ∧ input.record.steps = update.steps ∧
      input.record.state = update.state := by
  have hissue (next : SagaRecord V) (h : (transitionSaga (some record)
      ⟨record.sagaId, record.version, { next with version := record.version + 1 }⟩).map
        (DurableSagaTransitionInput.mk record.sagaId record.version) = some input) :
      input.version = record.version ∧ input.record.steps = next.steps ∧
        input.record.state = next.state := by
    obtain ⟨written, hwritten, rfl⟩ := Option.map_eq_some_iff.mp h
    obtain ⟨rfl, -⟩ := transitionSaga_eq_some hwritten
    exact ⟨rfl, rfl, rfl⟩
  unfold save at h
  split at h
  · exact hissue update h
  · obtain ⟨now, -, h⟩ := Option.bind_eq_some_iff.mp h
    obtain ⟨leaseUntil, -, h⟩ := Option.bind_eq_some_iff.mp h
    exact hissue { update with leaseUntil := some leaseUntil } h

theorem saveState_eq_some {state : SagaState} (h : saveState leaseMs o k record state = some input) :
    input.version = record.version ∧ input.record.steps = record.steps ∧
      input.record.state = state := by
  obtain ⟨now, -, h⟩ := Option.bind_eq_some_iff.mp h
  exact save_eq_some _ h

theorem saveStep_eq_some {state : SagaState}
    (h : saveStep leaseMs o k record index step state = some input) :
    input.version = record.version ∧ input.record.steps = record.steps.set index step ∧
      input.record.state = state := by
  obtain ⟨now, -, h⟩ := Option.bind_eq_some_iff.mp h
  exact save_eq_some _ h

theorem claim_eq_some {owner : JSString} (h : claim leaseMs o owner record = some (some input)) :
    input.version = record.version ∧ input.record.steps = record.steps ∧
      input.record.state = record.state := by
  unfold claim at h
  split_ifs at h
  · simp at h
  · obtain ⟨now, -, h⟩ := Option.bind_eq_some_iff.mp h
    obtain ⟨_, hsave, heq⟩ := Option.map_eq_some_iff.mp h
    obtain rfl := Option.some.inj heq
    exact save_eq_some { record with owner := some owner, updatedAt := now } hsave

def Wait.Holds (definition : SagaDefinition) (log : List (Entry V)) : Wait V → Prop
  | .compensateExecuting index step record => Attempting definition record index step
  | .compensating index step record | .compensateCommitted index step record =>
    Attempted definition record index step ∧ Invoked log step
  | .compensateFailed index step record => Failing definition log record index step
  | _ => True

def Wait.carries : Wait V → Option (SagaRecord V)
  | .compensateExecuting _ _ record | .compensating _ _ record | .compensateCommitted _ _ record
  | .compensateFailed _ _ record => some record
  | _ => none

def Wait.executionId : Wait V → Option JSString
  | .stepIntent _ effectId | .executing _ effectId | .commitLoad effectId _ | .commitSave effectId
  | .failLoad effectId _ _ | .failSave effectId => some effectId
  | _ => none

/-- A write that does what its wait says, to a record that the thread has read. -/
def Issued (definition : SagaDefinition) (log : List (Entry V)) (known : SagaRecord V → Prop)
    (wait : Wait V) (input : DurableSagaTransitionInput V) : Prop :=
  ∃ base, known base ∧ input.version = base.version ∧
    Writes definition log base input.record wait

/-- What a thread may go on with: `drawn` is an execution id drawn for this wait, and `held` the
one that the thread had. -/
structure Next.Sound (definition : SagaDefinition) (log : List (Entry V))
    (known : SagaRecord V → Prop) (drawn held : Option JSString) (next : Next V) : Prop where
  holds : next.wait.Holds definition log
  carries : ∀ record ∈ next.wait.carries, known record
  issued : ∀ input, next.operation = .compareAndSet input →
    Issued definition log known next.wait input
  created : ∀ record, next.operation = .create record → record.steps = []
  unanswered : ∀ answer, next.operation ≠ .answered answer
  ids : ∀ id ∈ next.wait.executionId, drawn = some id ∨
    held = some id ∧ ∀ name, next.wait ≠ .stepIntent name id
  note : next.note = none ∨ next.note = some .opened

def Wait.Plain (wait : Wait V) : Prop :=
  wait.carries = none ∧ wait.executionId = none ∧ ∀ definition log, wait.Holds definition log

namespace Next

theorem Sound.plain (hwait : wait.Plain) {operation : Operation V}
    (hoperation : operation = .none ∨ operation = .get) {note : Option Note}
    (hnote : note = none ∨ note = some .opened) :
    Sound definition log known drawn held ⟨wait, operation, note⟩ := by
  obtain ⟨hcarries, hids, hholds⟩ := hwait
  refine ⟨hholds _ _, by simp [hcarries], ?_, ?_, ?_, by simp [hids], hnote⟩ <;>
    rcases hoperation with rfl | rfl <;> simp

theorem sound_finished : (finished : Next V).Sound definition log known drawn held := by
  refine .plain ?_ (.inl rfl) (.inl rfl)
  exact ⟨rfl, rfl, fun _ _ => trivial⟩

theorem sound_release : (release : Next V).Sound definition log known drawn held := by
  refine .plain ?_ (.inr rfl) (.inl rfl)
  exact ⟨rfl, rfl, fun _ _ => trivial⟩

theorem sound_write {update : Option (DurableSagaTransitionInput V)}
    (hknown : known record) (hholds : wait.Holds definition log)
    (hcarries : ∀ other ∈ wait.carries, other = record)
    (hids : ∀ id ∈ wait.executionId, drawn = some id ∨
      held = some id ∧ ∀ name, wait ≠ .stepIntent name id)
    (hwrites : ∀ input, update = some input →
      input.version = record.version ∧ Writes definition log record input.record wait)
    (hthrown : thrown.Sound definition log known drawn held) :
    (write wait update thrown).Sound definition log known drawn held := by
  unfold write
  split
  · rename_i input
    obtain ⟨hversion, hwrites⟩ := hwrites input rfl
    refine ⟨hholds, fun other hother => hcarries other hother ▸ hknown, ?_, by simp, by simp, hids,
      .inl rfl⟩
    rintro _ ⟨⟩
    exact ⟨record, hknown, hversion, hwrites⟩
  · exact hthrown

theorem sound_saveState {state : SagaState} (hwait : wait.Plain) (hknown : known record)
    (hmoves : wait.Moves record state) (hthrown : thrown.Sound definition log known drawn held) :
    (write wait (saveState leaseMs o k record state) thrown).Sound definition log known drawn
      held := by
  obtain ⟨hcarries, hids, hholds⟩ := hwait
  refine sound_write hknown (hholds _ _) (by simp [hcarries]) (by simp [hids]) ?_ hthrown
  intro input hinput
  obtain ⟨hversion, hsteps, hstate⟩ := saveState_eq_some hinput
  exact ⟨hversion, .moved hsteps (hstate.symm ▸ hmoves)⟩

end Next

theorem sound_invalidRetryPolicy (hfailing : Failing definition log record index step)
    (hknown : known record) :
    (invalidRetryPolicy leaseMs o index step record).Sound definition log known drawn held := by
  refine sound_write hknown trivial (by simp [Wait.carries]) (by simp [Wait.executionId]) ?_
    sound_release
  intro input hinput
  obtain ⟨hversion, hsteps, hstate⟩ := saveStep_eq_some hinput
  refine ⟨hversion, .failed (.inr rfl) hfailing ?_ ?_ ?_ hsteps (.inr hstate)⟩
  exacts [⟨rfl, rfl, rfl⟩, rfl, rfl]

theorem sound_compensationFailed (hfailing : Failing definition log record index step)
    (hknown : known record) :
    (compensationFailed definition leaseMs o index step record).Sound definition log known drawn
      held := by
  refine sound_write hknown hfailing (by simp [Wait.carries]) (by simp [Wait.executionId]) ?_
    (sound_invalidRetryPolicy hfailing hknown)
  intro input hinput
  split_ifs at hinput
  · obtain ⟨hversion, hsteps, hstate⟩ := saveStep_eq_some hinput
    refine ⟨hversion, .failed (.inl rfl) hfailing ?_ ?_ ?_ hsteps (.inr hstate)⟩
    exacts [⟨rfl, rfl, rfl⟩, rfl, rfl]
  · obtain ⟨delay, -, hinput⟩ := Option.bind_eq_some_iff.mp hinput
    obtain ⟨now, -, hinput⟩ := Option.bind_eq_some_iff.mp hinput
    obtain ⟨nextAttemptAt, -, hinput⟩ := Option.bind_eq_some_iff.mp hinput
    obtain ⟨hversion, hsteps, hstate⟩ := saveStep_eq_some hinput
    refine ⟨hversion, .failed (.inl rfl) hfailing ?_ ?_ ?_ hsteps (.inl hstate)⟩
    exacts [⟨rfl, rfl, rfl⟩, rfl, rfl]

theorem sound_compensateFrom (hknown : known record) (hstate : record.state = .compensating)
    (hquiet : ∀ other ∈ record.steps, busy other = false)
    (hlater : ∀ (k : ℕ) (other : SagaStepRecord V), index ≤ k → record.steps[k]? = some other →
      RolledBack other) :
    (compensateFrom definition leaseMs o record index).Sound definition log known drawn held := by
  induction index with
  | zero =>
    refine sound_saveState ⟨rfl, rfl, fun _ _ => trivial⟩ hknown ⟨rfl, fun other hother => ?_⟩
      sound_release
    obtain ⟨k, hk⟩ := List.mem_iff_getElem?.mp hother
    exact hlater k other (Nat.zero_le k) hk
  | succ index ih =>
    have hskip (hindex : ∀ other, record.steps[index]? = some other → RolledBack other) :
        (compensateFrom definition leaseMs o record index).Sound definition log known drawn held := by
      refine ih fun k other hk hother => ?_
      rcases Nat.eq_or_lt_of_le hk with rfl | hlt
      · exact hindex other hother
      · exact hlater k other hlt hother
    have hstop : (write .compensateStop (saveState leaseMs o 0 record .manualReview)
        release).Sound definition log known drawn held :=
      sound_saveState ⟨rfl, rfl, fun _ _ => trivial⟩ hknown rfl sound_release
    unfold compensateFrom
    split
    · exact sound_release
    split
    · rename_i hnone
      exact hskip (by simp [hnone])
    rename_i old hold
    split
    · rename_i hstep
      refine hskip fun other hother => ?_
      obtain rfl := Option.some.inj (hold.symm.trans hother)
      exact rolledBack_of_not_busy (hquiet _ (List.mem_of_getElem? hold)) hstep.1 hstep.2
    rename_i hstep
    split
    · exact sound_release
    split
    · exact hstop
    split
    · split
      · exact sound_release
      · exact hstop
    rename_i hmax
    have hattempting : Attempting definition record index { old with
        state := .compensating
        attempts := old.attempts + 1
        errorCode := none
        nextAttemptAt := none } := by
      refine ⟨hstate, hquiet, fun k other hk hother => hlater k other hk hother, ?_, old, hold, ?_,
        rfl⟩
      · exact Nat.lt_of_not_le hmax
      · by_cases hc : old.state = .committed
        · exact Or.inl hc
        · exact Or.inr (not_not.mp fun hf => hstep ⟨hc, hf⟩)
    have hthrown : (compensationFailed definition leaseMs o index _ record).Sound definition log
        known drawn held := sound_compensationFailed (.inl hattempting) hknown
    dsimp only
    split
    · exact hthrown
    · refine sound_write hknown hattempting (by simp [Wait.carries]) (by simp [Wait.executionId]) ?_
        hthrown
      intro input hinput
      obtain ⟨hversion, hsteps, hstate⟩ := saveStep_eq_some hinput
      exact ⟨hversion, .executing hattempting hsteps hstate⟩

theorem sound_compensateClaimed (hknown : known record) :
    (compensateClaimed definition leaseMs o record).Sound definition log known drawn held := by
  unfold compensateClaimed
  split
  · split
    · exact sound_release
    · exact sound_saveState ⟨rfl, rfl, fun _ _ => trivial⟩ hknown rfl sound_release
  rename_i hbusy
  have hquiet : ∀ other ∈ record.steps, busy other = false := by simpa using hbusy
  split
  · rename_i hstate
    refine sound_compensateFrom hknown hstate hquiet fun k other hk hother => ?_
    exact absurd (List.getElem?_eq_some_iff.mp hother).1 (Nat.not_lt_of_le hk)
  · exact sound_saveState ⟨rfl, rfl, fun _ _ => trivial⟩ hknown ⟨rfl, hquiet⟩ sound_release

theorem sound_executionFailed {began : Bool} {notCommitted : Option JSString}
    (hid : drawn = some effectId ∨ held = some effectId) :
    (executionFailed effectId began notCommitted : Next V).Sound definition log known drawn held := by
  refine ⟨trivial, by simp [executionFailed, Wait.carries], by simp [executionFailed],
    by simp [executionFailed], by simp [executionFailed], ?_, .inl rfl⟩
  rintro id ⟨⟩
  exact hid.imp_right fun h => ⟨h, fun name => by simp [executionFailed]⟩

theorem sound_stepLoaded {name : JSString} {compensationArgs : V} (hknown : known record)
    (hdrawn : drawn = some o.effectId) :
    (stepLoaded leaseMs o name compensationArgs record).Sound definition log known drawn held := by
  unfold stepLoaded
  split
  · exact sound_finished
  rename_i hrunning
  split
  · split
    · exact sound_saveState ⟨rfl, rfl, fun _ _ => trivial⟩ hknown rfl sound_finished
    · exact sound_finished
  rename_i hnone
  dsimp only
  split
  · exact sound_executionFailed (.inl hdrawn)
  refine sound_write hknown trivial (by simp [Wait.carries]) ?_ ?_
    (sound_executionFailed (.inl hdrawn))
  · rintro id ⟨⟩
    exact Or.inl hdrawn
  · intro input hinput
    obtain ⟨now, -, hinput⟩ := Option.bind_eq_some_iff.mp hinput
    obtain ⟨hversion, hsteps, hstate⟩ := save_eq_some _ hinput
    refine ⟨hversion, .intent (not_not.mp hrunning) ?_ rfl rfl rfl hsteps hstate⟩
    simpa using hnone

theorem effectId_of_findIdx {steps : List (SagaStepRecord V)} {step : SagaStepRecord V}
    (h : steps[steps.findIdx fun step => step.effectId = effectId]? = some step) :
    step.effectId = effectId := by
  obtain ⟨hlt, rfl⟩ := List.getElem?_eq_some_iff.mp h
  simpa using List.findIdx_getElem (w := hlt)

theorem sound_executionCommitted {result : V} (hknown : known record)
    (hheld : held = some effectId) :
    (executionCommitted leaseMs o effectId result record).Sound definition log known drawn held := by
  unfold executionCommitted
  dsimp only
  split
  · exact sound_executionFailed (.inr hheld)
  rename_i old hold
  refine sound_write hknown trivial (by simp [Wait.carries]) ?_ ?_
    (sound_executionFailed (.inr hheld))
  · rintro id ⟨⟩
    exact Or.inr ⟨hheld, by simp⟩
  · intro input hinput
    obtain ⟨hversion, hsteps, hstate⟩ := saveStep_eq_some hinput
    exact ⟨hversion, .committed hold (effectId_of_findIdx hold) hsteps hstate⟩

theorem sound_failureLoaded {began : Bool} {notCommitted : Option JSString} (hknown : known record)
    (hheld : held = some effectId) :
    (failureLoaded leaseMs o effectId began notCommitted record).Sound definition log known drawn
      held := by
  unfold failureLoaded
  dsimp only
  split
  · exact sound_finished
  rename_i old hold
  refine sound_write hknown trivial (by simp [Wait.carries]) ?_ ?_ sound_finished
  · rintro id ⟨⟩
    exact Or.inr ⟨hheld, by simp⟩
  · intro input hinput
    obtain ⟨hversion, hsteps, hstate⟩ := saveStep_eq_some hinput
    refine ⟨hversion, .broken hold (effectId_of_findIdx hold) ?_ ?_ ?_ hsteps ?_⟩
    · exact ⟨rfl, rfl, rfl⟩
    · rfl
    · dsimp only
      split <;> simp
    · rw [hstate]
      split <;> simp

theorem sound_resolutionLoaded {resolution : Resolution V} (hknown : known record) :
    (resolutionLoaded definition leaseMs o resolution record).Sound definition log known drawn
      held := by
  unfold resolutionLoaded
  dsimp only
  split
  · exact sound_finished
  rename_i current hcurrent
  split
  · exact sound_finished
  rename_i step state hresolved
  refine sound_write hknown trivial (by simp [Wait.carries]) (by simp [Wait.executionId]) ?_
    sound_finished
  intro input hinput
  obtain ⟨hversion, hsteps, hstate⟩ := saveStep_eq_some hinput
  exact ⟨hversion, .resolved hcurrent (hstate ▸ hresolved) hsteps⟩

variable {sagaId : JSString} {stored : Option (SagaRecord V)} {thread : Thread V}

theorem load_eq_some (h : load sagaId stored = some record) : stored = some record :=
  (Option.filter_eq_some_iff.mp h).1

theorem loadOwned_eq_some {owner : JSString} (h : loadOwned sagaId owner stored = some record) :
    stored = some record :=
  load_eq_some (Option.filter_eq_some_iff.mp h).1

theorem loadFor_eq_some (h : loadFor definition sagaId stored = some record) :
    stored = some record :=
  load_eq_some (Option.filter_eq_some_iff.mp h).1

def Thread.drawnId (thread : Thread V) (o : Oracle) : Option JSString :=
  match thread.wait with
  | .stepLoad _ _ => some o.effectId
  | _ => none

theorem sound_get (hwait : wait.Plain) :
    (⟨wait, .get, none⟩ : Next V).Sound definition log known drawn held :=
  .plain hwait (.inr rfl) (.inl rfl)

theorem sound_resumeStart : (resumeStart o : Next V).Sound definition log known drawn held := by
  unfold resumeStart
  split
  · exact sound_release
  · exact sound_get ⟨rfl, rfl, fun _ _ => trivial⟩

theorem sound_compensateStart :
    (compensateStart o : Next V).Sound definition log known drawn held := by
  unfold compensateStart
  split
  · exact sound_release
  · exact sound_get ⟨rfl, rfl, fun _ _ => trivial⟩

theorem sound_resumeClaimed : (resumeClaimed o : Next V).Sound definition log known drawn held := by
  unfold resumeClaimed
  split
  · exact sound_get ⟨rfl, rfl, fun _ _ => trivial⟩
  · refine .plain ?_ (.inl rfl) (.inr rfl)
    exact ⟨rfl, rfl, fun _ _ => trivial⟩

theorem sound_claimed {owner : JSString} {owned : Next V} (hwait : wait.Plain)
    (hknown : known record) (hmoves : wait.Moves record record.state)
    (howned : owned.Sound definition log known drawn held) :
    (claimed leaseMs o owner record wait owned).Sound definition log known drawn held := by
  unfold claimed
  split
  · exact sound_release
  · exact howned
  · rename_i input hclaim
    obtain ⟨hversion, hsteps, hstate⟩ := claim_eq_some hclaim
    obtain ⟨hcarries, hids, hholds⟩ := hwait
    refine ⟨hholds _ _, by simp [hcarries], ?_, by simp, by simp, by simp [hids], .inl rfl⟩
    rintro _ ⟨⟩
    exact ⟨record, hknown, hversion, .moved hsteps (hstate ▸ hmoves)⟩

theorem sound_readAnswered (hknown : ∀ record ∈ stored, known record) :
    (readAnswered definition sagaId thread o stored).Sound definition log known (thread.drawnId o)
      thread.wait.executionId := by
  unfold readAnswered
  split
  · split
    · exact sound_release
    rename_i record hload
    split
    · exact sound_release
    · exact sound_claimed ⟨rfl, rfl, fun _ _ => trivial⟩ (hknown _ (loadFor_eq_some hload)) rfl
        sound_resumeClaimed
  · split
    · exact sound_get ⟨rfl, rfl, fun _ _ => trivial⟩
    rename_i record hload
    split
    · exact sound_saveState ⟨rfl, rfl, fun _ _ => trivial⟩ (hknown _ (load_eq_some hload)) rfl
        (sound_get ⟨rfl, rfl, fun _ _ => trivial⟩)
    · exact sound_release
  · split
    · exact sound_release
    split
    · exact sound_release
    · exact sound_compensateStart
  · split
    · exact sound_release
    rename_i record hload
    split
    · exact sound_release
    · have hrecord := hknown _ (loadFor_eq_some hload)
      exact sound_claimed ⟨rfl, rfl, fun _ _ => trivial⟩ hrecord rfl (sound_compensateClaimed hrecord)
  · split
    · exact sound_finished
    rename_i record hload
    refine sound_write (hknown _ (loadOwned_eq_some hload)) trivial (by simp [Wait.carries])
      (by simp [Wait.executionId]) ?_ sound_finished
    intro input hinput
    obtain ⟨now, -, hinput⟩ := Option.bind_eq_some_iff.mp hinput
    obtain ⟨hversion, hsteps, hstate⟩ := save_eq_some _ hinput
    exact ⟨hversion, .moved hsteps hstate⟩
  · rename_i hwait
    split
    · exact sound_finished
    · rename_i record hload
      exact sound_stepLoaded (hknown _ (loadOwned_eq_some hload)) (by simp [Thread.drawnId, hwait])
  · rename_i hwait
    split
    · exact sound_executionFailed (.inr (by rw [hwait]; rfl))
    · rename_i record hload
      exact sound_executionCommitted (hknown _ (loadOwned_eq_some hload)) (by rw [hwait]; rfl)
  · rename_i hwait
    split
    · exact sound_finished
    · rename_i record hload
      exact sound_failureLoaded (hknown _ (loadOwned_eq_some hload)) (by rw [hwait]; rfl)
  · split
    · exact sound_finished
    · rename_i record hload
      exact sound_resolutionLoaded (hknown _ (loadFor_eq_some hload))
  · exact sound_finished

theorem sound_saveRefused {raised : Bool} (hholds : thread.wait.Holds definition log)
    (hknown : ∀ record ∈ thread.wait.carries, known record) :
    (saveRefused definition thread o raised).Sound definition log known (thread.drawnId o)
      thread.wait.executionId := by
  unfold saveRefused
  split <;> rename_i hwait
  · split
    · exact sound_get ⟨rfl, rfl, fun _ _ => trivial⟩
    · exact sound_release
  · split
    · exact sound_get ⟨rfl, rfl, fun _ _ => trivial⟩
    · exact sound_release
  · rw [hwait] at hholds hknown
    exact sound_compensationFailed (.inl hholds) (hknown _ rfl)
  · rw [hwait] at hholds hknown
    exact sound_compensationFailed (.inr hholds) (hknown _ rfl)
  · rw [hwait] at hholds hknown
    exact sound_invalidRetryPolicy hholds (hknown _ rfl)
  · exact sound_executionFailed (.inr (by rw [hwait]; rfl))
  · exact sound_executionFailed (.inr (by rw [hwait]; rfl))
  · exact sound_executionFailed (.inr (by rw [hwait]; rfl))
  all_goals first | exact sound_finished | exact sound_release

theorem Writes.attempted {next : SagaRecord V}
    (h : Writes definition log base next (.compensateExecuting index step record)) :
    Attempted definition next index step := by
  obtain ⟨-, hattempting, hsteps, hstate⟩ := h.of_compensateExecuting
  obtain ⟨old, hold, -, rfl⟩ := hattempting.due
  have hne {k : ℕ} {other : SagaStepRecord V} (hk : k ≠ index)
      (hother : next.steps[k]? = some other) : base.steps[k]? = some other := by
    rwa [hsteps, List.getElem?_set_ne (Ne.symm hk)] at hother
  refine ⟨⟨?_, rfl, fun k other hk hother => ?_⟩, hstate.trans hattempting.state,
    fun k other hk hother => ?_, hattempting.attempts⟩
  · rw [hsteps, List.getElem?_set_self (List.getElem?_eq_some_iff.mp hold).1]
  · exact hattempting.quiet other (List.mem_of_getElem? (hne hk hother))
  · exact hattempting.later k other hk (hne (Nat.ne_of_gt hk) hother)

theorem saveAccepted_cases (hknown : known input.record)
    (hwrites : Writes definition log base input.record thread.wait) :
    (∃ index step record, thread.wait = .compensateExecuting index step record ∧
      saveAccepted definition thread o input.record = ⟨.compensating index step input.record, .none,
        some (.compensated index step.name step.attempts)⟩) ∨
    (∃ name effectId, thread.wait = .stepIntent name effectId ∧
      saveAccepted definition thread o input.record =
        ⟨.executing name effectId, .none, some (.executed name effectId)⟩) ∨
    (saveAccepted definition thread o input.record).Sound definition log known (thread.drawnId o)
      thread.wait.executionId := by
  unfold saveAccepted
  split <;> rename_i hwait <;> try rw [hwait] at hwrites ⊢
  · exact Or.inr (Or.inr sound_resumeClaimed)
  · exact Or.inr (Or.inr (sound_compensateClaimed hknown))
  · cases hwrites with
    | failed hwait => rcases hwait with hwait | hwait <;> cases hwait
    | moved hsteps hmoves =>
      obtain ⟨hstate, hquiet⟩ := hmoves
      refine Or.inr (Or.inr (sound_compensateFrom hknown hstate (hsteps ▸ hquiet) ?_))
      exact fun k other hk hother =>
        absurd (List.getElem?_eq_some_iff.mp hother).1 (Nat.not_lt_of_le hk)
  · exact Or.inl ⟨_, _, _, rfl, rfl⟩
  · rename_i index _ _
    cases hwrites with
    | moved _ hmoves => exact hmoves.elim
    | failed hwait => rcases hwait with hwait | hwait <;> cases hwait
    | compensated hattempted _ hsteps hstate =>
      -- below the step that is now compensated, nothing changed
      have hlt := (List.getElem?_eq_some_iff.mp hattempted.shown).1
      have hstep {k : ℕ} {other : SagaStepRecord V} (hother : input.record.steps[k]? = some other) :
          k = index ∧ other.state = .compensated ∨ k ≠ index ∧ base.steps[k]? = some other := by
        rw [hsteps, List.getElem?_set] at hother
        split_ifs at hother with hk
        · exact Or.inl ⟨hk.symm, Option.some.inj hother ▸ rfl⟩
        · exact Or.inr ⟨Ne.symm hk, hother⟩
      refine Or.inr (Or.inr (sound_compensateFrom hknown (hstate.trans hattempted.state) ?_ ?_))
      · intro other hother
        obtain ⟨k, hk⟩ := List.mem_iff_getElem?.mp hother
        rcases hstep hk with ⟨-, hs⟩ | ⟨hne, hbase⟩
        · simp [busy, hs]
        · exact hattempted.quiet k other hne hbase
      · intro k other hle hk
        rcases hstep hk with ⟨-, hs⟩ | ⟨hne, hbase⟩
        · exact Or.inr hs
        · exact hattempted.later k other (Nat.lt_of_le_of_ne hle (Ne.symm hne)) hbase
  · split
    · exact Or.inr (Or.inr (sound_executionFailed (.inr rfl)))
    · exact Or.inr (Or.inl ⟨_, _, rfl, rfl⟩)
  all_goals first
    | exact Or.inr (Or.inr sound_finished)
    | exact Or.inr (Or.inr sound_release)

theorem sound_settle {outcome : Outcome V} (hholds : thread.wait.Holds definition log)
    (hknown : ∀ record ∈ thread.wait.carries, known record) :
    (settle definition thread o outcome).Sound definition log known drawn
      thread.wait.executionId := by
  unfold settle
  split
  · exact sound_get ⟨rfl, rfl, fun _ _ => trivial⟩
  · exact sound_release
  · exact sound_get ⟨rfl, rfl, fun _ _ => trivial⟩
  · rename_i hwait
    refine ⟨trivial, by simp [Wait.carries], by simp, by simp, by simp, ?_, .inl rfl⟩
    rintro id ⟨⟩
    exact Or.inr ⟨by rw [hwait]; rfl, by simp⟩
  · rename_i hwait
    exact sound_executionFailed (.inr (by rw [hwait]; rfl))
  · rename_i hwait _ _
    exact sound_executionFailed (.inr (by rw [hwait]; rfl))
  · rename_i hwait
    rw [hwait] at hholds hknown
    obtain ⟨hattempted, hinvoked⟩ := hholds
    refine sound_write (hknown _ rfl) ⟨hattempted, hinvoked⟩ (by simp [Wait.carries])
      (by simp [Wait.executionId]) ?_
      (sound_compensationFailed (.inr ⟨hattempted, hinvoked⟩) (hknown _ rfl))
    intro input hinput
    obtain ⟨hversion, hsteps, hstate⟩ := saveStep_eq_some hinput
    exact ⟨hversion, .compensated hattempted hinvoked hsteps hstate⟩
  · rename_i hwait _
    rw [hwait] at hholds hknown
    exact sound_compensationFailed (.inr hholds) (hknown _ rfl)
  · exact sound_finished

theorem sound_start {call : Call V} {next : Next V}
    (h : start definition sagaId o call = some next) :
    next.Sound definition log known drawn held := by
  cases call with
  | execute input =>
    simp only [start, Option.ite_none_right_eq_some, Option.map_eq_some_iff] at h
    obtain ⟨-, now, -, rfl⟩ := h
    refine ⟨trivial, by simp [Wait.carries], by simp, ?_, by simp, by simp [Wait.executionId],
      .inl rfl⟩
    rintro record ⟨⟩
    rfl
  | resume =>
    obtain rfl := Option.some.inj h
    split
    · exact sound_resumeStart
    · exact sound_release
  | compensate =>
    obtain rfl := Option.some.inj h
    split
    · exact sound_compensateStart
    · exact sound_release
  | resolveAmbiguity resolution =>
    simp only [start, Option.ite_none_right_eq_some, Option.some.injEq] at h
    obtain ⟨-, rfl⟩ := h
    exact sound_get ⟨rfl, rfl, fun _ _ => trivial⟩

end Nifra.Durable.SagaEngine
