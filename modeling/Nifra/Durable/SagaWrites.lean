import Mathlib.Data.List.Nodup
import Mathlib.Data.Nat.Basic
import Nifra.Durable.SagaMachine

/-! # The writes of a saga

What an accepted write does to the steps of the record and to the state of the saga, by the
wait that issued it, and which facts about the record outlast every write.
-/

namespace Nifra.Durable.SagaEngine

variable {V : Type} {definition : SagaDefinition} {log : List (Entry V)}
variable {base next record : SagaRecord V} {old new step : SagaStepRecord V}
variable {wait : Wait V} {index : ℕ}

def RolledBack (step : SagaStepRecord V) : Prop :=
  step.state = .failed ∨ step.state = .compensated

/-- The execution of the step is committed, and the step is not yet compensated. -/
def Outstanding (step : SagaStepRecord V) : Prop :=
  step.state = .committed ∨ step.state = .compensating ∨ step.state = .compensationFailed

structure SameStep (old new : SagaStepRecord V) : Prop where
  name : new.name = old.name
  effectId : new.effectId = old.effectId
  compensationEffectId : new.compensationEffectId = old.compensationEffectId

theorem rolledBack_of_not_busy (hbusy : busy step = false) (hc : step.state ≠ .committed)
    (hf : step.state ≠ .compensationFailed) : RolledBack step := by
  unfold RolledBack
  cases hs : step.state <;> simp_all [busy]

theorem SameStep.refl (step : SagaStepRecord V) : SameStep step step := ⟨rfl, rfl, rfl⟩

def Invoked (log : List (Entry V)) (step : SagaStepRecord V) : Prop :=
  ∃ i index stored, .compensated i index step.name step.attempts stored ∈ log

structure Attempting (definition : SagaDefinition) (record : SagaRecord V) (index : ℕ)
    (step : SagaStepRecord V) : Prop where
  state : record.state = .compensating
  quiet : ∀ other ∈ record.steps, busy other = false
  later : ∀ (k : ℕ) (other : SagaStepRecord V), index < k → record.steps[k]? = some other →
    RolledBack other
  attempts : step.attempts ≤ definition.attempts
  due : ∃ old, record.steps[index]? = some old ∧
    (old.state = .committed ∨ old.state = .compensationFailed) ∧
    step = { old with
      state := .compensating
      attempts := old.attempts + 1
      errorCode := none
      nextAttemptAt := none }

/-- The record shows the step as compensating, and no other step as busy. -/
structure Compensating (record : SagaRecord V) (index : ℕ) (step : SagaStepRecord V) : Prop where
  shown : record.steps[index]? = some step
  compensating : step.state = .compensating
  quiet : ∀ (k : ℕ) (other : SagaStepRecord V), k ≠ index → record.steps[k]? = some other →
    busy other = false

structure Attempted (definition : SagaDefinition) (record : SagaRecord V) (index : ℕ)
    (step : SagaStepRecord V) : Prop extends Compensating record index step where
  state : record.state = .compensating
  later : ∀ (k : ℕ) (other : SagaStepRecord V), index < k → record.steps[k]? = some other →
    RolledBack other
  attempts : step.attempts ≤ definition.attempts

/-- An attempt that failed: before its intent was accepted, or after its user code ran. -/
def Failing (definition : SagaDefinition) (log : List (Entry V)) (record : SagaRecord V)
    (index : ℕ) (step : SagaStepRecord V) : Prop :=
  Attempting definition record index step ∨
    Attempted definition record index step ∧ Invoked log step

def Ran (step : SagaStepRecord V) : Prop := Outstanding step ∨ step.state = .compensated

namespace Entry

/-- The entry comes from an execution whose intent was accepted before: its callback is invoked,
or its outcome is written. -/
def PastIntent (effectId : JSString) : Entry V → Prop
  | .executed _ _ id => id = effectId
  | .wrote _ (.commitSave id) _ _ | .wrote _ (.failSave id) _ _ => id = effectId
  | _ => False

def ResolvesCommitted : Entry V → Prop
  | .wrote _ (.resolveSave (.committed _ _ _)) _ _ => True
  | _ => False

def ResolvesExecution (effectId : JSString) : Entry V → Prop
  | .wrote _ (.resolveSave (.committed _ id _)) _ _
  | .wrote _ (.resolveSave (.notCommitted _ id _)) _ _ => id = effectId
  | _ => False

/-- The write of an attempt at compensation may have been overtaken: an operator confirmed the
outcome of that compensation, an execution of the same step wrote its own outcome, or some
execution its failure. -/
def Overtakes (step : SagaStepRecord V) : Entry V → Prop
  | .wrote _ (.resolveSave (.compensation _ id _)) _ _ => id = step.compensationEffectId
  | .wrote _ (.commitSave id) _ _ => id = step.effectId
  | .wrote _ (.failSave _) _ _ => True
  | _ => False

end Entry

/-- The writes that keep the steps, with the record before and the saga state after. -/
def Wait.Moves (base : SagaRecord V) (state : SagaState) : Wait V → Prop
  | .resumeClaim | .compensateClaim | .releaseSave => state = base.state
  | .finishSave => state = .completed
  | .compensateReview | .compensateStop | .stepReview => state = .manualReview
  | .compensateBegin => state = .compensating ∧ ∀ step ∈ base.steps, busy step = false
  | .compensateDone => state = .compensated ∧ ∀ step ∈ base.steps, RolledBack step
  | _ => False

inductive Writes (definition : SagaDefinition) (log : List (Entry V))
    (base next : SagaRecord V) : Wait V → Prop
  | moved {wait : Wait V} (hsteps : next.steps = base.steps)
      (hmoves : wait.Moves base next.state) : Writes definition log base next wait
  | intent {name effectId : JSString} {step : SagaStepRecord V}
      (hrunning : base.state = .running) (hnew : ∀ other ∈ base.steps, other.name ≠ name)
      (hname : step.name = name) (hid : step.effectId = effectId)
      (hexecuting : step.state = .executing) (hsteps : next.steps = base.steps ++ [step])
      (hstate : next.state = base.state) :
      Writes definition log base next (.stepIntent name effectId)
  | executing {index : ℕ} {step : SagaStepRecord V}
      (hattempting : Attempting definition base index step)
      (hsteps : next.steps = base.steps.set index step) (hstate : next.state = base.state) :
      Writes definition log base next (.compensateExecuting index step base)
  | compensated {index : ℕ} {step : SagaStepRecord V}
      (hattempted : Attempted definition base index step) (hinvoked : Invoked log step)
      (hsteps : next.steps = base.steps.set index { step with state := .compensated })
      (hstate : next.state = base.state) :
      Writes definition log base next (.compensateCommitted index step base)
  | failed {wait : Wait V} {index : ℕ} {step failed : SagaStepRecord V}
      (hwait : wait = .compensateFailed index step base ∨ wait = .compensateInvalid index step base)
      (hfailing : Failing definition log base index step) (hsame : SameStep step failed)
      (hfailed : failed.state = .compensationFailed) (hattempts : failed.attempts = step.attempts)
      (hsteps : next.steps = base.steps.set index failed)
      (hstate : next.state = .compensating ∨ next.state = .manualReview) :
      Writes definition log base next wait
  | committed {effectId : JSString} {index : ℕ} {old : SagaStepRecord V} {result : V}
      (hold : base.steps[index]? = some old) (hid : old.effectId = effectId)
      (hsteps : next.steps =
        base.steps.set index { old with state := .committed, result := some result })
      (hstate : next.state = base.state) :
      Writes definition log base next (.commitSave effectId)
  | broken {effectId : JSString} {index : ℕ} {old broken : SagaStepRecord V}
      (hold : base.steps[index]? = some old) (hid : old.effectId = effectId)
      (hsame : SameStep old broken) (hattempts : broken.attempts = old.attempts)
      (hbroken : broken.state = .failed ∨ broken.state = .ambiguous)
      (hsteps : next.steps = base.steps.set index broken)
      (hstate : next.state = .compensating ∨ next.state = .manualReview) :
      Writes definition log base next (.failSave effectId)
  | resolved {resolution : Resolution V} {index : ℕ} {old step : SagaStepRecord V}
      (hold : base.steps[index]? = some old)
      (hresolved : SagaEngine.resolved definition old resolution = some (step, next.state))
      (hsteps : next.steps = base.steps.set index step) :
      Writes definition log base next (.resolveSave resolution)

theorem Attempting.replaces (h : Attempting definition record index step) :
    ∃ old, record.steps[index]? = some old ∧ SameStep old step ∧ Outstanding old ∧
      step.attempts = old.attempts + 1 := by
  obtain ⟨old, hold, hstate, rfl⟩ := h.due
  exact ⟨old, hold, ⟨rfl, rfl, rfl⟩, hstate.imp_right Or.inr, rfl⟩

theorem Failing.replaces (h : Failing definition log record index step) :
    ∃ old, record.steps[index]? = some old ∧ SameStep old step ∧ Outstanding old ∧
      old.attempts ≤ step.attempts := by
  rcases h with h | ⟨h, -⟩
  · obtain ⟨old, hold, hsame, hout, hattempts⟩ := h.replaces
    exact ⟨old, hold, hsame, hout, hattempts ▸ Nat.le_succ _⟩
  · exact ⟨step, h.shown, .refl step, Or.inr (Or.inl h.compensating), le_rfl⟩

theorem Failing.mono {log' : List (Entry V)} (hsub : log ⊆ log')
    (h : Failing definition log record index step) : Failing definition log' record index step := by
  refine h.imp_right ?_
  rintro ⟨h, i, index, stored, hmem⟩
  exact ⟨h, i, index, stored, hsub hmem⟩

theorem Writes.mono {log' : List (Entry V)} (hsub : log ⊆ log')
    (h : Writes definition log base next wait) : Writes definition log' base next wait := by
  cases h with
  | moved hsteps hmoves => exact .moved hsteps hmoves
  | intent hrunning hnew hname hid hexecuting hsteps hstate =>
    exact .intent hrunning hnew hname hid hexecuting hsteps hstate
  | executing hattempting hsteps hstate => exact .executing hattempting hsteps hstate
  | compensated hattempted hinvoked hsteps hstate =>
    obtain ⟨i, k, stored, hmem⟩ := hinvoked
    exact .compensated hattempted ⟨i, k, stored, hsub hmem⟩ hsteps hstate
  | failed hwait hfailing hsame hfailed hattempts hsteps hstate =>
    exact .failed hwait (hfailing.mono hsub) hsame hfailed hattempts hsteps hstate
  | committed hold hid hsteps hstate => exact .committed hold hid hsteps hstate
  | broken hold hid hsame hattempts hbroken hsteps hstate =>
    exact .broken hold hid hsame hattempts hbroken hsteps hstate
  | resolved hold hresolved hsteps => exact .resolved hold hresolved hsteps

theorem Writes.of_stepIntent {name effectId : JSString}
    (h : Writes definition log base next (.stepIntent name effectId)) :
    base.state = .running ∧ (∀ other ∈ base.steps, other.name ≠ name) ∧
      ∃ step, step.name = name ∧ step.effectId = effectId ∧ step.state = .executing ∧
        next.steps = base.steps ++ [step] := by
  cases h with
  | moved _ hmoves => exact hmoves.elim
  | failed hwait => rcases hwait with hwait | hwait <;> cases hwait
  | intent hrunning hnew hname hid hexecuting hsteps =>
    exact ⟨hrunning, hnew, _, hname, hid, hexecuting, hsteps⟩

theorem Writes.of_compensateExecuting
    (h : Writes definition log base next (.compensateExecuting index step record)) :
    record = base ∧ Attempting definition base index step ∧
      next.steps = base.steps.set index step ∧ next.state = base.state := by
  cases h with
  | moved _ hmoves => exact hmoves.elim
  | failed hwait => rcases hwait with hwait | hwait <;> cases hwait
  | executing hattempting hsteps hstate => exact ⟨rfl, hattempting, hsteps, hstate⟩

theorem resolved_cases {resolution : Resolution V} {state : SagaState}
    (h : resolved definition old resolution = some (new, state)) :
    SameStep old new ∧ new.attempts = old.attempts ∧
      ((∃ name result, resolution = .committed name old.effectId result ∧
          (old.state = .executing ∨ old.state = .ambiguous) ∧ new.state = .committed ∧
          state = .running) ∨
        (∃ name errorCode, resolution = .notCommitted name old.effectId errorCode ∧
          (old.state = .executing ∨ old.state = .ambiguous) ∧ new.state = .failed ∧
          state = .compensating) ∨
        ∃ name compensated, resolution = .compensation name old.compensationEffectId compensated ∧
          old.state = .compensating ∧ new.state ≠ .committed ∧ busy new = false ∧
          (state = .compensating ∨ state = .manualReview)) := by
  cases resolution with
  | committed name effectId result =>
    simp only [resolved, Option.ite_none_left_eq_some, not_or, not_and_or, not_not,
      Option.some.injEq, Prod.mk.injEq] at h
    obtain ⟨⟨rfl, hold⟩, rfl, rfl⟩ := h
    exact ⟨⟨rfl, rfl, rfl⟩, rfl, Or.inl ⟨name, result, rfl, hold, rfl, rfl⟩⟩
  | notCommitted name effectId errorCode =>
    simp only [resolved, Option.ite_none_left_eq_some, not_or, not_and_or, not_not,
      Option.some.injEq, Prod.mk.injEq] at h
    obtain ⟨⟨rfl, hold, -⟩, rfl, rfl⟩ := h
    exact ⟨⟨rfl, rfl, rfl⟩, rfl, Or.inr (Or.inl ⟨name, errorCode, rfl, hold, rfl, rfl⟩)⟩
  | compensation name effectId compensated =>
    simp only [resolved, Option.ite_none_left_eq_some, not_or, not_not,
      Option.some.injEq, Prod.mk.injEq] at h
    obtain ⟨⟨rfl, hold⟩, rfl, rfl⟩ := h
    refine ⟨⟨rfl, rfl, rfl⟩, rfl, Or.inr (Or.inr ⟨name, compensated, rfl, hold, ?_, ?_, ?_⟩)⟩
    · cases compensated <;> simp
    · cases compensated <;> simp [busy]
    · split_ifs <;> simp

theorem Writes.steps_cases (h : Writes definition log base next wait) :
    next.steps = base.steps ∨
      (∃ step, next.steps = base.steps ++ [step] ∧ (∀ other ∈ base.steps, other.name ≠ step.name)) ∨
      ∃ (index : ℕ) (old new : SagaStepRecord V), base.steps[index]? = some old ∧
        next.steps = base.steps.set index new ∧ SameStep old new ∧ old.attempts ≤ new.attempts := by
  cases h with
  | moved hsteps => exact Or.inl hsteps
  | intent _ hnew hname _ _ hsteps => exact Or.inr (Or.inl ⟨_, hsteps, hname ▸ hnew⟩)
  | executing hattempting hsteps =>
    obtain ⟨old, hold, hsame, -, hattempts⟩ := hattempting.replaces
    exact Or.inr (Or.inr ⟨_, old, _, hold, hsteps, hsame, hattempts ▸ Nat.le_succ _⟩)
  | compensated hattempted _ hsteps =>
    exact Or.inr (Or.inr ⟨_, _, _, hattempted.shown, hsteps, ⟨rfl, rfl, rfl⟩, le_rfl⟩)
  | failed _ hfailing hsame _ hattempts hsteps =>
    obtain ⟨old, hold, hold', -, hle⟩ := hfailing.replaces
    exact Or.inr (Or.inr ⟨_, old, _, hold, hsteps, ⟨hsame.name.trans hold'.name,
      hsame.effectId.trans hold'.effectId,
      hsame.compensationEffectId.trans hold'.compensationEffectId⟩, hattempts ▸ hle⟩)
  | committed hold _ hsteps =>
    exact Or.inr (Or.inr ⟨_, _, _, hold, hsteps, ⟨rfl, rfl, rfl⟩, le_rfl⟩)
  | broken hold _ hsame hattempts _ hsteps =>
    exact Or.inr (Or.inr ⟨_, _, _, hold, hsteps, hsame, Nat.le_of_eq hattempts.symm⟩)
  | resolved hold hresolved hsteps =>
    obtain ⟨hsame, hattempts, -⟩ := resolved_cases hresolved
    exact Or.inr (Or.inr ⟨_, _, _, hold, hsteps, hsame, Nat.le_of_eq hattempts.symm⟩)

theorem Writes.kept (h : Writes definition log base next wait) {k : ℕ}
    (hold : base.steps[k]? = some old) :
    ∃ new, next.steps[k]? = some new ∧ SameStep old new ∧ old.attempts ≤ new.attempts := by
  rcases h.steps_cases with hsteps | ⟨step, hsteps, -⟩ | ⟨index, was, new, hwas, hsteps, hsame, hle⟩
  · exact ⟨old, hsteps ▸ hold, .refl old, le_rfl⟩
  · refine ⟨old, ?_, .refl old, le_rfl⟩
    rw [hsteps, List.getElem?_append_left (List.getElem?_eq_some_iff.mp hold).1, hold]
  · have hlt := (List.getElem?_eq_some_iff.mp hold).1
    by_cases hk : index = k
    · subst hk
      obtain rfl := Option.some.inj (hold.symm.trans hwas)
      exact ⟨new, by rw [hsteps, List.getElem?_set_self hlt], hsame, hle⟩
    · exact ⟨old, by rw [hsteps, List.getElem?_set_ne hk, hold], .refl old, le_rfl⟩

theorem Writes.names (h : Writes definition log base next wait) :
    next.steps.map (·.name) = base.steps.map (·.name) ∨
      ∃ name, name ∉ base.steps.map (·.name) ∧
        next.steps.map (·.name) = base.steps.map (·.name) ++ [name] := by
  rcases h.steps_cases with hsteps | ⟨step, hsteps, hnew⟩ | ⟨index, old, new, hold, hsteps, hsame, -⟩
  · exact Or.inl (by rw [hsteps])
  · refine Or.inr ⟨step.name, ?_, by simp [hsteps]⟩
    rw [List.mem_map]
    rintro ⟨other, hother, hname⟩
    exact hnew other hother hname
  · obtain ⟨hlt, rfl⟩ := List.getElem?_eq_some_iff.mp hold
    left
    rw [hsteps, List.map_set, hsame.name]
    exact List.ext_getElem (by simp) fun k _ _ => by
      rw [List.getElem_set]
      split_ifs with hk
      · simp [hk]
      · rfl

theorem Writes.running (h : Writes definition log base next wait) (hnext : next.state = .running) :
    base.state = .running ∨ ∃ name effectId result, wait = .resolveSave (.committed name effectId result) := by
  cases h with
  | moved _ hmoves =>
    left
    unfold Wait.Moves at hmoves
    split at hmoves <;> simp_all
  | intent hrunning => exact Or.inl hrunning
  | executing _ _ hstate => exact Or.inl (hstate ▸ hnext)
  | compensated _ _ _ hstate => exact Or.inl (hstate ▸ hnext)
  | failed _ _ _ _ _ _ hstate => simp [hnext] at hstate
  | committed _ _ _ hstate => exact Or.inl (hstate ▸ hnext)
  | broken _ _ _ _ _ _ hstate => simp [hnext] at hstate
  | resolved _ hresolved =>
    obtain ⟨-, -, ⟨name, result, rfl, -⟩ | ⟨_, _, -, -, -, hs⟩ | ⟨_, _, -, -, -, -, hs⟩⟩ :=
      resolved_cases hresolved
    · exact Or.inr ⟨name, _, result, rfl⟩
    · simp [hnext] at hs
    · simp [hnext] at hs

theorem Writes.keeps_executing (h : Writes definition log base next wait) {k i : ℕ}
    (hold : base.steps[k]? = some step) (hstate : step.state = .executing) :
    next.steps[k]? = some step ∨ (Entry.wrote i wait base next).PastIntent step.effectId ∨
      (Entry.wrote i wait base next).ResolvesExecution step.effectId := by
  have hlt := (List.getElem?_eq_some_iff.mp hold).1
  -- a replaced step is another one, unless the write is about this very execution
  have hset {index : ℕ} {old new : SagaStepRecord V} (hsteps : next.steps = base.steps.set index new)
      (hindex : base.steps[index]? = some old) (hne : old.state ≠ .executing) :
      next.steps[k]? = some step := by
    have hk : index ≠ k := by
      rintro rfl
      exact hne (Option.some.inj (hold.symm.trans hindex) ▸ hstate)
    rw [hsteps, List.getElem?_set_ne hk, hold]
  have hown {index : ℕ} {old new : SagaStepRecord V} (hsteps : next.steps = base.steps.set index new)
      (hindex : base.steps[index]? = some old) : next.steps[k]? = some step ∨ old = step := by
    by_cases hk : index = k
    · subst hk
      exact Or.inr (Option.some.inj (hindex.symm.trans hold))
    · exact Or.inl (by rw [hsteps, List.getElem?_set_ne hk, hold])
  cases h with
  | moved hsteps => exact Or.inl (hsteps ▸ hold)
  | intent _ _ _ _ _ hsteps =>
    exact Or.inl (by rw [hsteps, List.getElem?_append_left hlt, hold])
  | executing hattempting hsteps =>
    obtain ⟨old, hindex, hdue, -⟩ := hattempting.due
    exact Or.inl (hset hsteps hindex (by rcases hdue with h | h <;> simp [h]))
  | compensated hattempted _ hsteps =>
    exact Or.inl (hset hsteps hattempted.shown (by simp [hattempted.compensating]))
  | failed _ hfailing _ _ _ hsteps =>
    obtain ⟨old, hindex, -, hout, -⟩ := hfailing.replaces
    exact Or.inl (hset hsteps hindex (by rcases hout with h | h | h <;> simp [h]))
  | committed hindex hid hsteps =>
    rcases hown hsteps hindex with hk | rfl
    · exact Or.inl hk
    · exact Or.inr (Or.inl hid.symm)
  | broken hindex hid _ _ _ hsteps =>
    rcases hown hsteps hindex with hk | rfl
    · exact Or.inl hk
    · exact Or.inr (Or.inl hid.symm)
  | resolved hindex hresolved hsteps =>
    rcases hown hsteps hindex with hk | rfl
    · exact Or.inl hk
    · obtain ⟨-, -, ⟨_, _, rfl, -⟩ | ⟨_, _, rfl, -⟩ | ⟨_, _, -, hs, -⟩⟩ := resolved_cases hresolved
      · exact Or.inr (Or.inr rfl)
      · exact Or.inr (Or.inr rfl)
      · simp [hstate] at hs

theorem Compensating.not_executing (h : Compensating base index step) {k : ℕ}
    (hold : base.steps[k]? = some old) : ¬ (old.state = .executing ∨ old.state = .ambiguous) := by
  intro hs
  by_cases hk : k = index
  · subst hk
    obtain rfl := Option.some.inj (h.shown.symm.trans hold)
    simp [h.compensating] at hs
  · have := h.quiet k old hk hold
    rcases hs with hs | hs <;> simp [busy, hs] at this

theorem Writes.keeps_rolling (h : Writes definition log base next wait)
    (hshown : Compensating base index step) (hrunning : base.state ≠ .running) :
    next.state ≠ .running := by
  intro hnext
  obtain hbase | ⟨_, _, _, rfl⟩ := h.running hnext
  · exact hrunning hbase
  cases h with
  | moved _ hmoves => exact hmoves
  | failed hwait => rcases hwait with hwait | hwait <;> cases hwait
  | resolved hold hresolved =>
    obtain ⟨-, -, ⟨_, _, -, hs, -⟩ | ⟨_, _, hr, -⟩ | ⟨_, _, hr, -⟩⟩ := resolved_cases hresolved
    · exact hshown.not_executing hold hs
    · cases hr
    · cases hr

/-- A compensation whose user code is still to be invoked stays as its intent left it, unless
its write was overtaken. -/
theorem Writes.keeps_compensating (h : Writes definition log base next wait) {i : ℕ}
    (hshown : Compensating base index step) (hrunning : base.state ≠ .running)
    (hinvoked : ¬ Invoked log step) :
    Compensating next index step ∨ (Entry.wrote i wait base next).Overtakes step := by
  have ⟨hstep, hstate, hquiet⟩ := hshown
  have hbusy : busy step = true := by simp [busy, hstate]
  -- whoever found the step compensating was the attempt itself
  have hself {k : ℕ} {other : SagaStepRecord V} (hother : Compensating base k other) :
      other = step := by
    by_cases hk : index = k
    · subst hk
      exact Option.some.inj (hother.shown.symm.trans hstep)
    · have := hother.quiet index step hk hstep
      simp [hbusy] at this
  have hattempting {k : ℕ} {other : SagaStepRecord V} : ¬ Attempting definition base k other := by
    intro hother
    have := hother.quiet step (List.mem_of_getElem? hstep)
    simp [hbusy] at this
  have hset {k : ℕ} {new : SagaStepRecord V} (hsteps : next.steps = base.steps.set k new)
      (hk : k ≠ index) (hnew : busy new = false) : Compensating next index step := by
    refine ⟨by rw [hsteps, List.getElem?_set_ne hk, hstep], hstate, fun j other hj hother => ?_⟩
    rw [hsteps, List.getElem?_set] at hother
    split_ifs at hother with hkj hlt
    · exact Option.some.inj hother ▸ hnew
    · exact hquiet j other hj hother
  cases h with
  | moved hsteps => exact Or.inl ⟨hsteps ▸ hstep, hstate, hsteps ▸ hquiet⟩
  | intent hrun => exact absurd hrun hrunning
  | executing hother => exact absurd hother hattempting
  | compensated hattempted hother =>
    exact absurd (hself hattempted.toCompensating ▸ hother) hinvoked
  | failed _ hfailing =>
    rcases hfailing with hother | ⟨hother, hinvoked'⟩
    · exact absurd hother hattempting
    · exact absurd (hself hother.toCompensating ▸ hinvoked') hinvoked
  | @committed _ k old _ hindex hid hsteps =>
    by_cases hk : k = index
    · subst hk
      obtain rfl := Option.some.inj (hstep.symm.trans hindex)
      exact Or.inr hid.symm
    · exact Or.inl (hset hsteps hk rfl)
  | broken => exact Or.inr trivial
  | @resolved _ k old new hindex hresolved hsteps =>
    obtain ⟨-, -, hcases⟩ := resolved_cases hresolved
    by_cases hk : k = index
    · subst hk
      obtain rfl := Option.some.inj (hstep.symm.trans hindex)
      obtain ⟨_, _, -, hs, -⟩ | ⟨_, _, -, hs, -⟩ | ⟨_, _, rfl, -⟩ := hcases
      · simp [hstate] at hs
      · simp [hstate] at hs
      · exact Or.inr rfl
    · obtain ⟨_, _, -, hs, -⟩ | ⟨_, _, -, hs, -⟩ | ⟨_, _, -, hs, -⟩ := hcases
      · exact absurd hs (hshown.not_executing hindex)
      · exact absurd hs (hshown.not_executing hindex)
      · have := hquiet k old hk hindex
        simp [busy, hs] at this

theorem Writes.ran (h : Writes definition log base next wait) (hnew : new ∈ next.steps)
    (hran : Ran new) :
    new.state = .committed ∨ ∃ old ∈ base.steps, old.name = new.name ∧ Ran old := by
  have hset {k : ℕ} {old now : SagaStepRecord V} (hsteps : next.steps = base.steps.set k now)
      (hold : base.steps[k]? = some old) (hname : now.name = old.name)
      (hnow : Ran now → now.state = .committed ∨ Ran old) :
      new.state = .committed ∨ ∃ old ∈ base.steps, old.name = new.name ∧ Ran old := by
    rw [hsteps] at hnew
    rcases List.mem_or_eq_of_mem_set hnew with hmem | rfl
    · exact Or.inr ⟨new, hmem, rfl, hran⟩
    · exact (hnow hran).imp_right fun h => ⟨old, List.mem_of_getElem? hold, hname.symm, h⟩
  cases h with
  | moved hsteps => exact Or.inr ⟨new, hsteps ▸ hnew, rfl, hran⟩
  | intent _ _ _ _ hexecuting hsteps =>
    rw [hsteps, List.mem_append, List.mem_singleton] at hnew
    rcases hnew with hmem | rfl
    · exact Or.inr ⟨new, hmem, rfl, hran⟩
    · simp [Ran, Outstanding, hexecuting] at hran
  | executing hattempting hsteps =>
    obtain ⟨old, hold, hsame, hout, -⟩ := hattempting.replaces
    exact hset hsteps hold hsame.name fun _ => Or.inr (Or.inl hout)
  | compensated hattempted _ hsteps =>
    exact hset hsteps hattempted.shown rfl fun _ =>
      Or.inr (Or.inl (Or.inr (Or.inl hattempted.compensating)))
  | failed _ hfailing hsame _ _ hsteps =>
    obtain ⟨old, hold, hold', hout, -⟩ := hfailing.replaces
    exact hset hsteps hold (hsame.name.trans hold'.name) fun _ => Or.inr (Or.inl hout)
  | committed hold _ hsteps => exact hset hsteps hold rfl fun _ => Or.inl rfl
  | broken hold _ hsame _ hbroken hsteps =>
    refine hset hsteps hold hsame.name fun hran => ?_
    rcases hbroken with h | h <;> simp [Ran, Outstanding, h] at hran
  | resolved hold hresolved hsteps =>
    obtain ⟨hsame, -, hcases⟩ := resolved_cases hresolved
    refine hset hsteps hold hsame.name fun hran => ?_
    obtain ⟨_, _, -, -, hs, -⟩ | ⟨_, _, -, -, hs, -⟩ | ⟨_, _, -, hs, -⟩ := hcases
    · exact Or.inl hs
    · simp [Ran, Outstanding, hs] at hran
    · exact Or.inr (Or.inl (Or.inr (Or.inl hs)))

theorem Writes.rolledBack (h : Writes definition log base next wait)
    (hnext : next.state = .compensated) (hbase : base.state ≠ .compensated) :
    ∀ step ∈ next.steps, RolledBack step := by
  have hkept : next.state ≠ base.state := fun h => hbase (h ▸ hnext)
  cases h with
  | moved hsteps hmoves =>
    rw [hsteps]
    unfold Wait.Moves at hmoves
    split at hmoves <;> first | exact hmoves.2 | exact absurd hmoves hkept | simp_all
  | intent _ _ _ _ _ _ hstate => exact absurd hstate hkept
  | executing _ _ hstate => exact absurd hstate hkept
  | compensated _ _ _ hstate => exact absurd hstate hkept
  | failed _ _ _ _ _ _ hstate => simp [hnext] at hstate
  | committed _ _ _ hstate => exact absurd hstate hkept
  | broken _ _ _ _ _ _ hstate => simp [hnext] at hstate
  | resolved _ hresolved =>
    obtain ⟨-, -, ⟨_, _, -, -, -, hs⟩ | ⟨_, _, -, -, -, hs⟩ | ⟨_, _, -, -, -, -, hs⟩⟩ :=
      resolved_cases hresolved <;> simp [hnext] at hs

end Nifra.Durable.SagaEngine
