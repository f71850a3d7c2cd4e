import Nifra.Lib.Runs
import Nifra.Tools.Stops

/-! # Calls over one store

Any number of calls of `executeTool` over one store in process memory, under one clock that does
not run backwards. Between two stops of a call any other call may go on. The store answers
`begin` with a plain value, so the calls that await it go on in the order in which they asked; the
other calls of the environment take as long as they take.
-/

namespace Nifra.Tools

open Idempotency (EntryKey storageKey storageKey_injective)

variable {T O : Type*}

/-- A reservation that the store has given out, and the call that took it. -/
structure Grant extends Reservation where
  call : ℕ
  deriving DecidableEq, Repr

structure Asked where
  call : ℕ
  input : EntryKey
  result : Except JSError BeginResult
  deriving DecidableEq

/-- The calls are numbered as they start. The calls that await `begin` stand in their order;
the grants are kept with the newest first. -/
structure Executions (T O : Type*) where
  store : ToolStore T
  clock : T
  calls : List (Call O)
  asked : List Asked
  grants : List Grant

/-- What happens next: an answer to a call, or a store operation of one. The clock readings of an
operation, the identifier that `begin` draws and the budget's answer are handed in. -/
inductive Event (T O : Type*)
  | call (tool : ToolContract) (options : CallOptions) (intent : Except Bool Unit)
  | abort (i : ℕ)
  | answer (i : ℕ) (answer : Answer O)
  | begin (i : ℕ) (uuid : JSString) (t₁ t₂ : T)
  | resume (budget : Except Bool Bool)
  | enter (i : ℕ) (budget : Except Bool Bool)
  | abandon (i : ℕ)
  | complete (i : ℕ) (t₁ t₂ : T)
  | renew (i : ℕ) (t₁ t₂ : T)
  | tick (t : T)

def defaultPendingTtlMs : ℕ := 60000

def ToolContract.pendingTtlMs (tool : ToolContract) : ℕ :=
  (tool.idempotency.bind IdempotencyPolicy.pendingTtlMs).getD defaultPendingTtlMs

namespace Executions

section Calls
variable (s : Executions T O)

def put (i : ℕ) (c : Call O) : Executions T O := { s with calls := s.calls.set i c }

def grantOf (asked : Asked) : Option Grant :=
  match asked.result with
  | .ok (.new value) => some ⟨⟨asked.input, value⟩, asked.call⟩
  | _ => none

/-- The call that has waited for `begin` the longest goes on. -/
def resume (budget : Except Bool Bool) : Option (Executions T O) :=
  match s.asked with
  | [] => none
  | a :: asked =>
    (s.calls[a.call]?).map fun c =>
      { s with
        calls := s.calls.set a.call (c.afterBegin a.input a.result budget),
        asked := asked }

def abandon (i : ℕ) : Option (Executions T O) :=
  (s.calls[i]?).bind fun c =>
    match c.stop, c.reservation with
    | .abandoning next, none => some (s.put i (c.settle next none false))
    | .abandoning next, some r =>
      let s := match s.store.abandon r.entryKey r.value with
        | .ok (store, _) => { s with store := store }
        | .error _ => s
      some (s.put i (c.settle next (some (.abandoned r)) false))
    | _, _ => none

end Calls

variable [LinearOrder T] [Add T] [NatCast T] (s : Executions T O)

/-- `begin` of a store that has the key's identifier drawn once. -/
def begin (i : ℕ) (uuid : JSString) (t₁ t₂ : T) : Option (Executions T O) :=
  (s.calls[i]?).bind fun c =>
    match c.stop with
    | .beginning input =>
      if s.clock ≤ t₁ ∧ t₁ ≤ t₂ ∧ ∀ g ∈ s.grants, g.value ≠ uuid then
        let (store, result) :=
          match s.store.begin input (some c.tool.pendingTtlMs) uuid t₁ t₂ with
          | .ok (store, result) => (store, .ok result)
          | .error error => (s.store, .error error)
        let a : Asked := ⟨i, input, result⟩
        some
          { store := store,
            clock := t₂,
            calls := s.calls.set i { c with stop := .begun },
            asked := s.asked ++ [a],
            grants := (grantOf a).toList ++ s.grants }
      else none
    | _ => none

/-- `complete`; a store that fails has refused. Without a reservation there is nothing to ask. -/
def complete (i : ℕ) (t₁ t₂ : T) : Option (Executions T O) :=
  (s.calls[i]?).bind fun c =>
    match c.stop, c.reservation with
    | .completing next, none => some (s.put i (c.settle next none true))
    | .completing next, some r =>
      if s.clock ≤ t₁ ∧ t₁ ≤ t₂ then
        let (store, accepted) := match s.store.complete r.entryKey r.value t₁ t₂ with
          | .ok (store, accepted) => (store, accepted)
          | .error _ => (s.store, false)
        let s := { s with store := store, clock := t₂ }
        some (s.put i (c.settle next (some (.completed r accepted)) accepted))
      else none
    | _, _ => none

/-- A renewal of the lease; one that was on its way may still come when the call has ended. -/
def renew (i : ℕ) (t₁ t₂ : T) : Option (Executions T O) :=
  (s.calls[i]?).bind fun c => c.reservation.bind fun r =>
    if s.clock ≤ t₁ ∧ t₁ ≤ t₂ then
      let store := match s.store.renew r.entryKey r.value c.tool.pendingTtlMs t₁ t₂ with
        | .ok (store, _) => store
        | .error _ => s.store
      some { s with store := store, clock := t₂ }
    else none

def step : Event T O → Option (Executions T O)
  | .call tool options intent =>
    some { s with calls := s.calls ++ [executeTool tool options intent] }
  | .abort i => (s.calls[i]?).map fun c => s.put i c.abort
  | .answer i answer => (s.calls[i]?).bind fun c => (c.answer answer).map (s.put i)
  | .begin i uuid t₁ t₂ => s.begin i uuid t₁ t₂
  | .resume budget => s.resume budget
  | .enter i budget => (s.calls[i]?).bind fun c =>
    match c.stop with
    | .admitted => some (s.put i (c.enter budget))
    | _ => none
  | .abandon i => s.abandon i
  | .complete i t₁ t₂ => s.complete i t₁ t₂
  | .renew i t₁ t₂ => s.renew i t₁ t₂
  | .tick t => if s.clock ≤ t then some { s with clock := t } else none

end Executions

namespace Executions
variable {s t : Executions T O} {i : ℕ}

theorem resume_cases {budget : Except Bool Bool} (h : s.resume budget = some t) :
    ∃ a asked c, s.asked = a :: asked ∧ s.calls[a.call]? = some c ∧
      t = { s with
        calls := s.calls.set a.call (c.afterBegin a.input a.result budget), asked := asked } := by
  unfold resume at h
  split at h
  · cases h
  · rename_i a asked hasked
    obtain ⟨c, hc, rfl⟩ := Option.map_eq_some_iff.mp h
    exact ⟨a, asked, c, hasked, hc, rfl⟩

theorem abandon_cases (h : s.abandon i = some t) :
    ∃ c next, s.calls[i]? = some c ∧ c.stop = .abandoning next ∧
      ((c.reservation = none ∧ t = s.put i (c.settle next none false)) ∨
        ∃ r store, c.reservation = some r ∧
          (store = s.store ∨ ∃ b, s.store.abandon r.entryKey r.value = .ok (store, b)) ∧
          t = put { s with store := store } i (c.settle next (some (.abandoned r)) false)) := by
  obtain ⟨c, hc, h⟩ := Option.bind_eq_some_iff.mp h
  split at h
  · rename_i next hstop hnone
    exact ⟨c, next, hc, hstop, Or.inl ⟨hnone, (Option.some.inj h).symm⟩⟩
  · rename_i next r hstop hr
    refine ⟨c, next, hc, hstop, Or.inr ?_⟩
    split at h
    · rename_i store b hstore
      exact ⟨r, store, hr, Or.inr ⟨b, hstore⟩, (Option.some.inj h).symm⟩
    · exact ⟨r, s.store, hr, Or.inl rfl, (Option.some.inj h).symm⟩
  · cases h

variable [LinearOrder T] [Add T] [NatCast T] {t₁ t₂ : T}

theorem begin_cases {uuid : JSString} (h : s.begin i uuid t₁ t₂ = some t) :
    ∃ c input store result, s.calls[i]? = some c ∧ c.stop = .beginning input ∧
      s.clock ≤ t₁ ∧ t₁ ≤ t₂ ∧ (∀ g ∈ s.grants, g.value ≠ uuid) ∧
      ((store = s.store ∧ grantOf ⟨i, input, result⟩ = none) ∨
        ∃ answer, result = .ok answer ∧
          s.store.begin input (some c.tool.pendingTtlMs) uuid t₁ t₂ = .ok (store, answer)) ∧
      t = ⟨store, t₂, s.calls.set i { c with stop := .begun }, s.asked ++ [⟨i, input, result⟩],
        (grantOf ⟨i, input, result⟩).toList ++ s.grants⟩ := by
  obtain ⟨c, hc, h⟩ := Option.bind_eq_some_iff.mp h
  split at h
  · rename_i input hstop
    split_ifs at h with hguard
    obtain ⟨hclock, htt, hfresh⟩ := hguard
    cases hstore : s.store.begin input (some c.tool.pendingTtlMs) uuid t₁ t₂ with
    | ok p =>
      obtain ⟨store, answer⟩ := p
      rw [hstore] at h
      exact ⟨c, input, store, .ok answer, hc, hstop, hclock, htt, hfresh,
        Or.inr ⟨answer, rfl, hstore⟩, (Option.some.inj h).symm⟩
    | error error =>
      rw [hstore] at h
      exact ⟨c, input, s.store, .error error, hc, hstop, hclock, htt, hfresh, Or.inl ⟨rfl, rfl⟩,
        (Option.some.inj h).symm⟩
  · cases h

theorem complete_cases (h : s.complete i t₁ t₂ = some t) :
    ∃ c next, s.calls[i]? = some c ∧ c.stop = .completing next ∧
      ((c.reservation = none ∧ t = s.put i (c.settle next none true)) ∨
        ∃ r store accepted, c.reservation = some r ∧ s.clock ≤ t₁ ∧ t₁ ≤ t₂ ∧
          (store = s.store ∨
            ∃ b, s.store.complete r.entryKey r.value t₁ t₂ = .ok (store, b)) ∧
          t = put { s with store := store, clock := t₂ } i
            (c.settle next (some (.completed r accepted)) accepted)) := by
  obtain ⟨c, hc, h⟩ := Option.bind_eq_some_iff.mp h
  split at h
  · rename_i next hstop hnone
    exact ⟨c, next, hc, hstop, Or.inl ⟨hnone, (Option.some.inj h).symm⟩⟩
  · rename_i next r hstop hr
    split_ifs at h with hguard
    refine ⟨c, next, hc, hstop, Or.inr ?_⟩
    cases hstore : s.store.complete r.entryKey r.value t₁ t₂ with
    | ok p =>
      obtain ⟨store, b⟩ := p
      rw [hstore] at h
      exact ⟨r, store, b, hr, hguard.1, hguard.2, Or.inr ⟨b, hstore⟩, (Option.some.inj h).symm⟩
    | error _ =>
      rw [hstore] at h
      exact ⟨r, s.store, false, hr, hguard.1, hguard.2, Or.inl rfl, (Option.some.inj h).symm⟩
  · cases h

theorem renew_cases (h : s.renew i t₁ t₂ = some t) :
    ∃ c r store, s.calls[i]? = some c ∧ c.reservation = some r ∧ s.clock ≤ t₁ ∧ t₁ ≤ t₂ ∧
      (store = s.store ∨
        ∃ b, s.store.renew r.entryKey r.value c.tool.pendingTtlMs t₁ t₂ = .ok (store, b)) ∧
      t = { s with store := store, clock := t₂ } := by
  obtain ⟨c, hc, h⟩ := Option.bind_eq_some_iff.mp h
  obtain ⟨r, hr, h⟩ := Option.bind_eq_some_iff.mp h
  split_ifs at h with hguard
  cases hstore : s.store.renew r.entryKey r.value c.tool.pendingTtlMs t₁ t₂ with
  | ok p =>
    rw [hstore] at h
    exact ⟨c, r, p.1, hc, hr, hguard.1, hguard.2, Or.inr ⟨p.2, hstore⟩, (Option.some.inj h).symm⟩
  | error _ =>
    rw [hstore] at h
    exact ⟨c, r, s.store, hc, hr, hguard.1, hguard.2, Or.inl rfl, (Option.some.inj h).symm⟩

theorem enter_cases {budget : Except Bool Bool} (h : s.step (.enter i budget) = some t) :
    ∃ c, s.calls[i]? = some c ∧ c.stop = .admitted ∧ t = s.put i (c.enter budget) := by
  obtain ⟨c, hc, h⟩ := Option.bind_eq_some_iff.mp h
  split at h
  · rename_i hstop
    exact ⟨c, hc, hstop, (Option.some.inj h).symm⟩
  · cases h

theorem tick_cases {now : T} (h : s.step (.tick now) = some t) :
    s.clock ≤ now ∧ t = { s with clock := now } := by
  simp only [step] at h
  split_ifs at h with hclock
  exact ⟨hclock, (Option.some.inj h).symm⟩

end Executions

def Executions.init (store : ToolStore T) (clock : T) : Executions T O := ⟨store, clock, [], [], []⟩

def Executions.start (options : ToolStoreOptions) (clock : T) : Except JSError (Executions T O) :=
  (ToolStore.create options).map fun store => .init store clock

end Nifra.Tools
