import Nifra.Durable.Records
import Nifra.Lib.Linearization
import Nifra.Lib.Runs

/-! # Durable approvals

The approval protocol decides and consumes one record. `MemoryApprovalStore` applies it in
one step; the adapter reads the record, applies the protocol to what it read, and writes
the outcome with a compare-and-set.
-/

namespace Nifra.Durable

inductive ApprovalState
  | pending | approved | denied | consumed | expired
  deriving DecidableEq, Repr

structure ApprovalRecord where
  approvalId : JSString
  effectId : JSString
  capability : JSString
  target : Option JSString := none
  digest : Option JSString := none
  tenantId : JSString
  principalId : JSString
  tokenHash : JSString
  state : ApprovalState
  createdAt : ℕ
  expiresAt : ℕ
  updatedAt : ℕ
  decidedBy : Option JSString := none
  version : ℕ
  deriving DecidableEq, Repr

inductive ApprovalDecision
  | approved | denied
  deriving DecidableEq, Repr

def ApprovalDecision.state : ApprovalDecision → ApprovalState
  | .approved => .approved
  | .denied => .denied

structure ApprovalDecisionInput where
  approvalId : JSString
  tenantId : JSString
  decision : ApprovalDecision
  decidedBy : JSString
  now : ℕ
  deriving DecidableEq, Repr

structure ApprovalConsumeInput where
  approvalId : JSString
  tenantId : JSString
  principalId : JSString
  capability : JSString
  target : Option JSString := none
  digest : Option JSString := none
  tokenHash : JSString
  now : ℕ
  deriving DecidableEq, Repr

inductive ApprovalConsumeResult
  | consumed | missing | pending | denied | expired | replay | binding | token
  deriving DecidableEq, Repr

def decideApproval (current : Option ApprovalRecord) (input : ApprovalDecisionInput) :
    Option ApprovalRecord :=
  match current with
  | none => none
  | some record =>
    if record.tenantId ≠ input.tenantId ∨ record.state ≠ .pending ∨
        record.expiresAt ≤ input.now then none
    else some { record with
      state := input.decision.state
      decidedBy := some input.decidedBy
      updatedAt := input.now
      version := record.version + 1 }

structure ApprovalConsumeTransition where
  result : ApprovalConsumeResult
  next : Option ApprovalRecord := none
  deriving DecidableEq

def ApprovalRecord.close (record : ApprovalRecord) (state : ApprovalState) (now : ℕ) :
    ApprovalRecord :=
  { record with state := state, updatedAt := now, version := record.version + 1 }

def ApprovalRecord.bound (record : ApprovalRecord) (input : ApprovalConsumeInput) : Bool :=
  decide (record.tenantId = input.tenantId) && decide (record.principalId = input.principalId) &&
    decide (record.capability = input.capability) && decide (record.target = input.target) &&
    safeEqual record.digest input.digest

/-- The state of a record decides about a caller that repeats its fields and its token. The
last test of the source, on any other state, is never reached. -/
def ApprovalRecord.settle (record : ApprovalRecord) (now : ℕ) : ApprovalConsumeTransition :=
  match record.state with
  | .consumed => { result := .replay }
  | .denied => { result := .denied }
  | .pending => { result := .pending }
  | .expired => { result := .expired }
  | .approved =>
    if record.expiresAt ≤ now then
      { result := .expired, next := some (record.close .expired now) }
    else { result := .consumed, next := some (record.close .consumed now) }

def consumeApproval (current : Option ApprovalRecord) (input : ApprovalConsumeInput) :
    ApprovalConsumeTransition :=
  match current with
  | none => { result := .missing }
  | some record =>
    if !record.bound input then { result := .binding }
    else if !safeEqual (some record.tokenHash) (some input.tokenHash) then { result := .token }
    else record.settle input.now

/-- An operation of an `ApprovalStore`. A coordinator creates its approvals pending. -/
inductive ApprovalOperation
  | create (record : ApprovalRecord) (pending : record.state = .pending)
  | decide (input : ApprovalDecisionInput)
  | consume (input : ApprovalConsumeInput)
  deriving DecidableEq

namespace ApprovalOperation

def approvalId : ApprovalOperation → JSString
  | .create record _ => record.approvalId
  | .decide input => input.approvalId
  | .consume input => input.approvalId

def now : ApprovalOperation → Option ℕ
  | .create _ _ => none
  | .decide input => some input.now
  | .consume input => some input.now

end ApprovalOperation

inductive ApprovalAnswer
  | accepted (accepted : Bool)
  | result (result : ApprovalConsumeResult)
  deriving DecidableEq

namespace MemoryApprovalStore

def create (current : Option ApprovalRecord) (record : ApprovalRecord) :
    Bool × Option ApprovalRecord :=
  if current.isSome then (false, current) else (true, some record)

def decide (current : Option ApprovalRecord) (input : ApprovalDecisionInput) :
    Bool × Option ApprovalRecord :=
  match decideApproval current input with
  | none => (false, current)
  | some next => (true, some next)

def consume (current : Option ApprovalRecord) (input : ApprovalConsumeInput) :
    ApprovalConsumeResult × Option ApprovalRecord :=
  let transition := consumeApproval current input
  (transition.result, transition.next.or current)

def perform (current : Option ApprovalRecord) :
    ApprovalOperation → ApprovalAnswer × Option ApprovalRecord
  | .create record _ => Prod.map .accepted id (create current record)
  | .decide input => Prod.map .accepted id (MemoryApprovalStore.decide current input)
  | .consume input => Prod.map .result id (consume current input)

end MemoryApprovalStore

namespace DurableApprovals

def create (stored : Option ApprovalRecord) (record : ApprovalRecord) :
    Bool × Option ApprovalRecord :=
  if stored.isSome then (false, stored) else (true, some record)

def compareAndSet (stored : Option ApprovalRecord) (expectedVersion : ℕ)
    (record : ApprovalRecord) : Bool × Option ApprovalRecord :=
  if stored.map (·.version) ≠ some expectedVersion ∨ record.version ≠ expectedVersion + 1 then
    (false, stored)
  else (true, some record)

/-- What a call of the adapter does once it has read the record: it answers, or it issues a
compare-and-set from the version it read. -/
inductive Read
  | answer (answer : ApprovalAnswer)
  | write (current next : ApprovalRecord)

def decide (current : Option ApprovalRecord) (input : ApprovalDecisionInput) : Read :=
  match current, decideApproval current input with
  | some current, some next => .write current next
  | _, _ => .answer (.accepted false)

def consume (current : Option ApprovalRecord) (input : ApprovalConsumeInput) : Read :=
  let transition := consumeApproval current input
  match current, transition.result, transition.next with
  | some current, .consumed, some next => .write current next
  | _, result, _ => .answer (.result result)

def written (accepted : Bool) : ApprovalOperation → ApprovalAnswer
  | .consume _ => .result (if accepted then .consumed else .replay)
  | _ => .accepted accepted

end DurableApprovals

theorem decideApproval_eq_some_iff {current : Option ApprovalRecord}
    {input : ApprovalDecisionInput} {next : ApprovalRecord} :
    decideApproval current input = some next ↔ ∃ record, current = some record ∧
      record.tenantId = input.tenantId ∧ record.state = .pending ∧
      input.now < record.expiresAt ∧ next = { record with
        state := input.decision.state
        decidedBy := some input.decidedBy
        updatedAt := input.now
        version := record.version + 1 } := by
  cases current with
  | none => simp [decideApproval]
  | some record =>
    simp only [decideApproval, Option.ite_none_left_eq_some, not_or, not_not, not_le,
      Option.some.injEq, exists_eq_left', and_assoc, eq_comm (a := next)]

theorem decideApproval_of_not_pending {record : ApprovalRecord} (h : record.state ≠ .pending)
    (input : ApprovalDecisionInput) : decideApproval (some record) input = none :=
  if_pos (Or.inr (Or.inl h))

namespace ApprovalRecord

variable {record record' : ApprovalRecord} {input : ApprovalConsumeInput}

def Admits (record : ApprovalRecord) (input : ApprovalConsumeInput) : Prop :=
  record.tenantId = input.tenantId ∧ record.principalId = input.principalId ∧
    record.capability = input.capability ∧ record.target = input.target ∧
    record.digest = input.digest ∧ record.tokenHash = input.tokenHash

instance : Decidable (record.Admits input) := inferInstanceAs (Decidable (_ ∧ _))

theorem bound_iff : record.bound input = true ↔ record.tenantId = input.tenantId ∧
    record.principalId = input.principalId ∧ record.capability = input.capability ∧
    record.target = input.target ∧ record.digest = input.digest := by
  simp [bound, and_assoc]

def core (record : ApprovalRecord) : ApprovalRecord :=
  { record with state := .pending, updatedAt := 0, decidedBy := none, version := 0 }

theorem admits_congr (h : record.core = record'.core) :
    record.Admits input ↔ record'.Admits input := by
  simp only [core, mk.injEq] at h
  simp only [Admits, h]

theorem bound_congr (h : record.core = record'.core) : record.bound input = record'.bound input := by
  simp only [core, mk.injEq] at h
  simp only [bound, h]

theorem expiresAt_congr (h : record.core = record'.core) : record.expiresAt = record'.expiresAt := by
  simp only [core, mk.injEq] at h
  simp only [h]

theorem tenantId_congr (h : record.core = record'.core) : record.tenantId = record'.tenantId := by
  simp only [core, mk.injEq] at h
  simp only [h]

@[simp] theorem core_close (state : ApprovalState) (now : ℕ) :
    (record.close state now).core = record.core := rfl

@[simp] theorem state_close (state : ApprovalState) (now : ℕ) :
    (record.close state now).state = state := rfl

theorem settle_of_approved (h : record.state = .approved) (now : ℕ) : record.settle now =
    if record.expiresAt ≤ now then ⟨.expired, some (record.close .expired now)⟩
    else ⟨.consumed, some (record.close .consumed now)⟩ := by
  simp [settle, h]

theorem settle_next_of_ne (h : record.state ≠ .approved) (now : ℕ) :
    (record.settle now).next = none := by
  unfold settle
  split <;> first | rfl | contradiction

end ApprovalRecord

open ApprovalRecord

variable {record : ApprovalRecord} {input : ApprovalConsumeInput}

theorem consumeApproval_admits (h : record.Admits input) :
    consumeApproval (some record) input = record.settle input.now := by
  obtain ⟨h₁, h₂, h₃, h₄, h₅, h₆⟩ := h
  have hb : record.bound input = true := bound_iff.mpr ⟨h₁, h₂, h₃, h₄, h₅⟩
  simp [consumeApproval, hb, h₆]

theorem consumeApproval_refuses (h : ¬ record.Admits input) :
    consumeApproval (some record) input =
      { result := if record.bound input then .token else .binding } := by
  simp only [consumeApproval]
  split
  · rename_i hb
    simp_all
  · rename_i hb
    have hb : record.bound input = true := by simpa using hb
    rw [if_pos hb]
    split
    · rfl
    · rename_i ht
      obtain ⟨h₁, h₂, h₃, h₄, h₅⟩ := bound_iff.mp hb
      exact absurd ⟨h₁, h₂, h₃, h₄, h₅, by simpa using ht⟩ h

theorem consumeApproval_consumed_iff {next : ApprovalRecord} :
    consumeApproval (some record) input = ⟨.consumed, some next⟩ ↔
      record.state = .approved ∧ record.Admits input ∧ input.now < record.expiresAt ∧
        next = record.close .consumed input.now := by
  by_cases ha : record.Admits input
  · rw [consumeApproval_admits ha]
    by_cases hs : record.state = .approved
    · rw [settle_of_approved hs]
      split_ifs with hle
      · simp [not_lt.mpr hle]
      · simp [hs, ha, not_le.mp hle, eq_comm]
    · have hn := settle_next_of_ne hs input.now
      simp only [hs, false_and, iff_false]
      intro h
      simp [h] at hn
  · rw [consumeApproval_refuses ha]
    simp [ha]

theorem consumeApproval_of_consumed (h : (consumeApproval (some record) input).result = .consumed) :
    ∃ next, consumeApproval (some record) input = ⟨.consumed, some next⟩ := by
  by_cases hadmits : record.Admits input
  · rw [consumeApproval_admits hadmits] at h ⊢
    by_cases hs : record.state = .approved
    · rw [settle_of_approved hs] at h ⊢
      split_ifs at h ⊢
      exact ⟨_, rfl⟩
    · unfold settle at h
      cases hr : record.state <;> simp only [hr] at h <;> first | cases h | exact absurd hr hs
  · rw [consumeApproval_refuses hadmits] at h
    dsimp only at h
    split_ifs at h

namespace MemoryApprovalStore

def Like (m r : ApprovalRecord) : Prop := m.core = r.core ∧ m.state = r.state

variable {m r : ApprovalRecord} {operation : ApprovalOperation}

theorem Like.refl (r : ApprovalRecord) : Like r r := ⟨rfl, rfl⟩

theorem perform_like (h : Like m r) (operation : ApprovalOperation) :
    (perform (some m) operation).1 = (perform (some r) operation).1 ∧
      ∃ m' r', (perform (some m) operation).2 = some m' ∧
        (perform (some r) operation).2 = some r' ∧ Like m' r' := by
  obtain ⟨hcore, hstate⟩ := h
  cases operation with
  | create record pending => exact ⟨rfl, m, r, rfl, rfl, hcore, hstate⟩
  | decide input =>
    have ht := tenantId_congr hcore
    have he := expiresAt_congr hcore
    by_cases hr : r.tenantId ≠ input.tenantId ∨ r.state ≠ .pending ∨ r.expiresAt ≤ input.now
    · have hm : m.tenantId ≠ input.tenantId ∨ m.state ≠ .pending ∨ m.expiresAt ≤ input.now := by
        rwa [ht, he, hstate]
      simp only [perform, MemoryApprovalStore.decide, decideApproval, if_pos hr, if_pos hm]
      exact ⟨rfl, m, r, rfl, rfl, hcore, hstate⟩
    · have hm : ¬ (m.tenantId ≠ input.tenantId ∨ m.state ≠ .pending ∨ m.expiresAt ≤ input.now) := by
        rwa [ht, he, hstate]
      simp only [perform, MemoryApprovalStore.decide, decideApproval, if_neg hr, if_neg hm]
      exact ⟨rfl, _, _, rfl, rfl, hcore, rfl⟩
  | consume input =>
    by_cases hr : r.Admits input
    · have hm := (admits_congr hcore).mpr hr
      simp only [perform, consume, consumeApproval_admits hr, consumeApproval_admits hm]
      by_cases ha : r.state = .approved
      · rw [settle_of_approved ha, settle_of_approved (hstate.trans ha), expiresAt_congr hcore]
        split_ifs
        · exact ⟨rfl, _, _, rfl, rfl, hcore, rfl⟩
        · exact ⟨rfl, _, _, rfl, rfl, hcore, rfl⟩
      · have ha' : m.state ≠ .approved := hstate ▸ ha
        rw [settle_next_of_ne ha, settle_next_of_ne ha']
        refine ⟨?_, m, r, rfl, rfl, hcore, hstate⟩
        unfold settle
        rw [hstate]
        split <;> first | rfl | contradiction
    · have hm := (admits_congr hcore).not.mpr hr
      simp only [perform, consume, consumeApproval_refuses hr, consumeApproval_refuses hm,
        bound_congr hcore]
      exact ⟨rfl, m, r, rfl, rfl, hcore, hstate⟩

theorem perform_closed (hp : m.state ≠ .pending) (ha : m.state ≠ .approved)
    (operation : ApprovalOperation) : (perform (some m) operation).2 = some m := by
  cases operation with
  | create record pending => rfl
  | decide input =>
    simp [perform, MemoryApprovalStore.decide, decideApproval_of_not_pending hp]
  | consume input =>
    by_cases hm : m.Admits input
    · simp [perform, consume, consumeApproval_admits hm, settle_next_of_ne ha]
    · simp [perform, consume, consumeApproval_refuses hm]

end MemoryApprovalStore

end Nifra.Durable

/-! ## Histories of one approval

Any number of callers create, decide and consume one approval through the adapter. A call
reads the record in one step and writes it in another, and steps of different calls
interleave. The clock readings that the calls carry never decrease.
-/

namespace Nifra.Durable.DurableApprovals

open Linearization ApprovalRecord

abbrev ApprovalCall := Call ApprovalOperation ApprovalAnswer

/-- The stored record, the last clock reading, the number of steps so far, the calls, and the
compare-and-set that a call has issued. -/
structure State where
  stored : Option ApprovalRecord := none
  clock : ℕ := 0
  moment : ℕ := 0
  calls : List ApprovalCall := []
  issued : ℕ → Option (ApprovalRecord × ApprovalRecord) := fun _ => none

namespace State

def invoke (s : State) (operation : ApprovalOperation) : State :=
  { s with
    clock := operation.now.getD s.clock
    moment := s.moment + 1
    calls := s.calls ++ [⟨operation, s.moment, none⟩] }

def answer (s : State) (i : ℕ) (a : ApprovalAnswer) (stored : Option ApprovalRecord) : State :=
  { s with
    stored := stored
    moment := s.moment + 1
    calls := Linearization.answer s.calls i a s.moment
    issued := Function.update s.issued i none }

def issue (s : State) (i : ℕ) (current next : ApprovalRecord) : State :=
  { s with moment := s.moment + 1, issued := Function.update s.issued i (some (current, next)) }

def read (s : State) (i : ℕ) : Read → State
  | .answer a => s.answer i a s.stored
  | .write current next => s.issue i current next

end State

inductive Event
  | invoke (operation : ApprovalOperation)
  | perform (i : ℕ)
  deriving DecidableEq

def perform (s : State) (i : ℕ) (operation : ApprovalOperation) : State :=
  match s.issued i with
  | some (current, next) =>
    let (accepted, stored) := compareAndSet s.stored current.version next
    s.answer i (written accepted operation) stored
  | none =>
    match operation with
    | .create record _ =>
      let (accepted, stored) := create s.stored record
      s.answer i (.accepted accepted) stored
    | .decide input => s.read i (decide s.stored input)
    | .consume input => s.read i (consume s.stored input)

def step (approvalId : JSString) (s : State) : Event → Option State
  | .invoke operation =>
    if operation.approvalId = approvalId ∧ ∀ n ∈ operation.now, s.clock ≤ n then
      some (s.invoke operation)
    else none
  | .perform i =>
    match s.calls[i]? with
    | none => none
    | some call => if call.answered.isSome then none else some (perform s i call.op)

def State.Answered (s : State) (i : ℕ) (operation : ApprovalOperation) (a : ApprovalAnswer)
    (moment : ℕ) : Prop :=
  ∃ call, s.calls[i]? = some call ∧ call.op = operation ∧ call.answered = some (a, moment)

variable {approvalId : JSString} {s t : State} {current next record m r : ApprovalRecord}
variable {operation : ApprovalOperation}

/-- The operation, having read the first record, writes the second. -/
inductive Issues : ApprovalOperation → ApprovalRecord → ApprovalRecord → Prop
  | decide {input : ApprovalDecisionInput} {current next : ApprovalRecord}
      (h : decideApproval (some current) input = some next) : Issues (.decide input) current next
  | consume {input : ApprovalConsumeInput} {current next : ApprovalRecord}
      (h : consumeApproval (some current) input = ⟨.consumed, some next⟩) :
      Issues (.consume input) current next

theorem Issues.version (h : Issues operation current next) :
    next.version = current.version + 1 := by
  cases h with
  | decide h =>
    obtain ⟨_, ⟨⟩, -, -, -, rfl⟩ := decideApproval_eq_some_iff.mp h
    rfl
  | consume h =>
    obtain ⟨-, -, -, rfl⟩ := consumeApproval_consumed_iff.mp h
    rfl

theorem Issues.states (h : Issues operation current next) :
    current.state = .pending ∧ (next.state = .approved ∨ next.state = .denied) ∨
      current.state = .approved ∧ next.state = .consumed := by
  cases h with
  | @decide input _ _ h =>
    obtain ⟨_, ⟨⟩, -, hs, -, rfl⟩ := decideApproval_eq_some_iff.mp h
    refine Or.inl ⟨hs, ?_⟩
    cases input.decision
    · exact Or.inl rfl
    · exact Or.inr rfl
  | consume h =>
    obtain ⟨hs, -, -, rfl⟩ := consumeApproval_consumed_iff.mp h
    exact Or.inr ⟨hs, rfl⟩

theorem Issues.core (h : Issues operation current next) : next.core = current.core := by
  cases h with
  | decide h =>
    obtain ⟨_, ⟨⟩, -, -, -, rfl⟩ := decideApproval_eq_some_iff.mp h
    rfl
  | consume h =>
    obtain ⟨-, -, -, rfl⟩ := consumeApproval_consumed_iff.mp h
    rfl

theorem Issues.perform (h : Issues operation current next) :
    MemoryApprovalStore.perform (some current) operation =
      (written true operation, some next) := by
  cases h with
  | decide h => simp [MemoryApprovalStore.perform, MemoryApprovalStore.decide, h, written]
  | consume h => simp [MemoryApprovalStore.perform, MemoryApprovalStore.consume, h, written]

theorem read_decide_cases (stored : Option ApprovalRecord) (input : ApprovalDecisionInput) :
    (∃ current next, stored = some current ∧ decide stored input = .write current next ∧
      Issues (.decide input) current next) ∨
    decide stored input = .answer (MemoryApprovalStore.perform stored (.decide input)).1 ∧
      (MemoryApprovalStore.perform stored (.decide input)).2 = stored := by
  cases stored with
  | none => exact Or.inr ⟨rfl, rfl⟩
  | some record =>
    cases hd : decideApproval (some record) input with
    | none =>
      refine Or.inr ⟨?_, ?_⟩ <;> simp [decide, MemoryApprovalStore.perform,
        MemoryApprovalStore.decide, hd]
    | some next => exact Or.inl ⟨record, next, rfl, by simp [decide, hd], .decide hd⟩

theorem read_consume_cases (stored : Option ApprovalRecord) (input : ApprovalConsumeInput) :
    (∃ current next, stored = some current ∧ consume stored input = .write current next ∧
      Issues (.consume input) current next) ∨
    consume stored input = .answer (MemoryApprovalStore.perform stored (.consume input)).1 ∧
      ((MemoryApprovalStore.perform stored (.consume input)).2 = stored ∨
        (MemoryApprovalStore.perform stored (.consume input)).1 = .result .expired) := by
  cases stored with
  | none => exact Or.inr ⟨rfl, Or.inl rfl⟩
  | some record =>
    by_cases hm : record.Admits input
    · by_cases hs : record.state = .approved
      · have hc := consumeApproval_admits hm
        rw [settle_of_approved hs] at hc
        split_ifs at hc with hle
        · refine Or.inr ⟨?_, Or.inr ?_⟩ <;>
            simp [consume, MemoryApprovalStore.perform, MemoryApprovalStore.consume, hc]
        · exact Or.inl ⟨record, _, rfl, by simp [consume, hc], .consume hc⟩
      · refine Or.inr ⟨?_, Or.inl ?_⟩ <;>
          simp [consume, MemoryApprovalStore.perform, MemoryApprovalStore.consume,
            consumeApproval_admits hm, settle_next_of_ne hs]
    · refine Or.inr ⟨?_, Or.inl ?_⟩ <;>
        simp [consume, MemoryApprovalStore.perform, MemoryApprovalStore.consume,
          consumeApproval_refuses hm]

/-- A read that some call has made is the stored record, or was overtaken by a write that
took the record out of the state that was read. -/
structure Current (s : State) : Prop where
  issued : ∀ i current next, s.issued i = some (current, next) → ∃ call record,
    s.calls[i]? = some call ∧ Issues call.op current next ∧ s.stored = some record ∧
      (record = current ∨ record.core = current.core ∧ current.version < record.version ∧
        record.state ≠ .pending ∧ (current.state = .approved → record.state = .consumed))
  live : ∀ record, s.stored = some record → record.state ≠ .expired

/-- Every step: an invocation, an answer that the sequential store would give too, a creation,
a read that issues a write, or a write over the record that was read. -/
inductive Step (s : State) : State → Prop
  | invoke (operation : ApprovalOperation) (hclock : ∀ n ∈ operation.now, s.clock ≤ n) :
      Step s (s.invoke operation)
  | answer {i : ℕ} {call : ApprovalCall} (hcall : s.calls[i]? = some call)
      (hopen : call.answered = none)
      (hsame : (MemoryApprovalStore.perform s.stored call.op).2 = s.stored ∨
        (MemoryApprovalStore.perform s.stored call.op).1 = .result .expired) :
      Step s (s.answer i (MemoryApprovalStore.perform s.stored call.op).1 s.stored)
  | create {i : ℕ} {call : ApprovalCall} (hcall : s.calls[i]? = some call)
      (hopen : call.answered = none) (record : ApprovalRecord) (pending : record.state = .pending)
      (hop : call.op = .create record pending) (hnone : s.stored = none) :
      Step s (s.answer i (.accepted true) (some record))
  | issue {i : ℕ} {call : ApprovalCall} (hcall : s.calls[i]? = some call)
      (hopen : call.answered = none) {current next : ApprovalRecord}
      (hstored : s.stored = some current) (hnext : Issues call.op current next) :
      Step s (s.issue i current next)
  | write {i : ℕ} {call : ApprovalCall}
      (hcall : s.calls[i]? = some call) (hopen : call.answered = none)
      {current next : ApprovalRecord} (hstored : s.stored = some current)
      (hnext : Issues call.op current next) :
      Step s (s.answer i (written true call.op) (some next))

theorem refused_perform {op : ApprovalOperation} (h : Issues op current next)
    (hcore : record.core = current.core) (hpending : record.state ≠ .pending)
    (happroved : current.state = .approved → record.state = .consumed) :
    MemoryApprovalStore.perform (some record) op = (written false op, some record) := by
  cases h with
  | decide h =>
    simp [MemoryApprovalStore.perform, MemoryApprovalStore.decide,
      decideApproval_of_not_pending hpending, written]
  | @consume input _ _ h =>
    obtain ⟨hs, hadmits, -, -⟩ := consumeApproval_consumed_iff.mp h
    have hresult : consumeApproval (some record) input = { result := .replay } := by
      rw [consumeApproval_admits ((admits_congr hcore).mpr hadmits), settle, happroved hs]
    simp [MemoryApprovalStore.perform, MemoryApprovalStore.consume, hresult, written]

theorem step_cases (h : Current s) {e : Event} (hs : step approvalId s e = some t) :
    Step s t := by
  cases e with
  | invoke operation =>
    obtain ⟨⟨-, hclock⟩, ht⟩ := Option.ite_none_right_eq_some.mp hs
    obtain rfl := Option.some.inj ht
    exact .invoke operation hclock
  | perform i =>
    simp only [step] at hs
    cases hcall : s.calls[i]? with
    | none => simp [hcall] at hs
    | some call =>
      simp only [hcall, Option.ite_none_left_eq_some, Option.some.injEq] at hs
      obtain ⟨hopen, rfl⟩ := hs
      have hopen : call.answered = none := by simpa using hopen
      unfold perform
      cases hissued : s.issued i with
      | some issued =>
        obtain ⟨current, next⟩ := issued
        obtain ⟨call', record, hcall', hop, hstored, hrecord⟩ := h.issued i current next hissued
        obtain rfl := Option.some.inj (hcall.symm.trans hcall')
        by_cases hsame : record = current
        · subst hsame
          have hset : compareAndSet s.stored record.version next = (true, some next) := by
            rw [compareAndSet, if_neg]
            simp [hstored, hop.version]
          simp only [hset]
          exact .write hcall hopen hstored hop
        · obtain ⟨hcore, hversion, hpending, happroved⟩ := hrecord.resolve_left hsame
          have hset : compareAndSet s.stored current.version next = (false, s.stored) := by
            rw [compareAndSet, if_pos]
            simp only [hstored, Option.map_some, ne_eq, Option.some.injEq]
            exact Or.inl hversion.ne'
          have hperform := refused_perform hop hcore hpending happroved
          simp only [hset]
          have := Step.answer hcall hopen (Or.inl (by rw [hstored, hperform]))
          rwa [hstored, hperform, ← hstored] at this
      | none =>
        cases hop : call.op with
        | create record pending =>
          cases hs : s.stored with
          | none =>
            simp only [create, Option.isSome_none, Bool.false_eq_true, if_false]
            exact .create hcall hopen record pending hop hs
          | some old =>
            have := Step.answer hcall hopen (Or.inl (by rw [hop, hs]; rfl))
            rw [hop, hs] at this
            exact this
        | decide input =>
          dsimp only
          rcases read_decide_cases s.stored input with ⟨current, next, hs, hr, hi⟩ | ⟨hr, hs⟩
          · rw [hr]
            exact .issue hcall hopen hs (hop ▸ hi)
          · have := Step.answer hcall hopen (Or.inl (by rw [hop, hs]))
            rw [hop] at this
            rw [hr]
            exact this
        | consume input =>
          dsimp only
          rcases read_consume_cases s.stored input with ⟨current, next, hs, hr, hi⟩ | ⟨hr, hs⟩
          · rw [hr]
            exact .issue hcall hopen hs (hop ▸ hi)
          · have := Step.answer hcall hopen (by rwa [hop])
            rw [hop] at this
            rw [hr]
            exact this

end Nifra.Durable.DurableApprovals
