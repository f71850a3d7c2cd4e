import Mathlib.Data.Nat.Bitwise
import Nifra.Text.JSString

/-! # Durable records

The effect and saga records that the stores keep, and the transitions that the shared
protocols allow on them.
-/

namespace Nifra.Durable

inductive DurableEffectState
  | admission | executing | committed | failed | unknown
  deriving DecidableEq, Repr

structure DurableEffectRecord where
  effectId : JSString
  capability : JSString
  target : Option JSString := none
  digest : Option JSString := none
  tenantId : Option JSString := none
  principalId : Option JSString := none
  state : DurableEffectState
  createdAt : ℕ
  updatedAt : ℕ
  errorCode : Option JSString := none
  version : ℕ
  deriving DecidableEq, Repr

structure DurableEffectTransitionInput where
  effectId : JSString
  version : ℕ
  fromState : DurableEffectState
  toState : DurableEffectState
  updatedAt : ℕ
  errorCode : Option JSString := none

/-- `durableEffectProtocol.transition`: the next record, when the current one has the
version and the state that the caller read. -/
def transitionEffect (current : Option DurableEffectRecord)
    (input : DurableEffectTransitionInput) : Option DurableEffectRecord :=
  match current with
  | none => none
  | some record =>
    if record.version ≠ input.version ∨ record.state ≠ input.fromState then none
    else some { record with
      state := input.toState
      updatedAt := input.updatedAt
      version := record.version + 1
      errorCode := input.errorCode.or record.errorCode }

inductive SagaState
  | running | compensating | completed | compensated | manualReview
  deriving DecidableEq, Repr

inductive SagaStepState
  | executing | committed | failed | ambiguous | compensating | compensationFailed | compensated
  deriving DecidableEq, Repr

/-- A step of a saga; `V` is the type of the values that user code hands over. -/
structure SagaStepRecord (V : Type) where
  name : JSString
  effectId : JSString
  compensationEffectId : JSString
  state : SagaStepState
  compensationArgs : V
  result : Option V := none
  attempts : ℕ
  nextAttemptAt : Option ℕ := none
  errorCode : Option JSString := none
  deriving DecidableEq, Repr

structure SagaRecord (V : Type) where
  sagaId : JSString
  definition : JSString
  state : SagaState
  input : V
  steps : List (SagaStepRecord V)
  createdAt : ℕ
  updatedAt : ℕ
  version : ℕ
  owner : Option JSString := none
  leaseUntil : Option ℕ := none
  deriving DecidableEq, Repr

structure DurableSagaTransitionInput (V : Type) where
  sagaId : JSString
  version : ℕ
  record : SagaRecord V

/-- `durableSagaProtocol.transition`: the given record, when it is the next version of the
saga it is filed under. -/
def transitionSaga {V : Type} (current : Option (SagaRecord V))
    (input : DurableSagaTransitionInput V) : Option (SagaRecord V) :=
  if input.record.version ≠ input.version + 1 ∨ input.record.sagaId ≠ input.sagaId ∨
      current.any fun record =>
        decide (record.sagaId ≠ input.sagaId ∨ record.version ≠ input.version) then
    none
  else some input.record

/-- `durableSagaProtocol.withStep`: the record with one step replaced. -/
def withSagaStep {V : Type} (record : SagaRecord V) (index : ℕ) (step : SagaStepRecord V)
    (state : SagaState) (updatedAt : ℕ) : SagaRecord V :=
  { record with state := state, steps := record.steps.set index step, updatedAt := updatedAt }

theorem transitionEffect_eq_some {current : Option DurableEffectRecord}
    {input : DurableEffectTransitionInput} {next : DurableEffectRecord}
    (h : transitionEffect current input = some next) :
    ∃ record, current = some record ∧ record.version = input.version ∧
      record.state = input.fromState ∧ next.effectId = record.effectId ∧ next.state = input.toState := by
  cases current with
  | none => cases h
  | some record =>
    simp only [transitionEffect] at h
    split at h
    · cases h
    · rename_i hne
      obtain ⟨hv, hs⟩ := not_or.mp hne
      obtain rfl := Option.some.inj h
      exact ⟨record, rfl, not_not.mp hv, not_not.mp hs, rfl, rfl⟩

theorem transitionSaga_eq_some {V : Type} {current : Option (SagaRecord V)}
    {input : DurableSagaTransitionInput V} {next : SagaRecord V}
    (h : transitionSaga current input = some next) :
    next = input.record ∧ next.version = input.version + 1 ∧ next.sagaId = input.sagaId ∧
      ∀ record, current = some record →
        record.sagaId = input.sagaId ∧ record.version = input.version := by
  unfold transitionSaga at h
  split at h
  · cases h
  · rename_i hne
    obtain ⟨hv, hid, hc⟩ : _ ∧ _ ∧ _ := by simpa only [not_or, not_not] using hne
    obtain rfl := Option.some.inj h
    refine ⟨rfl, hv, hid, ?_⟩
    rintro record rfl
    simpa only [Option.any_some, decide_eq_true_eq, not_or, not_not] using hc

/-! ## Reconciliation leases

A lease record names the worker that may reconcile and keeps its cursor. Three
stores implement it: `MemoryReconciliationLeaseStore`, `MemoryDurableRecordBackend`
and `DurableObjectRecordBackend`. Each of them follows one set of rules on the
owner, the token, the expiry and the cursor.
-/

/-- `safeEqual`: the constant-time comparison of optional strings. -/
def safeEqual : Option JSString → Option JSString → Bool
  | some a, some b =>
    if a.length ≠ b.length then false
    else (a.zip b).foldl (fun diff p => diff ||| (p.1 ^^^ p.2)) 0 == 0
  | a, b => a == b

theorem foldl_or_xor_eq_zero : ∀ (l : List (ℕ × ℕ)) (d : ℕ),
    l.foldl (fun diff p => diff ||| (p.1 ^^^ p.2)) d = 0 ↔ d = 0 ∧ ∀ p ∈ l, p.1 = p.2
  | [], d => by simp
  | p :: l, d => by
      rw [List.foldl_cons, foldl_or_xor_eq_zero l, Nat.or_eq_zero_iff, Nat.xor_eq_zero_iff,
        List.forall_mem_cons, and_assoc]

theorem zip_diagonal_iff : ∀ {a b : JSString}, a.length = b.length →
    ((∀ p ∈ a.zip b, p.1 = p.2) ↔ a = b)
  | [], [], _ => by simp
  | x :: a, y :: b, h => by
      simp only [List.zip_cons_cons, List.forall_mem_cons, List.cons.injEq,
        zip_diagonal_iff (Nat.succ.inj h)]

@[simp] theorem safeEqual_iff {a b : Option JSString} : safeEqual a b = true ↔ a = b := by
  match a, b with
  | none, none => simp [safeEqual]
  | none, some b => simp [safeEqual]
  | some a, none => simp [safeEqual]
  | some a, some b =>
    simp only [safeEqual, Option.some.injEq]
    split
    · rename_i h
      simp only [Bool.false_eq_true, false_iff]
      exact fun he => h (congrArg List.length he)
    · rename_i h
      rw [beq_iff_eq, foldl_or_xor_eq_zero, zip_diagonal_iff (not_not.mp h)]
      simp

structure ReconciliationLease where
  name : JSString
  owner : JSString
  token : JSString
  expiresAt : ℕ
  cursor : Option JSString
  deriving DecidableEq, Repr

structure AcquireInput where
  name : JSString
  owner : JSString
  now : ℕ
  leaseMs : ℕ

structure RenewInput where
  name : JSString
  owner : JSString
  token : JSString
  now : ℕ
  leaseMs : ℕ

structure CheckpointInput where
  name : JSString
  owner : JSString
  token : JSString
  cursor : Option JSString

structure ReleaseInput where
  name : JSString
  owner : JSString
  token : JSString

/-- `/^[!-~]{1,128}$/`: a bounded printable token. -/
def isToken (value : JSString) : Bool :=
  decide (1 ≤ value.length) && decide (value.length ≤ 128) &&
    value.all fun c => decide (33 ≤ c) && decide (c ≤ 126)

structure LeaseView where
  owner : Option JSString
  token : Option JSString
  expiresAt : ℕ
  cursor : Option JSString

namespace LeaseView

def HeldBy (v : LeaseView) (owner token : JSString) : Prop :=
  v.owner = some owner ∧ v.token = some token

instance (v : LeaseView) (owner token : JSString) : Decidable (v.HeldBy owner token) :=
  inferInstanceAs (Decidable (_ ∧ _))

/-- A live lease keeps every other worker out; a free or lapsed one is given a new token. -/
def acquire (v : LeaseView) (input : AcquireInput) (uuid : JSString) :
    Option ReconciliationLease × LeaseView :=
  if v.owner.isSome ∧ input.now < v.expiresAt then (none, v)
  else
    let expiresAt := input.now + input.leaseMs
    (some ⟨input.name, input.owner, uuid, expiresAt, v.cursor⟩,
      ⟨some input.owner, some uuid, expiresAt, v.cursor⟩)

def renew (v : LeaseView) (input : RenewInput) : Bool × LeaseView :=
  if v.HeldBy input.owner input.token ∧ input.now < v.expiresAt then
    (true, { v with expiresAt := input.now + input.leaseMs })
  else (false, v)

def checkpoint (v : LeaseView) (input : CheckpointInput) : Bool × LeaseView :=
  if v.HeldBy input.owner input.token then (true, { v with cursor := input.cursor })
  else (false, v)

def release (v : LeaseView) (input : ReleaseInput) : Bool × LeaseView :=
  if v.HeldBy input.owner input.token then (true, ⟨none, none, 0, v.cursor⟩)
  else (false, v)

end LeaseView

/-- A lease store: its operations on the record of one name, each of which throws and
leaves the record alone, or answers as the rules do on the record's view. -/
structure LeaseStore (R : Type) where
  view : Option R → LeaseView
  acquire : Option R → AcquireInput → JSString →
    Except JSError (Option ReconciliationLease × Option R)
  renew : Option R → RenewInput → Except JSError (Bool × Option R)
  checkpoint : Option R → CheckpointInput → Bool × Option R
  release : Option R → ReleaseInput → Bool × Option R
  acquire_rule : ∀ r input uuid answer r', acquire r input uuid = .ok (answer, r') →
    (answer, view r') = (view r).acquire input uuid
  renew_rule : ∀ r input answer r', renew r input = .ok (answer, r') →
    (answer, view r') = (view r).renew input
  checkpoint_rule : ∀ r input,
    Prod.map id view (checkpoint r input) = (view r).checkpoint input
  release_rule : ∀ r input, Prod.map id view (release r input) = (view r).release input
  view_none : view none = ⟨none, none, 0, none⟩

end Nifra.Durable
