import Nifra.Tools.IdempotencyStore

/-! # One call of a tool

`executeTool` as a machine that stops at every `await`: what it awaits, and how it goes on with
the answer. What the environment answers (the validators, the policy adapter, the key function,
the budget, the executor, the ledger) is handed in; a store operation is a stop of its own.
-/

namespace Nifra.Tools

open Idempotency (EntryKey)

inductive ApprovalPolicy
  | none
  | required
  | threshold (level : ℕ)
  deriving DecidableEq, Repr

structure Approval where
  granted : Bool
  level : Option ℤ
  deriving DecidableEq, Repr

inductive IdempotencyScope
  | request
  | durable
  deriving DecidableEq, Repr

structure IdempotencyPolicy where
  scope : IdempotencyScope
  pendingTtlMs : Option ℕ
  deriving DecidableEq, Repr

/-- What admission reads of a contract; of a cost only whether there is one. -/
structure ToolContract where
  capability : JSString
  approval : ApprovalPolicy
  idempotency : Option IdempotencyPolicy
  cost : Bool
  capabilityCeiling : Option (List JSString)
  deriving DecidableEq, Repr

/-- Of a budget and of a policy adapter only whether there is one. -/
structure CallOptions where
  capabilities : Option (List JSString)
  approval : Option Approval
  executionPolicy : Bool
  idempotency : Bool
  ns : Option JSString
  budget : Bool
  dryRun : Bool
  deriving DecidableEq, Repr

def isLower (c : ℕ) : Bool := decide (97 ≤ c ∧ c ≤ 122)

def isDigit (c : ℕ) : Bool := decide (48 ≤ c ∧ c ≤ 57)

/-- Segments joined by `.`, `-` or `_`; none begins right after its separator. -/
def capabilitySegments : Bool → JSString → Bool
  | separated, [] => !separated
  | separated, c :: rest =>
    if isLower c || isDigit c then capabilitySegments false rest
    else !separated && (js "._-").contains c && capabilitySegments true rest

def validCapabilityId : JSString → Bool
  | [] => false
  | c :: rest => isLower c && capabilitySegments false rest

def hasCapability (values : Option (List JSString)) (required : JSString) : Bool :=
  match values with
  | none => false
  | some values => values.all validCapabilityId && values.contains required

inductive ErrorCode
  | inputInvalid
  | capabilityDenied
  | executionPolicyUnsatisfied
  | approvalRequired
  | approvalDenied
  | idempotencyStoreMissing
  | idempotencyDurability
  | idempotencyDuplicate
  | idempotencyInFlight
  | idempotencyCapacity
  | budgetExceeded
  | cancelled
  | executionFailed
  | outputInvalid
  | ledgerFailed
  deriving DecidableEq, Repr

def checkApproval (policy : ApprovalPolicy) (approval : Option Approval) : Option ErrorCode :=
  match policy, approval with
  | .none, _ => none
  | _, none => some .approvalRequired
  | .required, some approval => if approval.granted then none else some .approvalDenied
  | .threshold level, some approval =>
    if !approval.granted ∨ approval.level.getD 0 < level then some .approvalDenied else none

inductive EvidenceStage
  | input
  | capability
  | policy
  | approval
  | idempotency
  | budget
  | execution
  | output
  deriving DecidableEq, Repr

inductive EvidenceOutcome
  | passed
  | denied
  | failed
  | skipped
  | committed
  | dryRun
  deriving DecidableEq, Repr

structure ToolEvidence where
  seq : ℕ
  stage : EvidenceStage
  outcome : EvidenceOutcome
  code : Option ErrorCode
  deriving DecidableEq, Repr

structure ToolError where
  code : ErrorCode
  stage : EvidenceStage
  issues : Option (List JSString)
  deriving DecidableEq, Repr

/-- A result before its ledger is sealed; a dry run has no output. -/
inductive CallOutcome (O : Type*)
  | ok (output : Option O)
  | error (error : ToolError)
  deriving DecidableEq, Repr

inductive LedgerPhase
  | intent
  | committed
  | failed (code : ErrorCode)
  deriving DecidableEq, Repr

structure CallResult (O : Type*) where
  outcome : CallOutcome O
  dryRun : Bool
  evidence : List ToolEvidence
  ledger : List LedgerPhase
  deriving DecidableEq, Repr

structure Reservation where
  entryKey : EntryKey
  value : JSString
  deriving DecidableEq, Repr

/-- How a call goes on once the store has answered `abandon` or `complete`. -/
inductive Next (O : Type*)
  | denied (stage : EvidenceStage) (code : ErrorCode)
  | dryRun
  | output (value : O)
  | outputInvalid (issues : List JSString)
  | caught (code : Bool)
  deriving DecidableEq, Repr

inductive Stop (O : Type*)
  | input
  | policy
  | key
  | beginning (input : EntryKey)
  | begun
  | admitted
  | executing
  | output
  | abandoning (next : Next O)
  | completing (next : Next O)
  | settled (next : Next O) (completed : Bool)
  | finishing (outcome : CallOutcome O)
  | answered (result : CallResult O)
  deriving DecidableEq, Repr

inductive Deed
  | inputValid
  | policySatisfied
  | reserved
  | consumed
  | aborted
  | entered
  | outputValid
  | abandoned (reservation : Reservation)
  | completed (reservation : Reservation) (accepted : Bool)
  deriving DecidableEq, Repr

structure Call (O : Type*) where
  tool : ToolContract
  options : CallOptions
  aborted : Bool
  reservation : Option Reservation
  executed : Bool
  evidence : List ToolEvidence
  ledger : List LedgerPhase
  stop : Stop O
  deeds : List Deed
  deriving DecidableEq, Repr

/-- An answer of the environment; an error says whether it is an `AbortError`. -/
inductive Answer (O : Type*)
  | input (answer : Except Bool (Option (List JSString)))
  | policy (answer : Except Bool Bool)
  | key (answer : Except Bool JSString)
  | execute (answer : Except Bool Unit)
  | output (answer : Except Bool (Except (List JSString) O))
  | settle
  | finish (sealed : Bool)

variable {O : Type*}

namespace Call

variable (c : Call O)

def record (stage : EvidenceStage) (outcome : EvidenceOutcome) (code : Option ErrorCode) :
    Call O :=
  if 64 ≤ c.evidence.length then c
  else { c with evidence := c.evidence ++ [⟨c.evidence.length, stage, outcome, code⟩] }

def finish (outcome : CallOutcome O) : Call O := { c with stop := .finishing outcome }

def deny (stage : EvidenceStage) (code : ErrorCode) : Call O :=
  (c.record stage .denied (some code)).finish (.error ⟨code, stage, none⟩)

/-- The `catch`: an executor that was entered keeps its key. -/
def throw (abort : Bool) : Call O :=
  { c with stop := if c.executed then .completing (.caught abort) else .abandoning (.caught abort) }

def approve : Call O :=
  match checkApproval c.tool.approval c.options.approval with
  | some code => c.deny .approval code
  | none =>
    let c := c.record .approval (if c.tool.approval = .none then .skipped else .passed) none
    match c.tool.idempotency with
    | none => { c with stop := .admitted }
    | some policy =>
      if ¬ validIdempotencyNamespace (c.options.ns.getD (js "tool")) then
        c.deny .idempotency .idempotencyStoreMissing
      else if ¬ c.options.idempotency then c.deny .idempotency .idempotencyStoreMissing
      -- The store in process memory is not durable.
      else if policy.scope = .durable then c.deny .idempotency .idempotencyDurability
      else { c with stop := .key }

def afterInput : Except Bool (Option (List JSString)) → Call O
  | .error abort => c.throw abort
  | .ok (some issues) =>
    (c.record .input .denied (some .inputInvalid)).finish
      (.error ⟨.inputInvalid, .input, some issues⟩)
  | .ok none =>
    let c := { c with deeds := .inputValid :: c.deeds }
    let c := c.record .input .passed none
    if c.aborted then c.deny .capability .cancelled
    else if ¬ hasCapability c.options.capabilities c.tool.capability then
      c.deny .capability .capabilityDenied
    else
      let c := c.record .capability .passed none
      match c.tool.capabilityCeiling with
      | none => c.approve
      | some ceiling =>
        if ¬ ceiling.contains c.tool.capability ∨ ¬ c.options.executionPolicy then
          c.deny .policy .executionPolicyUnsatisfied
        else { c with stop := .policy }

def afterPolicy : Except Bool Bool → Call O
  | .error abort => c.throw abort
  | .ok false => c.deny .policy .executionPolicyUnsatisfied
  | .ok true =>
    let c := { c with deeds := .policySatisfied :: c.deeds }
    (c.record .policy .passed none).approve

def afterKey : Except Bool JSString → Call O
  | .error abort => c.throw abort
  | .ok key =>
    if ¬ validIdempotencyKey key then c.deny .idempotency .idempotencyStoreMissing
    else { c with stop := .beginning ⟨c.options.ns.getD (js "tool"), key⟩ }

/-- From the budget to the executor, which is entered without a further stop. -/
def enter : Except Bool Bool → Call O
  | answer =>
    let c := c.record .idempotency (if c.tool.idempotency.isNone then .skipped else .passed) none
    let spend : Except Bool Bool := if c.options.budget then answer else .ok true
    match spend with
    | .error abort => c.throw abort
    | .ok false => { c with stop := .abandoning (.denied .budget .budgetExceeded) }
    | .ok true =>
      let c := { c with deeds := .consumed :: c.deeds }
      let c := c.record .budget (if c.tool.cost then .passed else .skipped) none
      if c.aborted then { c with stop := .abandoning (.denied .execution .cancelled) }
      else if c.options.dryRun then { c with stop := .abandoning .dryRun }
      else { c with executed := true, stop := .executing, deeds := .entered :: c.deeds }

def afterBegin (input : EntryKey) (result : Except JSError BeginResult)
    (budget : Except Bool Bool) : Call O :=
  match result with
  | .error _ => c.throw false
  | .ok .duplicate => c.deny .idempotency .idempotencyDuplicate
  | .ok .inFlight => c.deny .idempotency .idempotencyInFlight
  | .ok .capacity => c.deny .idempotency .idempotencyCapacity
  | .ok (.new value) =>
    { c with reservation := some ⟨input, value⟩, deeds := .reserved :: c.deeds }.enter budget

def afterExecute : Except Bool Unit → Call O
  | .error abort => c.throw abort
  | .ok () => { c.record .execution .committed none with stop := .output }

def afterOutput : Except Bool (Except (List JSString) O) → Call O
  | .error abort => c.throw abort
  | .ok (.error issues) => { c with stop := .completing (.outputInvalid issues) }
  | .ok (.ok value) =>
    let c := { c with deeds := .outputValid :: c.deeds }
    { c.record .output .passed none with stop := .completing (.output value) }

/-- The store has answered `abandon` or `complete`, or there was nothing to ask it. -/
def settle (next : Next O) (deed : Option Deed) (completed : Bool) : Call O :=
  { c with stop := .settled next completed, deeds := deed.toList ++ c.deeds }

def abort : Call O := { c with aborted := true, deeds := .aborted :: c.deeds }

/-- After `abandon` or `complete`, with what `complete` answered. -/
def afterSettled (next : Next O) (completed : Bool) : Call O :=
  match next with
  | .denied stage code => c.deny stage code
  | .dryRun => (c.record .execution .dryRun none).finish (.ok none)
  | .output value =>
    if completed then c.finish (.ok (some value))
    else
      (c.record .idempotency .failed (some .idempotencyCapacity)).finish
        (.error ⟨.idempotencyCapacity, .idempotency, none⟩)
  | .outputInvalid issues =>
    if completed then
      (c.record .output .failed (some .outputInvalid)).finish
        (.error ⟨.outputInvalid, .output, some issues⟩)
    else
      (c.record .idempotency .failed (some .idempotencyCapacity)).finish
        (.error ⟨.idempotencyCapacity, .idempotency, none⟩)
  | .caught abort =>
    let code := if c.aborted ∨ abort then .cancelled else .executionFailed
    (c.record .execution .failed (some code)).finish (.error ⟨code, .execution, none⟩)

def afterFinish (outcome : CallOutcome O) (sealed : Bool) : Call O :=
  let phase := match outcome with
    | .ok _ => .committed
    | .error error => .failed error.code
  if sealed then
    let ledger := c.ledger ++ [phase]
    { c with
      ledger := ledger,
      stop := .answered ⟨outcome, c.options.dryRun, c.evidence, ledger⟩ }
  else
    let failed : ToolEvidence := ⟨c.evidence.length, .execution, .failed, some .ledgerFailed⟩
    { c with
      stop := .answered
        ⟨.error ⟨.ledgerFailed, .execution, none⟩, c.options.dryRun, c.evidence ++ [failed], []⟩ }

def answer (a : Answer O) : Option (Call O) :=
  match a, c.stop with
  | .input a, .input => some (c.afterInput a)
  | .policy a, .policy => some (c.afterPolicy a)
  | .key a, .key => some (c.afterKey a)
  | .execute a, .executing => some (c.afterExecute a)
  | .output a, .output => some (c.afterOutput a)
  | .settle, .settled next completed => some (c.afterSettled next completed)
  | .finish sealed, .finishing outcome => some (c.afterFinish outcome sealed)
  | _, _ => none

end Call

def executeTool (tool : ToolContract) (options : CallOptions) (intent : Except Bool Unit) :
    Call O :=
  let c : Call O := ⟨tool, options, false, none, false, [], [], .input, []⟩
  match intent with
  | .ok () => { c with ledger := [.intent] }
  | .error abort => c.throw abort

end Nifra.Tools
