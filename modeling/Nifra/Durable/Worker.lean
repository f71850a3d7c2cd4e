import Mathlib.Logic.Function.Basic
import Nifra.Durable.Records
import Nifra.Lib.Runs

/-! # The reconciliation worker

Any number of `runReconciliationWorker` calls share one lease store. An event
carries one of them to its next `await`: the store performs an operation that was
issued, an answer or a page arrives, a handler settles, a check throws, or the
process is lost.
-/

namespace Nifra.Durable.ReconciliationWorker

variable {R Finding : Type}

/-- `ReconciliationWorkerOptions`, without the callbacks whose answers the events carry. -/
structure Options (Finding : Type) where
  name : JSString
  owner : JSString
  leaseMs : Option ℕ := none
  batchSize : Option ℕ := none
  maxPages : Option ℕ := none
  concurrency : Option ℕ := none
  filter : Option (Finding → Bool) := none

/-- `positive`: a count within its bounds, or the error that names it. -/
def positive (value : ℕ) (label : String) (max : ℕ) :
    Except JSError { n : ℕ // 1 ≤ n ∧ n ≤ max } :=
  if h : 1 ≤ value ∧ value ≤ max then .ok ⟨value, h⟩
  else .error (.rangeError (label ++ " must be an integer between 1 and " ++ toString max))

structure Settings where
  leaseMs : { n : ℕ // 1 ≤ n ∧ n ≤ 86400000 }
  batchSize : { n : ℕ // 1 ≤ n ∧ n ≤ 1000 }
  maxPages : { n : ℕ // 1 ≤ n ∧ n ≤ 1000 }
  concurrency : { n : ℕ // 1 ≤ n ∧ n ≤ 64 }

def settings (o : Options Finding) : Except JSError Settings := do
  if !isToken o.name then
    throw (.typeError "reconciliation worker name must be a bounded printable token")
  if !isToken o.owner then
    throw (.typeError "reconciliation worker owner must be a bounded printable token")
  let leaseMs ← positive (o.leaseMs.getD 30000) "reconciliation leaseMs" 86400000
  let batchSize ← positive (o.batchSize.getD 100) "reconciliation batchSize" 1000
  let maxPages ← positive (o.maxPages.getD 10) "reconciliation maxPages" 1000
  let concurrency ← positive (o.concurrency.getD 4) "reconciliation concurrency" 64
  return ⟨leaseMs, batchSize, maxPages, concurrency⟩

/-- `timestamp`: a clock reading in range. -/
def timestamp (now : ℕ) : Except JSError ℕ :=
  if isSafeInteger now then .ok now
  else .error (.rangeError "reconciliation clock must return a non-negative safe integer")

structure Page (Finding : Type) where
  findings : List Finding
  cursor : Option JSString

def selected (o : Options Finding) (page : Page Finding) : List Finding :=
  match o.filter with
  | none => page.findings
  | some f => page.findings.filter f

def validLease (o : Options Finding) (lease : ReconciliationLease) : Bool :=
  lease.name == o.name && lease.owner == o.owner && isToken lease.token &&
    isSafeInteger lease.expiresAt && decide (0 < lease.expiresAt) &&
    lease.cursor.all fun cursor =>
      decide (1 ≤ cursor.length) && decide (cursor.length ≤ 1024) &&
        cursor.all fun c => decide (32 ≤ c) && decide (c ≤ 126)

/-- Where one of the map's tasks stands: at its loop test, in a handler, or returned. -/
inductive Task
  | loop
  | running (index : ℕ)
  | finished
  deriving DecidableEq

/-- The state of a bounded map: the shared index, the first failure, and the tasks. -/
structure BoundedMap where
  next : ℕ
  failure : Option JSError
  tasks : List Task

namespace BoundedMap

def start (length concurrency : ℕ) : BoundedMap :=
  ⟨0, none, List.replicate (min concurrency length) .loop⟩

def take (length : ℕ) (p : BoundedMap) (k : ℕ) : Option BoundedMap :=
  match p.tasks[k]? with
  | some .loop =>
    if p.failure.isSome then some { p with tasks := p.tasks.set k .finished }
    else if length ≤ p.next then
      some { p with next := p.next + 1, tasks := p.tasks.set k .finished }
    else some { p with next := p.next + 1, tasks := p.tasks.set k (.running p.next) }
  | _ => none

def settle (p : BoundedMap) (k : ℕ) (error : Option JSError) : Option (ℕ × BoundedMap) :=
  match p.tasks[k]? with
  | some (.running index) =>
    some (index, { p with failure := p.failure <|> error, tasks := p.tasks.set k .loop })
  | _ => none

end BoundedMap

inductive Outcome
  | returned (acquired : Bool) (pages scanned handled : ℕ)
  | threw (error : JSError)
  | crashed

structure Session where
  settings : Settings
  lease : ReconciliationLease
  cursor : Option JSString
  pages : ℕ := 0
  scanned : ℕ := 0
  handled : ℕ := 0

/-- The awaits of the loop of a call, each followed by the answer it waits for. -/
inductive Point (Finding : Type)
  | loop
  | renew (now : ℕ)
  | renewed (ok : Bool)
  | scan
  | handle (page : Page Finding) (pool : BoundedMap)
  | renewAfterWork (page : Page Finding) (now : ℕ)
  | renewedAfterWork (page : Page Finding) (ok : Bool)
  | checkpoint (page : Page Finding)
  | checkpointed (page : Page Finding) (ok : Bool)
  | release (outcome : Outcome)

inductive Worker (Finding : Type)
  | idle
  | acquiring (settings : Settings) (now : ℕ)
  | answered (settings : Settings) (lease : Option ReconciliationLease)
  | running (session : Session) (at_ : Point Finding)
  | done (outcome : Outcome)

open Worker Point

/-- The call: the option checks, then `acquire` at a clock reading. -/
def begin (o : Options Finding) (now : ℕ) : Worker Finding :=
  match settings o, timestamp now with
  | .ok c, .ok now => .acquiring c now
  | .error e, _ => .done (.threw e)
  | _, .error e => .done (.threw e)

def perform (B : LeaseStore R) (o : Options Finding) (record : Option R) (uuid : JSString) :
    Worker Finding → Option (Worker Finding × Option R)
  | .acquiring c now =>
    match B.acquire record ⟨o.name, o.owner, now, c.leaseMs⟩ uuid with
    | .ok (lease, next) => some (.answered c lease, next)
    | .error e => some (.done (.threw e), record)
  | .running s (.renew now) =>
    match B.renew record ⟨o.name, o.owner, s.lease.token, now, s.settings.leaseMs⟩ with
    | .ok (ok, next) => some (.running s (.renewed ok), next)
    | .error e => some (.running s (.release (.threw e)), record)
  | .running s (.renewAfterWork page now) =>
    match B.renew record ⟨o.name, o.owner, s.lease.token, now, s.settings.leaseMs⟩ with
    | .ok (ok, next) => some (.running s (.renewedAfterWork page ok), next)
    | .error e => some (.running s (.release (.threw e)), record)
  | .running s (.checkpoint page) =>
    let (ok, next) := B.checkpoint record ⟨o.name, o.owner, s.lease.token, page.cursor⟩
    some (.running s (.checkpointed page ok), next)
  | .running s (.release outcome) =>
    let (_, next) := B.release record ⟨o.name, o.owner, s.lease.token⟩
    some (.done outcome, next)
  | _ => none

/-- `return { acquired: true, pages, scanned, handled }`, through the `finally` block. -/
def Session.finish (s : Session) : Worker Finding :=
  .running s (.release (.returned true s.pages s.scanned s.handled))

/-- An error thrown inside the `try` block releases the lease first. -/
def Session.fail (s : Session) (e : JSError) : Worker Finding :=
  .running s (.release (.threw e))

/-- The call goes on from an answer to its next `await`. -/
def proceed (o : Options Finding) (now : ℕ) : Worker Finding → Option (Worker Finding)
  | .answered _ none => some (.done (.returned false 0 0 0))
  | .answered c (some lease) =>
    if validLease o lease then some (.running { settings := c, lease, cursor := lease.cursor } .loop)
    else some (.done (.threw (.typeError "reconciliation lease store returned an invalid lease")))
  | .running s .loop =>
    if s.pages < s.settings.maxPages then
      match timestamp now with
      | .ok now => some (.running s (.renew now))
      | .error e => some (s.fail e)
    else some s.finish
  | .running s (.renewed ok) =>
    if ok then some (.running s .scan)
    else some (s.fail (.error "reconciliation lease lost"))
  | .running s (.handle page pool) =>
    if pool.tasks.all (· == .finished) then
      match pool.failure with
      | some e => some (s.fail e)
      | none =>
        match timestamp now with
        | .ok now => some (.running s (.renewAfterWork page now))
        | .error e => some (s.fail e)
    else none
  | .running s (.renewedAfterWork page ok) =>
    if ok then some (.running s (.checkpoint page))
    else some (s.fail (.error "reconciliation lease expired during page handling"))
  | .running s (.checkpointed page ok) =>
    if ok then
      let s := { s with cursor := page.cursor }
      if page.cursor.isNone then some s.finish else some (.running s .loop)
    else some (s.fail (.error "reconciliation lease lost before checkpoint"))
  | _ => none

/-- A check, a callback or a rejected promise throws. While handlers run, only they can. -/
def raise (e : JSError) : Worker Finding → Option (Worker Finding)
  | .acquiring _ _ => some (.done (.threw e))
  | .answered _ _ => some (.done (.threw e))
  | .running _ (.handle _ _) => none
  | .running _ (.release _) => some (.done (.threw e))
  | .running s _ => some (s.fail e)
  | _ => none

/-- What the history records: the pages scanned and the findings handled without error. -/
inductive Entry (Finding : Type)
  | scanned (worker number : ℕ) (from_ : Option JSString) (page : Page Finding)
  | handled (worker number index : ℕ)

structure State (R Finding : Type) where
  leases : JSString → Option R
  workers : ℕ → Worker Finding
  issued : List JSString
  history : List (Entry Finding)

def State.init : State R Finding := ⟨fun _ => none, fun _ => .idle, [], []⟩

def State.setWorker (s : State R Finding) (w : ℕ) (worker : Worker Finding) : State R Finding :=
  { s with workers := Function.update s.workers w worker }

inductive Event (Finding : Type)
  | call (w now : ℕ)
  | store (w : ℕ) (uuid : JSString)
  | proceed (w now : ℕ)
  | scanned (w : ℕ) (page : Page Finding)
  | take (w task : ℕ)
  | settle (w task : ℕ) (error : Option JSError)
  | raise (w : ℕ) (error : JSError)
  | crash (w : ℕ)

def Event.worker : Event Finding → ℕ
  | .call w _ | .store w _ | .proceed w _ | .scanned w _ | .take w _ | .settle w _ _
  | .raise w _ | .crash w => w

/-- One event. A token comes from `crypto.randomUUID()`, so no acquisition repeats one. -/
def step (B : LeaseStore R) (options : ℕ → Options Finding) (s : State R Finding) :
    Event Finding → Option (State R Finding)
  | .call w now =>
    match s.workers w with
    | .idle => some (s.setWorker w (begin (options w) now))
    | _ => none
  | .store w uuid =>
    let name := (options w).name
    if uuid ∈ s.issued then none
    else (perform B (options w) (s.leases name) uuid (s.workers w)).map fun (worker, record) =>
      { (s.setWorker w worker) with
        leases := Function.update s.leases name record
        issued := uuid :: s.issued }
  | .proceed w now => (proceed (options w) now (s.workers w)).map (s.setWorker w)
  | .scanned w page =>
    match s.workers w with
    | .running session .scan =>
      if session.settings.batchSize < page.findings.length then
        some (s.setWorker w (session.fail
          (.typeError "reconciliation scan returned an invalid or oversized page")))
      else
        let length := (selected (options w) page).length
        let next := { session with
          pages := session.pages + 1
          scanned := session.scanned + page.findings.length }
        some { (s.setWorker w (.running next
            (.handle page (.start length session.settings.concurrency)))) with
          history := .scanned w next.pages session.cursor page :: s.history }
    | _ => none
  | .take w k =>
    match s.workers w with
    | .running session (.handle page pool) =>
      (pool.take (selected (options w) page).length k).map fun pool =>
        s.setWorker w (.running session (.handle page pool))
    | _ => none
  | .settle w k error =>
    match s.workers w with
    | .running session (.handle page pool) =>
      (pool.settle k error).map fun (index, pool) =>
        match error with
        | some _ => s.setWorker w (.running session (.handle page pool))
        | none =>
          { (s.setWorker w (.running { session with handled := session.handled + 1 }
              (.handle page pool))) with
            history := .handled w session.pages index :: s.history }
    | _ => none
  | .raise w e => (raise e (s.workers w)).map (s.setWorker w)
  | .crash w => some (s.setWorker w (.done .crashed))

end Nifra.Durable.ReconciliationWorker
