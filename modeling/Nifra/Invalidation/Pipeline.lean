import Mathlib.Algebra.Order.Ring.Int
import Mathlib.Data.List.Basic
import Nifra.Text.JSString

/-! # The invalidation pipeline

A write makes data caches, stored pages, clients and a CDN stale, and they are purged in that order.
A cache stage that fails ends the attempt; what can be tried again is tried again from the first
stage that failed. What the targets answer to their calls is left open.
-/

namespace Nifra.Invalidation

inductive Stage
  | data
  | pages
  | publish
  | cdn
  deriving DecidableEq, Repr

def order : List Stage := [.data, .pages, .publish, .cdn]

def retryMs : List ℤ := [200, 600, 1800]
def inlineDeadlineMs : ℤ := 2000

structure InvalidationOp where
  id : JSString
  paths : List JSString
  tags : List JSString
  keys : List JSString

structure PagePurge where
  invalidatesTags : Bool

/-- The data caches are numbered; `keyOf` may throw. -/
structure InvalidationTargets where
  dataCaches : Option ℕ
  store : Option PagePurge
  keyOf : Option (JSString → Except Unit (Option JSString))
  publish : Bool
  cdn : Bool

inductive Call
  | invalidateData (cache : ℕ) (tag : JSString)
  | deletePage (key : JSString)
  | invalidatePages (tag : JSString)
  | publish (keys : List JSString)
  | purge (tags paths : List JSString)
  deriving DecidableEq, Repr

inductive CdnPurge
  | accepted
  | queued
  | failed
  deriving DecidableEq, Repr

structure CdnPurgeOutcome where
  cdn : CdnPurge
  retryable : Bool
  error : Option JSString
  deriving DecidableEq, Repr

structure StageReport where
  stage : Stage
  ok : Bool
  retryable : Bool
  error : Option JSString
  queued : Bool
  deriving DecidableEq, Repr

structure InvalidationReport where
  id : JSString
  ok : Bool
  stages : List StageReport
  deriving DecidableEq, Repr

inductive Entry
  | call (call : Call)
  | report (report : StageReport)
  deriving DecidableEq, Repr

/-- `answers` is what a call comes to after what has happened, a rejection or an outcome that only
the CDN's stage reads; `clock` is what the readings of the clock give, one after the other. -/
structure Settling where
  op : InvalidationOp
  targets : InvalidationTargets
  answers : List Entry → Call → Option CdnPurgeOutcome
  background : Bool
  clock : ℕ → ℤ

namespace Stage

def done (stage : Stage) : StageReport := ⟨stage, true, false, none, false⟩

def name : Stage → JSString
  | data => js "data"
  | pages => js "pages"
  | publish => js "publish"
  | cdn => js "cdn"

def rejected (stage : Stage) : StageReport :=
  ⟨stage, false, true, some (stage.name ++ js "_failed"), false⟩

def purged (outcome : CdnPurgeOutcome) : StageReport :=
  match outcome.cdn with
  | .failed => ⟨cdn, false, outcome.retryable,
      some (outcome.error.getD (js "cdn_purge_failed")), false⟩
  | .queued => ⟨cdn, true, false, none, true⟩
  | .accepted => done cdn

end Stage

/-- The work of a stage: calls one after the other, `none` for code that throws, or a report at
once. -/
inductive Work
  | calls (calls : List (Option Call))
  | refuse (report : StageReport)

namespace Settling
variable (s : Settling)

def deletion (path : JSString) : List (Option Call) :=
  match s.targets.keyOf with
  | none => []
  | some keyOf =>
    match keyOf path with
    | .error _ => [none]
    | .ok none => []
    | .ok (some key) => [some (.deletePage key)]

def work : Stage → Option Work
  | .data =>
    match s.targets.dataCaches with
    | none => none
    | some caches =>
      if s.op.tags.length = 0 then none
      else some (.calls ((List.range caches).flatMap fun cache =>
        s.op.tags.map fun tag => some (.invalidateData cache tag)))
  | .pages =>
    match s.targets.store with
    | none => none
    | some store =>
      if s.op.paths.length + s.op.tags.length = 0 then none
      else if 0 < s.op.tags.length ∧ store.invalidatesTags = false then
        some (.refuse ⟨.pages, false, false, some (js "tag_invalidation_not_supported"), false⟩)
      else some (.calls (s.op.paths.flatMap s.deletion ++
        s.op.tags.map fun tag => some (.invalidatePages tag)))
  | .publish =>
    if s.targets.publish = false ∨ s.op.keys.length + s.op.tags.length = 0 then none
    else some (.calls [some (.publish (s.op.keys ++ s.op.tags).eraseDups)])
  | .cdn =>
    if s.targets.cdn = false ∨ s.op.paths.length + s.op.tags.length = 0 then none
    else some (.calls [some (.purge s.op.tags s.op.paths)])

def hasWork (stage : Stage) : Bool := (s.work stage).isSome

def runCalls (stage : Stage) (history : List Entry) :
    List (Option Call) → Option CdnPurgeOutcome → List Entry × StageReport
  | [], some outcome => (history, if stage = .cdn then Stage.purged outcome else stage.done)
  | [], none => (history, stage.done)
  | none :: _, _ => (history, stage.rejected)
  | some call :: calls, _ =>
    let after := history ++ [.call call]
    match s.answers history call with
    | none => (after, stage.rejected)
    | some outcome => runCalls stage after calls (some outcome)

def runStage (stage : Stage) (history : List Entry) : Option (List Entry × StageReport) :=
  (s.work stage).map fun work =>
    let (history, report) := match work with
      | .calls calls => s.runCalls stage history calls none
      | .refuse report => (history, report)
    (history ++ [.report report], report)

def runStages : List Stage → List Entry → List Entry × List StageReport
  | [], history => (history, [])
  | stage :: rest, history =>
    match s.runStage stage history with
    | none => runStages rest history
    | some (history, report) =>
      -- a cache stage that failed leaves data that a reload would read
      if report.ok = false ∧ (stage = .data ∨ stage = .pages) then (history, [report])
      else
        let (history, reports) := runStages rest history
        (history, report :: reports)

end Settling

def stagesFrom (stage : Stage) : List Stage := order.dropWhile fun other => other ≠ stage

def firstFailed (reports : List StageReport) : Option StageReport :=
  reports.find? fun report => report.ok = false

structure Attempt where
  first : Stage
  reports : List StageReport
  deriving DecidableEq, Repr

/-- What has come of an operation: its attempts, and the reports that `onError` was called with. -/
structure Settled where
  history : List Entry
  attempts : List Attempt
  errors : List InvalidationReport

namespace Settling
variable (s : Settling)

def reportOf (attempt : Attempt) : InvalidationReport :=
  ⟨s.op.id, attempt.reports.all fun report => report.ok, attempt.reports⟩

def runInvalidation (history : List Entry) (first : Stage) : List Entry × Attempt :=
  let (history, reports) := s.runStages (stagesFrom first) history
  (history, ⟨first, reports⟩)

/-- The retries after an attempt that failed at a stage; `reading` counts the readings of the clock.
-/
def retry : List ℤ → ℕ → List Entry → List Attempt → Attempt → Stage → Settled
  | [], _, history, attempts, last, _ =>
    ⟨history, attempts ++ [last], [s.reportOf last]⟩
  | delay :: delays, reading, history, attempts, last, stage =>
    if s.background = false ∧ inlineDeadlineMs ≤ s.clock reading - s.clock 0 + delay then
      ⟨history, attempts ++ [last], [s.reportOf last]⟩
    else
      let (history, next) := s.runInvalidation history stage
      match firstFailed next.reports with
      | none => ⟨history, attempts ++ [last, next], []⟩
      | some failed =>
        if failed.retryable = false then
          ⟨history, attempts ++ [last, next], [s.reportOf next]⟩
        else retry delays (reading + 1) history (attempts ++ [last]) next failed.stage

/-- `settleInvalidation`, and the retries it leaves to the background. -/
def settleInvalidation : Settled :=
  let (history, first) := s.runInvalidation [] .data
  if (s.reportOf first).ok then ⟨history, [first], []⟩
  else
    match firstFailed first.reports with
    | none => ⟨history, [first], [s.reportOf first]⟩
    | some failed =>
      if failed.retryable = false then ⟨history, [first], [s.reportOf first]⟩
      else s.retry retryMs 1 history [] first failed.stage

end Settling

end Nifra.Invalidation
