import Mathlib.Algebra.Order.Floor.Defs
import Mathlib.Data.Rat.Floor
import Mathlib.Tactic.Common
import Nifra.Lib.Runs

/-! # Capacity admission

`createAdmissionController` as a machine: slots counted in `inFlight`, a queue of waiters, and
handles that give their slot back once. A timer or an abort may reach a waiter at any moment, also
when it is settled.
-/

namespace Nifra.Admission

/-- The options of a controller, with the checks of its constructor; no `maxLagMs` is infinity. -/
structure Options where
  maxInFlight : ℤ
  maxLagMs : Option ℚ
  maxQueue : ℤ
  reserved : ℤ
  baseRetryAfterSec : ℚ
  maxInFlight_pos : 1 ≤ maxInFlight
  maxLagMs_nonneg : ∀ lag, maxLagMs = some lag → 0 ≤ lag
  maxQueue_nonneg : 0 ≤ maxQueue
  reserved_nonneg : 0 ≤ reserved
  baseRetryAfterSec_pos : 0 < baseRetryAfterSec

inductive ShedReason
  | inflight
  | loopLag
  | queueTimeout
  | policy
  deriving DecidableEq, Repr

/-- What the policy hook says of a request; a number that is not finite is none. -/
inductive Verdict
  | admits
  | sheds (retryAfterSec : Option (Option ℚ))
  deriving DecidableEq, Repr

structure Arrival where
  measuredLag : Option ℚ
  verdict : Option Verdict
  aborted : Bool
  deriving DecidableEq, Repr

inductive Decision
  | admitted (handle : ℕ)
  | shed (reason : ShedReason) (retryAfter : ℤ)
  | cancelled
  deriving DecidableEq, Repr

/-- A waiter, with the decisions that its promise was resolved with. -/
structure Waiter where
  settled : Bool
  decisions : List Decision
  deriving DecidableEq, Repr

structure Stats where
  fastPathAdmits : ℕ
  slowPathEntries : ℕ
  everQueued : ℕ
  shed : ℕ
  deriving DecidableEq, Repr

/-- Waiters and handles are numbered as they are made; a handle knows whether it was released. -/
structure Controller where
  inFlight : ℤ
  queue : List ℕ
  waiters : List Waiter
  handles : List Bool
  stats : Stats
  deriving DecidableEq, Repr

inductive Reply
  | decided (decision : Decision)
  | waiting (waiter : ℕ)
  deriving DecidableEq, Repr

namespace Controller

def create : Controller := ⟨0, [], [], [], ⟨0, 0, 0, 0⟩⟩

variable (o : Options) (s : Controller)

def lagging (measuredLag : Option ℚ) : Bool :=
  match o.maxLagMs, measuredLag.filter fun lag => 0 ≤ lag with
  | none, _ => false
  | some _, none => true
  | some maxLagMs, some lag => decide (maxLagMs < lag)

def retryAfter (retryAfterSec : Option ℚ) : ℤ :=
  max 1 ⌈(retryAfterSec.filter fun retry => 0 ≤ retry).getD o.baseRetryAfterSec⌉

def shedResponse (reason : ShedReason) (retryAfterSec : Option ℚ) : Controller × Decision :=
  ({ s with stats := { s.stats with shed := s.stats.shed + 1 } },
    .shed reason (retryAfter o retryAfterSec))

def makeHandle : Controller × Decision :=
  ({ s with handles := s.handles ++ [false] }, .admitted s.handles.length)

def occupy : Controller × Decision := { s with inFlight := s.inFlight + 1 }.makeHandle

def settle (w : ℕ) (decided : Controller × Decision) : Controller :=
  { decided.1 with
    waiters := decided.1.waiters.modify w fun waiter =>
      { waiter with settled := true, decisions := decided.2 :: waiter.decisions } }

def isSettled (w : ℕ) : Bool := (s.waiters[w]?).any Waiter.settled

def onTimeout (w : ℕ) : Controller :=
  if s.isSettled w then s
  else
    let s := { s with queue := s.queue.erase w }
    settle w (s.shedResponse o .queueTimeout (some o.baseRetryAfterSec))

def onAbort (w : ℕ) : Controller :=
  if s.isSettled w then s
  else
    let s := { s with queue := s.queue.erase w }
    settle w (s, .cancelled)

/-- The loop of `release` over the queue. -/
def transferFrom : List ℕ → Controller
  | [] => { s with queue := [] }
  | w :: queue =>
    if s.inFlight < o.maxInFlight then
      if s.isSettled w then transferFrom queue
      else
        let s := { s with queue := queue, inFlight := s.inFlight + 1 }
        settle w s.makeHandle
    else { s with queue := w :: queue }

/-- Total occupancy falls first: capacity above the public limit is not handed on. -/
def release (handle : ℕ) : Controller :=
  match s.handles[handle]? with
  | some false =>
    let s := { s with handles := s.handles.set handle true, inFlight := s.inFlight - 1 }
    s.transferFrom o s.queue
  | _ => s

def enqueue (aborted : Bool) : Controller × Reply :=
  let s := { s with stats := { s.stats with slowPathEntries := s.stats.slowPathEntries + 1 } }
  if o.maxQueue ≤ 0 ∨ o.maxQueue ≤ s.queue.length then
    let (s, decision) := s.shedResponse o .inflight (some o.baseRetryAfterSec)
    (s, .decided decision)
  else
    let w := s.waiters.length
    let s :=
      { s with
        stats := { s.stats with everQueued := s.stats.everQueued + 1 },
        waiters := s.waiters ++ [⟨false, []⟩],
        queue := s.queue ++ [w] }
    (if aborted then s.onAbort w else s, .waiting w)

/-- `admit` of a request that the policy leaves to the mechanics. -/
def admitOrdinary (measuredLag : Option ℚ) (aborted : Bool) : Controller × Reply :=
  if lagging o measuredLag then
    let (s, decision) := s.shedResponse o .loopLag (some o.baseRetryAfterSec)
    (s, .decided decision)
  else if s.inFlight < o.maxInFlight then
    let s := { s with stats := { s.stats with fastPathAdmits := s.stats.fastPathAdmits + 1 } }
    let (s, decision) := s.occupy
    (s, .decided decision)
  else s.enqueue o aborted

def admitRequest (arrival : Arrival) : Controller × Reply :=
  match arrival.verdict with
  | some (.sheds retryAfterSec) =>
    let (s, decision) := s.shedResponse o .policy (retryAfterSec.getD (some o.baseRetryAfterSec))
    (s, .decided decision)
  | some .admits =>
    let (s, decision) :=
      if s.inFlight < o.maxInFlight + o.reserved then s.occupy
      else s.shedResponse o .policy (some o.baseRetryAfterSec)
    (s, .decided decision)
  | none => s.admitOrdinary o arrival.measuredLag arrival.aborted

end Controller

inductive Event
  | request (arrival : Arrival)
  | release (handle : ℕ)
  | timeout (waiter : ℕ)
  | abort (waiter : ℕ)
  deriving DecidableEq, Repr

def Controller.step (o : Options) (s : Controller) : Event → Option Controller
  | .request arrival => some (s.admitRequest o arrival).1
  | .release handle => if handle < s.handles.length then some (s.release o handle) else none
  | .timeout w => if w < s.waiters.length then some (s.onTimeout o w) else none
  | .abort w => if w < s.waiters.length then some (s.onAbort w) else none

/-! ## The controller's accounts

One invariant over every order of arrivals, releases, timeouts and aborts: the slots are the
handles that are out, the queue waits only while the slots are taken, and each waiter is settled
once.
-/

def Decision.endsWait : Decision → Bool
  | .admitted _ => true
  | .shed reason _ => reason = .queueTimeout
  | .cancelled => true

/-- The queue holds the waiters that are not settled, in the order in which they came. -/
structure Queued (queue : List ℕ) (waiters : List Waiter) : Prop where
  ordered : queue.Pairwise (· < ·)
  valid : ∀ w ∈ queue, w < waiters.length
  waiting : ∀ w waiter, waiters[w]? = some waiter → (w ∈ queue ↔ waiter.settled = false)
  once : ∀ waiter ∈ waiters, waiter.decisions.length = if waiter.settled then 1 else 0
  ends : ∀ waiter ∈ waiters, ∀ decision ∈ waiter.decisions, decision.endsWait

namespace Queued
variable {queue : List ℕ} {waiters : List Waiter} {w : ℕ} {decision : Decision}

theorem empty : Queued [] [] := ⟨.nil, nofun, nofun, nofun, nofun⟩

theorem push (h : Queued queue waiters) :
    Queued (queue ++ [waiters.length]) (waiters ++ [⟨false, []⟩]) := by
  constructor
  · rw [List.pairwise_append]
    refine ⟨h.ordered, List.pairwise_singleton _ _, ?_⟩
    intro w hw w' hw'
    rw [List.mem_singleton.mp hw']
    exact h.valid w hw
  · intro w hw
    rw [List.length_append, List.length_singleton]
    rcases List.mem_append.mp hw with hw | hw
    · have := h.valid w hw
      omega
    · rw [List.mem_singleton.mp hw]
      omega
  · intro w waiter hwaiter
    by_cases hlt : w < waiters.length
    · rw [List.getElem?_append_left hlt] at hwaiter
      rw [← h.waiting w waiter hwaiter]
      simp only [List.mem_append, List.mem_singleton, or_iff_left_iff_imp]
      omega
    · rw [List.getElem?_append_right (not_lt.mp hlt)] at hwaiter
      obtain ⟨hlt', hget⟩ := List.getElem?_eq_some_iff.mp hwaiter
      have heq : w = waiters.length := by
        simp only [List.length_singleton] at hlt'
        omega
      have hnew : waiter = ⟨false, []⟩ := by
        rw [← hget]
        simp
      rw [heq, hnew]
      simp
  · intro waiter hwaiter
    rcases List.mem_append.mp hwaiter with hwaiter | hwaiter
    · exact h.once waiter hwaiter
    · rw [List.mem_singleton.mp hwaiter]
      rfl
  · intro waiter hwaiter
    rcases List.mem_append.mp hwaiter with hwaiter | hwaiter
    · exact h.ends waiter hwaiter
    · rw [List.mem_singleton.mp hwaiter]
      nofun

theorem settle (h : Queued queue waiters) (hw : w ∈ queue) (hends : decision.endsWait) :
    Queued (queue.erase w) (waiters.modify w fun waiter =>
      { waiter with settled := true, decisions := decision :: waiter.decisions }) := by
  have hnodup : queue.Nodup := h.ordered.imp fun hlt => hlt.ne
  constructor
  · exact h.ordered.sublist List.erase_sublist
  · intro v hv
    rw [List.length_modify]
    exact h.valid v (List.mem_of_mem_erase hv)
  · intro v waiter hwaiter
    rw [List.getElem?_modify] at hwaiter
    obtain ⟨old, hold, rfl⟩ := Option.map_eq_some_iff.mp hwaiter
    rw [hnodup.mem_erase_iff, h.waiting v old hold]
    split_ifs with hv
    · simp [hv]
    · simp [Ne.symm hv]
  · intro waiter hwaiter
    obtain ⟨v, hv, hget⟩ := List.getElem_of_mem hwaiter
    have hget' := List.getElem?_eq_some_iff.mpr ⟨hv, hget⟩
    rw [List.getElem?_modify] at hget'
    obtain ⟨old, hold, rfl⟩ := Option.map_eq_some_iff.mp hget'
    have honce := h.once old (List.mem_of_getElem? hold)
    by_cases hwv : w = v
    · subst hwv
      rw [(h.waiting w old hold).mp hw] at honce
      simpa using honce
    · simpa only [hwv, if_false] using honce
  · intro waiter hwaiter
    obtain ⟨v, hv, hget⟩ := List.getElem_of_mem hwaiter
    have hget' := List.getElem?_eq_some_iff.mpr ⟨hv, hget⟩
    rw [List.getElem?_modify] at hget'
    obtain ⟨old, hold, rfl⟩ := Option.map_eq_some_iff.mp hget'
    have holds := h.ends old (List.mem_of_getElem? hold)
    split_ifs
    · intro d hd
      rcases List.mem_cons.mp hd with rfl | hd
      · exact hends
      · exact holds d hd
    · exact holds

theorem not_settled (h : Queued queue waiters) (hw : w ∈ queue) :
    (waiters[w]?).any Waiter.settled = false := by
  have hlt := h.valid w hw
  rw [List.getElem?_eq_getElem hlt, Option.any_some]
  exact (h.waiting w _ (List.getElem?_eq_getElem hlt)).mp hw

theorem mem_of_not_settled (h : Queued queue waiters) (hlt : w < waiters.length)
    (hsettled : (waiters[w]?).any Waiter.settled = false) : w ∈ queue := by
  rw [List.getElem?_eq_getElem hlt, Option.any_some] at hsettled
  exact (h.waiting w _ (List.getElem?_eq_getElem hlt)).mpr hsettled

end Queued

namespace Controller

structure Consistent (o : Options) (s : Controller) : Prop where
  count : s.inFlight = s.handles.count false
  bound : s.inFlight ≤ o.maxInFlight + o.reserved
  room : s.queue.length ≤ o.maxQueue
  full : s.queue ≠ [] → o.maxInFlight ≤ s.inFlight
  queued : Queued s.queue s.waiters

variable {o : Options} {s : Controller} {w handle : ℕ}

theorem Consistent.create : create.Consistent o := by
  constructor
  · rfl
  · have := o.maxInFlight_pos
    have := o.reserved_nonneg
    simp only [Controller.create]
    omega
  · exact o.maxQueue_nonneg
  · exact fun h => absurd rfl h
  · exact .empty

theorem Consistent.stats (h : s.Consistent o) (stats : Stats) :
    Consistent o { s with stats := stats } :=
  ⟨h.count, h.bound, h.room, h.full, h.queued⟩

theorem Consistent.occupy (h : s.Consistent o) (hroom : s.inFlight < o.maxInFlight + o.reserved) :
    s.occupy.1.Consistent o := by
  constructor
  · simp only [Controller.occupy, makeHandle, List.count_append, h.count]
    simp
  · simp only [Controller.occupy, makeHandle]
    omega
  · exact h.room
  · intro hq
    have hfull := h.full hq
    simp only [Controller.occupy, makeHandle]
    omega
  · exact h.queued

theorem Consistent.leave (h : s.Consistent o) (hw : w ∈ s.queue) (stats : Stats)
    {decision : Decision} (hends : decision.endsWait) :
    (settle w ({ s with queue := s.queue.erase w, stats := stats }, decision)).Consistent o := by
  constructor
  · exact h.count
  · exact h.bound
  · have hle : (s.queue.erase w).length ≤ s.queue.length := List.erase_sublist.length_le
    have hroom := h.room
    simp only [settle]
    omega
  · exact fun _ => h.full (List.ne_nil_of_mem hw)
  · exact h.queued.settle hw hends

theorem Consistent.onTimeout (h : s.Consistent o) (hlt : w < s.waiters.length) :
    (s.onTimeout o w).Consistent o := by
  unfold Controller.onTimeout
  split_ifs with hsettled
  · exact h
  · exact h.leave (h.queued.mem_of_not_settled hlt (Bool.eq_false_iff.mpr hsettled)) _ rfl

theorem Consistent.onAbort (h : s.Consistent o) (hlt : w < s.waiters.length) :
    (s.onAbort w).Consistent o := by
  unfold Controller.onAbort
  split_ifs with hsettled
  · exact h
  · exact h.leave (h.queued.mem_of_not_settled hlt (Bool.eq_false_iff.mpr hsettled)) s.stats rfl

theorem transferFrom_queue (h : Queued s.queue s.waiters) :
    s.transferFrom o s.queue = s ∧ (s.queue = [] ∨ o.maxInFlight ≤ s.inFlight) ∨
      ∃ w queue, s.queue = w :: queue ∧ s.inFlight < o.maxInFlight ∧
        s.transferFrom o s.queue =
          settle w { s with queue := queue, inFlight := s.inFlight + 1 }.makeHandle := by
  cases hqueue : s.queue with
  | nil =>
    refine Or.inl ⟨?_, Or.inl rfl⟩
    rw [transferFrom, ← hqueue]
  | cons w queue =>
    have hsettled : s.isSettled w = false := h.not_settled (by simp [hqueue])
    by_cases hlt : s.inFlight < o.maxInFlight
    · refine Or.inr ⟨w, queue, rfl, hlt, ?_⟩
      rw [transferFrom, if_pos hlt, hsettled]
      rfl
    · refine Or.inl ⟨?_, Or.inr (not_lt.mp hlt)⟩
      rw [transferFrom, if_neg hlt, ← hqueue]

theorem count_set (hhandle : s.handles[handle]? = some false) :
    ((s.handles.set handle true).count false : ℤ) = s.handles.count false - 1 := by
  obtain ⟨hlt, hget⟩ := List.getElem?_eq_some_iff.mp hhandle
  have hpos : 0 < s.handles.count false :=
    List.count_pos_iff.mpr (List.mem_of_getElem? hhandle)
  rw [List.count_set hlt, hget]
  simp only [beq_self_eq_true, if_true, Bool.true_eq_false, beq_iff_eq, if_false]
  omega

theorem consistent_transfer (hcount : s.inFlight = s.handles.count false)
    (hbound : s.inFlight ≤ o.maxInFlight + o.reserved) (hroom : s.queue.length ≤ o.maxQueue)
    (hfull : s.queue ≠ [] → o.maxInFlight - 1 ≤ s.inFlight) (hq : Queued s.queue s.waiters) :
    (s.transferFrom o s.queue).Consistent o := by
  rcases transferFrom_queue (o := o) hq with ⟨hsame, htaken⟩ | ⟨w, queue, hqueue, hlt, htransfer⟩
  · rw [hsame]
    exact ⟨hcount, hbound, hroom, fun hne => htaken.resolve_left hne, hq⟩
  · rw [htransfer]
    have hreserved := o.reserved_nonneg
    constructor
    · simp only [settle, makeHandle, List.count_append, hcount]
      simp
    · simp only [settle, makeHandle]
      omega
    · rw [hqueue, List.length_cons] at hroom
      simp only [settle, makeHandle]
      push_cast at hroom
      omega
    · intro _
      have hnear := hfull (by simp [hqueue])
      simp only [settle, makeHandle]
      omega
    · have hends : (Decision.admitted s.handles.length).endsWait := rfl
      have hsettle := hq.settle (w := w) (by simp [hqueue]) hends
      rw [hqueue, List.erase_cons_head] at hsettle
      exact hsettle

theorem Consistent.release (h : s.Consistent o) : (s.release o handle).Consistent o := by
  unfold Controller.release
  split
  · rename_i hhandle
    have hin := h.count
    have hbound := h.bound
    have hcount := count_set hhandle
    refine consistent_transfer ?_ ?_ h.room ?_ h.queued
    · simp only [hcount]
      omega
    · simp only
      omega
    · intro hne
      have hfull := h.full hne
      simp only
      omega
  · exact h

theorem Consistent.enqueue (h : s.Consistent o) {aborted : Bool}
    (hfull : o.maxInFlight ≤ s.inFlight) : (s.enqueue o aborted).1.Consistent o := by
  simp only [Controller.enqueue]
  split_ifs with hroom haborted
  · exact h.stats _
  all_goals
    have hqueued : Consistent o
        { s with
          queue := s.queue ++ [s.waiters.length],
          waiters := s.waiters ++ [⟨false, []⟩] } := by
      constructor
      · exact h.count
      · exact h.bound
      · simp only [List.length_append, List.length_singleton]
        omega
      · exact fun _ => hfull
      · exact h.queued.push
  · exact (hqueued.stats _).onAbort (by simp)
  · exact hqueued.stats _

theorem Consistent.admitRequest (h : s.Consistent o) {arrival : Arrival} :
    (s.admitRequest o arrival).1.Consistent o := by
  have hreserved := o.reserved_nonneg
  unfold Controller.admitRequest
  split
  · exact h.stats _
  · split_ifs with hroom
    · exact h.occupy hroom
    · exact h.stats _
  · unfold admitOrdinary
    split_ifs with hlag hroom
    · exact h.stats _
    · exact (h.stats _).occupy (by simp only; omega)
    · exact h.enqueue (not_lt.mp hroom)

theorem Consistent.step {e : Event} {t : Controller} (h : s.Consistent o)
    (ht : s.step o e = some t) : t.Consistent o := by
  cases e with
  | request arrival =>
    obtain rfl := Option.some.inj ht
    exact h.admitRequest
  | release handle =>
    simp only [Controller.step] at ht
    split_ifs at ht
    obtain rfl := Option.some.inj ht
    exact h.release
  | timeout w =>
    simp only [Controller.step] at ht
    split_ifs at ht with hlt
    obtain rfl := Option.some.inj ht
    exact h.onTimeout hlt
  | abort w =>
    simp only [Controller.step] at ht
    split_ifs at ht with hlt
    obtain rfl := Option.some.inj ht
    exact h.onAbort hlt

def Served (s : Controller) (w handle : ℕ) : Prop :=
  ∃ waiter, s.waiters[w]? = some waiter ∧ .admitted handle ∈ waiter.decisions

theorem Consistent.not_served (h : s.Consistent o) (hw : w ∈ s.queue) : ¬ s.Served w handle := by
  rintro ⟨waiter, hget, hmem⟩
  have hone := h.queued.once waiter (List.mem_of_getElem? hget)
  rw [(h.queued.waiting w waiter hget).mp hw] at hone
  rw [List.length_eq_zero_iff.mp hone] at hmem
  cases hmem

theorem served_settle {decision : Decision} {v : ℕ}
    (hv : (settle w (s, decision)).Served v handle) :
    s.Served v handle ∨ v = w ∧ decision = .admitted handle := by
  obtain ⟨waiter, hget, hmem⟩ := hv
  simp only [settle] at hget
  rw [List.getElem?_modify] at hget
  obtain ⟨old, hold, rfl⟩ := Option.map_eq_some_iff.mp hget
  split_ifs at hmem with hwv
  · rcases List.mem_cons.mp hmem with heq | hmem
    · exact Or.inr ⟨hwv.symm, heq.symm⟩
    · exact Or.inl ⟨old, hold, hmem⟩
  · exact Or.inl ⟨old, hold, hmem⟩

theorem served_onAbort {v : ℕ} (hv : (s.onAbort w).Served v handle) : s.Served v handle := by
  unfold Controller.onAbort at hv
  split_ifs at hv
  · exact hv
  · exact (served_settle hv).resolve_right nofun

theorem served_onTimeout {v : ℕ} (hv : (s.onTimeout o w).Served v handle) :
    s.Served v handle := by
  unfold Controller.onTimeout at hv
  split_ifs at hv
  · exact hv
  · exact (served_settle hv).resolve_right nofun

theorem served_admitRequest {arrival : Arrival} (hw : w < s.waiters.length)
    (h : (s.admitRequest o arrival).1.Served w handle) : s.Served w handle := by
  unfold Controller.admitRequest at h
  split at h
  · exact h
  · split_ifs at h
    · exact h
    · exact h
  · unfold admitOrdinary at h
    split_ifs at h
    · exact h
    · exact h
    · simp only [Controller.enqueue] at h
      have hpush {stats queue} (hw : w < s.waiters.length) (h : Served
          ⟨s.inFlight, queue, s.waiters ++ [⟨false, []⟩], s.handles, stats⟩ w handle) :
          s.Served w handle := by
        obtain ⟨waiter, hget, hmem⟩ := h
        rw [List.getElem?_append_left hw] at hget
        exact ⟨waiter, hget, hmem⟩
      split_ifs at h
      · exact h
      · exact hpush hw (served_onAbort h)
      · exact hpush hw h

theorem Consistent.served_release (h : s.Consistent o) {freed v : ℕ} (hw : w ∈ s.queue)
    (hv : v ∈ s.queue) (hserved : (s.release o freed).Served w handle) :
    w ≤ v ∧ handle = s.handles.length := by
  unfold Controller.release at hserved
  split at hserved
  · have hq := transferFrom_queue (o := o)
      (s := { s with handles := s.handles.set freed true, inFlight := s.inFlight - 1 }) h.queued
    rcases hq with ⟨hsame, -⟩ | ⟨first, rest, hqueue, -, htransfer⟩
    · rw [hsame] at hserved
      exact absurd hserved (h.not_served hw)
    · rw [htransfer] at hserved
      rcases served_settle hserved with hold | ⟨rfl, hhandle⟩
      · exact absurd hold (h.not_served hw)
      · constructor
        · have hordered := h.queued.ordered
          simp only at hqueue
          rw [hqueue] at hordered hv
          rcases List.mem_cons.mp hv with rfl | hv
          · exact le_rfl
          · exact (List.rel_of_pairwise_cons hordered hv).le
        · simp only [List.length_set, Decision.admitted.injEq] at hhandle
          exact hhandle.symm
  · exact absurd hserved (h.not_served hw)

theorem Consistent.served_step (h : s.Consistent o) {e : Event} {t : Controller} {v : ℕ}
    (ht : s.step o e = some t) (hw : w ∈ s.queue) (hv : v ∈ s.queue)
    (hserved : t.Served w handle) : w ≤ v ∧ handle = s.handles.length := by
  cases e with
  | request arrival =>
    obtain rfl := Option.some.inj ht
    exact absurd (served_admitRequest (h.queued.valid w hw) hserved) (h.not_served hw)
  | release freed =>
    simp only [Controller.step] at ht
    split_ifs at ht
    obtain rfl := Option.some.inj ht
    exact h.served_release hw hv hserved
  | timeout w' =>
    simp only [Controller.step] at ht
    split_ifs at ht
    obtain rfl := Option.some.inj ht
    exact absurd (served_onTimeout hserved) (h.not_served hw)
  | abort w' =>
    simp only [Controller.step] at ht
    split_ifs at ht
    obtain rfl := Option.some.inj ht
    exact absurd (served_onAbort hserved) (h.not_served hw)

theorem direct_admitRequest {arrival : Arrival}
    (h : (s.admitRequest o arrival).2 = .decided (.admitted handle)) :
    handle = s.handles.length ∧ s.inFlight < o.maxInFlight + o.reserved ∧
      (arrival.verdict = none → s.inFlight < o.maxInFlight) := by
  have hreserved := o.reserved_nonneg
  unfold Controller.admitRequest at h
  split at h
  · cases h
  · rename_i hverdict
    split_ifs at h with hroom
    · cases h
      refine ⟨rfl, hroom, ?_⟩
      rw [hverdict]
      nofun
    · cases h
  · unfold admitOrdinary at h
    split_ifs at h with hlag hroom
    · cases h
    · cases h
      exact ⟨rfl, by omega, fun _ => hroom⟩
    · simp only [Controller.enqueue] at h
      split_ifs at h
      all_goals cases h

theorem Consistent.gone (h : s.Consistent o) :
    w ∉ (s.onTimeout o w).queue ∧ w ∉ (s.onAbort w).queue := by
  have hnodup : s.queue.Nodup := h.queued.ordered.imp fun hlt => hlt.ne
  unfold Controller.onTimeout Controller.onAbort
  split_ifs with hsettled
  · have hnot : w ∉ s.queue := fun hmem => by
      rw [isSettled, h.queued.not_settled hmem] at hsettled
      cases hsettled
    exact ⟨hnot, hnot⟩
  · exact ⟨hnodup.not_mem_erase, hnodup.not_mem_erase⟩

theorem release_again (h : s.handles[handle]? = some true) : s.release o handle = s := by
  rw [Controller.release, h]

/-- What holds of a controller at any moment, and of the next thing that happens to it. -/
structure Accounts (o : Options) (s : Controller) : Prop where
  slots : s.inFlight = s.handles.count false
  total : s.inFlight ≤ o.maxInFlight + o.reserved
  room : s.queue.length ≤ o.maxQueue
  woken : s.queue ≠ [] → o.maxInFlight ≤ s.inFlight
  settled : ∀ w waiter, s.waiters[w]? = some waiter →
    w ∈ s.queue ∧ waiter.decisions = [] ∨
      w ∉ s.queue ∧ ∃ decision, waiter.decisions = [decision] ∧ decision.endsWait
  direct : ∀ arrival handle, (s.admitRequest o arrival).2 = .decided (.admitted handle) →
    handle = s.handles.length ∧ s.inFlight < o.maxInFlight + o.reserved ∧
      (arrival.verdict = none → s.inFlight < o.maxInFlight)
  served : ∀ e t w handle, s.step o e = some t → w ∈ s.queue → t.Served w handle →
    handle = s.handles.length ∧ ∀ v ∈ s.queue, w ≤ v
  gone : ∀ w, w ∉ (s.onTimeout o w).queue ∧ w ∉ (s.onAbort w).queue
  again : ∀ handle, s.handles[handle]? = some true → s.release o handle = s

theorem Consistent.accounts (h : s.Consistent o) : s.Accounts o := by
  constructor
  case slots => exact h.count
  case total => exact h.bound
  case room => exact h.room
  case woken => exact h.full
  case settled =>
    intro w waiter hwaiter
    have hwaiting := h.queued.waiting w waiter hwaiter
    have hmem := List.mem_of_getElem? hwaiter
    have honce := h.queued.once waiter hmem
    cases hsettled : waiter.settled with
    | false =>
      rw [hsettled] at hwaiting honce
      exact Or.inl ⟨hwaiting.mpr rfl, List.length_eq_zero_iff.mp honce⟩
    | true =>
      rw [hsettled] at hwaiting honce
      obtain ⟨decision, hdecision⟩ := List.length_eq_one_iff.mp honce
      refine Or.inr ⟨fun hw => Bool.noConfusion (hwaiting.mp hw), decision, hdecision, ?_⟩
      exact h.queued.ends waiter hmem decision (by simp [hdecision])
  case direct => exact fun _ _ => direct_admitRequest
  case served =>
    intro e t w handle ht hw hserved
    exact ⟨(h.served_step ht hw hw hserved).2, fun v hv => (h.served_step ht hw hv hserved).1⟩
  case gone => exact fun _ => h.gone
  case again => exact fun _ => release_again

/-- Whatever the order of requests, releases, timeouts and aborts. -/
theorem admission_accounts (o : Options) {es : List Event}
    (h : Runs.run (step o) create es = some s) : s.Accounts o :=
  (Runs.run_invariant (fun _ _ _ hs ht => hs.step ht) h Consistent.create).accounts

def narrow : Options where
  maxInFlight := 1
  maxLagMs := some 100
  maxQueue := 2
  reserved := 1
  baseRetryAfterSec := 1
  maxInFlight_pos := by decide
  maxLagMs_nonneg := by
    rintro lag ⟨⟩
    norm_num
  maxQueue_nonneg := by decide
  reserved_nonneg := by decide
  baseRetryAfterSec_pos := by norm_num

/-- The reserved slot is not handed on; the public one is, to the waiter that came first. -/
def crowded : List Event :=
  [.request ⟨some 0, none, false⟩, .request ⟨some 0, none, false⟩, .request ⟨some 0, none, false⟩,
    .request ⟨some 0, some .admits, false⟩, .request ⟨some 0, none, false⟩, .release 1,
    .release 0, .release 0, .abort 1, .timeout 0, .timeout 1]

theorem crowded_runs : (Runs.run (step narrow) create crowded).isSome := by
  decide +kernel

theorem admission_accounts_crowded :
    ((Runs.run (step narrow) create crowded).get crowded_runs).Accounts narrow :=
  admission_accounts narrow (Option.some_get crowded_runs).symm

end Controller

end Nifra.Admission
