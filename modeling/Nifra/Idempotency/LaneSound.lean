import Mathlib.Tactic.Common
import Nifra.Idempotency.Lane
import Nifra.Lib.Runs

/-! # Requests over one store

Any number of requests in the idempotency lane over one store that keeps its contract, under one
clock that does not run backwards. A store call is asked, performed and answered at three
moments, and may reject at any of them: one that was asked may still be performed later, as may
the renewals that nobody waits for.
-/

namespace Nifra.Idempotency

variable {T E : Type*}

/-- The requests are numbered as they arrive; `strays` are store calls that nobody waits for. -/
structure Lanes (T E : Type*) where
  clock : T
  book : Book T
  requests : List (Request T E)
  strays : List (StoreOp T)

inductive LaneEvent (T E : Type*)
  | request (route : Route T E) (prepared : Prepared E)
  | abort (i : ℕ)
  | answer (i : ℕ) (answer : LaneAnswer E)
  | enter (i : ℕ)
  | mark (i : ℕ) (effect : EffectMark)
  | perform (i : ℕ) (t : T) (answer : StoreAnswer)
  | deliver (i : ℕ)
  | reject (i : ℕ) (error : E)
  | renew (i : ℕ)
  | stray (n : ℕ) (t : T) (answer : StoreAnswer)

namespace Lanes

section Requests
variable (s : Lanes T E)

def put (i : ℕ) (c : Request T E) : Lanes T E := { s with requests := s.requests.set i c }

def advance (i : ℕ) (f : Request T E → Option (Request T E)) : Option (Lanes T E) :=
  (s.requests[i]?).bind fun c => (f c).map (s.put i)

def reject [DecidableEq E] (i : ℕ) (error : E) : Option (Lanes T E) :=
  (s.requests[i]?).bind fun c => (c.reject error).map fun c' =>
    let left : List (StoreOp T) := match c.stop with
      | .calling op none _ => [op]
      | _ => []
    { s with requests := s.requests.set i c', strays := left ++ s.strays }

def renew (i : ℕ) : Option (Lanes T E) :=
  (s.requests[i]?).bind fun c =>
    match c.heartbeat, c.reservation, c.route.pendingTtlMs with
    | true, some reservation, some ttlMs =>
      some { s with strays := .renew ⟨c.entryKey, reservation, ttlMs⟩ :: s.strays }
    | _, _, _ => none

end Requests

section Store
variable [LinearOrder T] [Add T] (s : Lanes T E)

def perform (i : ℕ) (t : T) (answer : StoreAnswer) : Option (Lanes T E) :=
  (s.requests[i]?).bind fun c =>
    match c.stop with
    | .calling op none next =>
      if s.clock ≤ t then
        (s.book.perform op t answer).map fun book =>
          { s with
            clock := t,
            book := book,
            requests := s.requests.set i { c with stop := .calling op (some answer) next } }
      else none
    | _ => none

def stray (n : ℕ) (t : T) (answer : StoreAnswer) : Option (Lanes T E) :=
  (s.strays[n]?).bind fun op =>
    if s.clock ≤ t then
      (s.book.perform op t answer).map fun book =>
        { s with clock := t, book := book, strays := s.strays.eraseIdx n }
    else none

end Store

def step [LinearOrder T] [Add T] [DecidableEq E] (s : Lanes T E) :
    LaneEvent T E → Option (Lanes T E)
  | .request route prepared =>
    some { s with requests := s.requests ++ [admitRequest route prepared] }
  | .abort i => s.advance i fun c => some { c with aborted := true }
  | .answer i answer => s.advance i fun c => c.answer answer
  | .enter i => s.advance i Request.enter
  | .mark i effect => s.advance i fun c => c.mark effect
  | .perform i t answer => s.perform i t answer
  | .deliver i => s.advance i fun c => c.deliver
  | .reject i error => s.reject i error
  | .renew i => s.renew i
  | .stray n t answer => s.stray n t answer

end Lanes

def Lanes.init (clock : T) : Lanes T E := ⟨clock, [], [], []⟩

namespace Lanes
variable {s t : Lanes T E} {i n : ℕ}

theorem advance_cases {f : Request T E → Option (Request T E)} (h : s.advance i f = some t) :
    ∃ c c', s.requests[i]? = some c ∧ f c = some c' ∧ t = s.put i c' := by
  obtain ⟨c, hc, h⟩ := Option.bind_eq_some_iff.mp h
  obtain ⟨c', hc', rfl⟩ := Option.map_eq_some_iff.mp h
  exact ⟨c, c', hc, hc', rfl⟩

theorem reject_cases [DecidableEq E] {error : E} (h : s.reject i error = some t) :
    ∃ c c' strays, s.requests[i]? = some c ∧ c.reject error = some c' ∧
      t = { s.put i c' with strays := strays } := by
  obtain ⟨c, hc, h⟩ := Option.bind_eq_some_iff.mp h
  obtain ⟨c', hc', rfl⟩ := Option.map_eq_some_iff.mp h
  exact ⟨c, c', _, hc, hc', rfl⟩

theorem renew_cases (h : s.renew i = some t) : ∃ strays, t = { s with strays := strays } := by
  obtain ⟨c, hc, h⟩ := Option.bind_eq_some_iff.mp h
  split at h
  · exact ⟨_, (Option.some.inj h).symm⟩
  · cases h

variable [LinearOrder T] [Add T] {now : T} {answer : StoreAnswer}

theorem perform_cases (h : s.perform i now answer = some t) :
    ∃ c op next book, s.requests[i]? = some c ∧ c.stop = .calling op none next ∧ s.clock ≤ now ∧
      s.book.perform op now answer = some book ∧
      t = { s.put i { c with stop := .calling op (some answer) next } with
        clock := now, book := book } := by
  obtain ⟨c, hc, h⟩ := Option.bind_eq_some_iff.mp h
  split at h
  · rename_i op next hstop
    split_ifs at h with hclock
    obtain ⟨book, hbook, rfl⟩ := Option.map_eq_some_iff.mp h
    exact ⟨c, op, next, book, hc, hstop, hclock, hbook, rfl⟩
  · cases h

theorem stray_cases (h : s.stray n now answer = some t) :
    ∃ op book strays, s.clock ≤ now ∧ s.book.perform op now answer = some book ∧
      t = { s with clock := now, book := book, strays := strays } := by
  obtain ⟨op, hop, h⟩ := Option.bind_eq_some_iff.mp h
  split_ifs at h with hclock
  obtain ⟨book, hbook, rfl⟩ := Option.map_eq_some_iff.mp h
  exact ⟨op, book, _, hclock, hbook, rfl⟩

end Lanes

/-! ## One request of the lane

What holds of a request at each of its stops: before `begin` has answered it claims nothing, a
reservation is settled once on the way out, and never by an `abandon` behind an effect.
-/

structure Standing where
  reservation : Option JSString
  settlements : List Settlement
  entered : Bool
  heartbeat : Bool
  refused : Bool
  scope : Option EffectScope

def Request.standing (c : Request T E) : Standing :=
  ⟨c.reservation, c.settlements, c.entered, c.heartbeat, c.refused, c.scope⟩

namespace Standing

structure Unclaimed (s : Standing) : Prop where
  reservation : s.reservation = none
  settlements : s.settlements = []
  entered : s.entered = false
  heartbeat : s.heartbeat = false
  refused : s.refused = false

/-- The store has not answered `begin`. -/
structure Unbegun (s : Standing) : Prop extends s.Unclaimed where
  scope : s.scope = none

structure Claimed (s : Standing) (r : JSString) : Prop where
  reservation : s.reservation = some r
  settlements : s.settlements = []
  refused : s.refused = false

/-- One settlement was asked for; an `abandon` when no effect had begun. -/
structure Settling (s : Standing) (r : JSString) : Prop where
  reservation : s.reservation = some r
  once : ∃ x, s.settlements = [x] ∧ x.reservation = r ∧ (x.abandons = true → x.began = false)

structure Over (s : Standing) : Prop where
  heartbeat : s.heartbeat = false
  settled : s.Unclaimed ∨ ∃ r, s.Settling r

theorem Unclaimed.over {s : Standing} (h : s.Unclaimed) : s.Over := ⟨h.heartbeat, Or.inl h⟩

theorem Over.scoped {s : Standing} (h : s.Over) (scope : Option EffectScope) :
    { s with scope := scope }.Over := by
  refine ⟨h.heartbeat, h.settled.imp ?_ ?_⟩
  · rintro ⟨h₁, h₂, h₃, h₄, h₅⟩
    exact ⟨h₁, h₂, h₃, h₄, h₅⟩
  · rintro ⟨r, hr⟩
    exact ⟨r, hr.reservation, hr.once⟩

theorem Unbegun.over {s : Standing} (h : s.Unbegun) : s.Over := h.toUnclaimed.over

end Standing

/-- What is serialized: the program's response, or one of the lane's own. -/
def Capture.Of (response : Response E) : Capture → Prop
  | .response => True
  | .tooLarge => response = jsonError 507 "idempotency_response_too_large" false
  | .empty => response = emptyResponse 507
  | .terminal => response = emptyResponse 500

def Stop.Holds (s : Standing) (k : EntryKey) : Stop T E → Prop
  | .resolving | .reading | .digesting => s.Unbegun
  | .replaying => s.Unclaimed
  | .calling (.begin input) _ next => s.Unbegun ∧ input.toEntryKey = k ∧ next = .begun
  | .calling (.abandon input) _ next =>
    s.Settling input.reservation ∧ s.refused = false ∧ next ≠ .begun ∧
      (next = .timedOut → s.heartbeat = false)
  | .calling (.complete input) _ next =>
    s.Settling input.reservation ∧ s.refused = false ∧ ∃ response, next = .respond response
  | .calling (.renew _) _ _ => False
  | .running r => s.Claimed r
  | .capturing r response capture => s.Claimed r ∧ capture.Of response
  | .failing _ | .answered _ => s.Over

namespace Request

def Sound (c : Request T E) : Prop := c.stop.Holds c.standing c.entryKey

def claim (c : Request T E) : Option JSString :=
  match c.stop with
  | .calling _ (some (.begun (.new reservation))) .begun => some reservation
  | _ => c.reservation

def delivering (c : Request T E) : Bool :=
  match c.stop with
  | .calling _ (some _) _ => true
  | _ => false

/-- A request goes on with the reservation it has, and asks before it is answered. -/
structure Moved (c c' : Request T E) : Prop where
  reservation : c'.reservation = c.reservation
  entryKey : c.reservation ≠ none → c'.entryKey = c.entryKey
  refused : c'.refused = c.refused
  asks : c'.delivering = false

def Keeps (c c' : Request T E) : Prop :=
  ∀ r, c'.claim = some r → c.claim = some r ∧ c'.entryKey = c.entryKey

structure GoesOn (c c' : Request T E) : Prop where
  keeps : c.Keeps c'
  refused : c'.refused = c.refused
  asks : c'.delivering = false

variable {c c' c'' : Request T E} {r : JSString} {error : Failure E} {response : Response E}
  {next : Next E}

theorem Sound.at (h : c.Sound) {stop : Stop T E} (hstop : c.stop = stop) :
    stop.Holds c.standing c.entryKey :=
  hstop ▸ h

theorem Sound.claim_of_reservation (h : c.Sound) (hr : c.reservation = some r) :
    c.claim = some r := by
  unfold claim
  split
  · rename_i op _ hstop
    unfold Sound at h
    rw [hstop] at h
    cases op with
    | begin input =>
      have hnone : c.reservation = none := h.1.reservation
      rw [hnone] at hr
      cases hr
    | complete input =>
      obtain ⟨-, -, _, hnext⟩ := h
      cases hnext
    | abandon input => exact absurd rfl h.2.2.1
    | renew input => exact h.elim
  · exact hr

theorem claim_of_asks (h : c.delivering = false) : c.claim = c.reservation := by
  unfold claim
  split
  · rename_i hstop
    rw [delivering, hstop] at h
    cases h
  · rfl

theorem Sound.keeps (hc : c.Sound) (hreservation : c'.reservation = c.reservation)
    (hkey : c.reservation ≠ none → c'.entryKey = c.entryKey)
    (hasks : c'.delivering = false) : c.Keeps c' := by
  intro r hr
  rw [claim_of_asks hasks, hreservation] at hr
  refine ⟨hc.claim_of_reservation hr, hkey ?_⟩
  rw [hr]
  nofun

theorem Moved.goesOn (h : c.Moved c') (hc : c.Sound) : c.GoesOn c' :=
  ⟨hc.keeps h.reservation h.entryKey h.asks, h.refused, h.asks⟩

theorem moved_reply : c.Moved (c.reply response) := ⟨rfl, fun _ => rfl, rfl, rfl⟩

theorem sound_abandon (h : c.standing.Claimed r) (hbegan : c.began = false)
    (hnext : next ≠ .begun) (htimed : next = .timedOut → c.heartbeat = false) :
    (c.abandon r next).Sound := by
  refine ⟨⟨h.reservation, ⟨true, r, c.began⟩, ?_, rfl, fun _ => hbegan⟩, h.refused, hnext, htimed⟩
  exact congrArg (_ :: ·) h.settlements

theorem moved_abandon : c.Moved (c.abandon r next) := ⟨rfl, fun _ => rfl, rfl, rfl⟩

theorem sound_complete (h : c.standing.Claimed r) {stored : StoredResponse} :
    (c.complete r stored (.respond response)).Sound := by
  refine ⟨⟨h.reservation, ⟨false, r, c.began⟩, ?_, rfl, nofun⟩, h.refused, _, rfl⟩
  exact congrArg (_ :: ·) h.settlements

theorem moved_complete {stored : StoredResponse} : c.Moved (c.complete r stored next) :=
  ⟨rfl, fun _ => rfl, rfl, rfl⟩

theorem over_clearHeartbeat (h : c.standing.Settling r) : c.clearHeartbeat.standing.Over :=
  ⟨rfl, Or.inr ⟨r, h.reservation, h.once⟩⟩

theorem sound_admitBody (h : c.standing.Unbegun) : c.admitBody.Sound := by
  unfold admitBody
  split_ifs
  · exact h.over
  · exact h

theorem sound_readBody (h : c.standing.Unbegun) : c.readBody.Sound := by
  unfold readBody
  split
  · exact h
  · split_ifs
    · exact h.over
    · exact sound_admitBody h

theorem sound_enterNamespace (h : c.standing.Unbegun) {ns : JSString} :
    (c.enterNamespace ns).Sound := by
  unfold enterNamespace
  split_ifs
  · exact sound_readBody h
  · exact h.over

theorem sound_afterRead (h : c.standing.Unbegun) {read : Except ℕ Unit} :
    (c.afterRead read).Sound := by
  cases read with
  | error status => exact h.over
  | ok read => exact sound_admitBody h

theorem sound_afterDigest (h : c.standing.Unbegun) {fingerprint : JSString} :
    (c.afterDigest fingerprint).Sound :=
  ⟨h, rfl, rfl⟩

theorem moved_afterDigest {fingerprint : JSString} : c.Moved (c.afterDigest fingerprint) :=
  ⟨rfl, fun _ => rfl, rfl, rfl⟩

theorem moved_admitBody : c.Moved c.admitBody := by
  unfold admitBody
  split_ifs
  · exact moved_reply
  · exact ⟨rfl, fun _ => rfl, rfl, rfl⟩

theorem moved_readBody : c.Moved c.readBody := by
  unfold readBody
  split
  · exact ⟨rfl, fun _ => rfl, rfl, rfl⟩
  · split_ifs
    · exact moved_reply
    · exact moved_admitBody

theorem moved_enterNamespace (h : c.reservation = none) {ns : JSString} :
    c.Moved (c.enterNamespace ns) := by
  unfold enterNamespace
  split_ifs
  · have hns : c.Moved { c with ns := ns, stop := .resolving } :=
      ⟨rfl, fun hr => absurd h hr, rfl, rfl⟩
    exact ⟨moved_readBody.reservation, fun hr => absurd h hr, moved_readBody.refused,
      moved_readBody.asks⟩
  · exact moved_reply

theorem moved_afterRead {read : Except ℕ Unit} : c.Moved (c.afterRead read) := by
  cases read with
  | error status => exact moved_reply
  | ok read => exact moved_admitBody

theorem sound_settleThrown (h : c.standing.Claimed r) : (c.settleThrown r error).Sound := by
  unfold settleThrown
  split_ifs with hbegan
  · exact ⟨h, rfl⟩
  · exact sound_abandon h (by simpa using hbegan) nofun nofun

theorem moved_settleThrown : c.Moved (c.settleThrown r error) := by
  unfold settleThrown
  split_ifs
  · exact ⟨rfl, fun _ => rfl, rfl, rfl⟩
  · exact moved_abandon

theorem sound_settleResponse (h : c.standing.Claimed r) : (c.settleResponse r response).Sound := by
  unfold settleResponse
  split_ifs with hentered hrefusal
  · exact sound_abandon h (by simpa using hentered.2) nofun nofun
  · exact sound_abandon h (by simpa using hrefusal.2) nofun nofun
  · exact ⟨h, trivial⟩

theorem moved_settleResponse : c.Moved (c.settleResponse r response) := by
  unfold settleResponse
  split_ifs
  · exact moved_abandon
  · exact moved_abandon
  · exact ⟨rfl, fun _ => rfl, rfl, rfl⟩

section Errors
variable [DecidableEq E]

theorem sound_fail (h : c.standing.Over) : (c.fail error).Sound := by
  unfold fail
  split_ifs
  · exact h
  · exact h

theorem moved_fail : c.Moved (c.fail error) := by
  unfold fail
  split_ifs
  · exact ⟨rfl, fun _ => rfl, rfl, rfl⟩
  · exact ⟨rfl, fun _ => rfl, rfl, rfl⟩

theorem sound_afterBegin (h : c.standing.Unbegun) {result : BeginResult} :
    (c.afterBegin result).Sound := by
  have hover : c.standing.Over := h.over
  cases result with
  | new reservation =>
    have hclaimed : { c with reservation := some reservation }.standing.Claimed reservation :=
      ⟨rfl, h.settlements, h.refused⟩
    simp only [afterBegin]
    split_ifs
    · have hscope : c.scope = none := h.scope
      exact sound_abandon hclaimed (by simp [began, hscope]) nofun fun _ => h.heartbeat
    · exact ⟨rfl, h.settlements, h.refused⟩
  | replay stored =>
    simp only [afterBegin]
    split_ifs
    · exact hover
    · split
      · exact sound_fail ⟨h.heartbeat, Or.inl ⟨h.1.1, h.1.2, h.1.3, h.1.4, h.1.5⟩⟩
      · exact sound_fail ⟨h.heartbeat, Or.inl ⟨h.1.1, h.1.2, h.1.3, h.1.4, h.1.5⟩⟩
      · exact ⟨h.1.1, h.1.2, h.1.3, h.1.4, h.1.5⟩
  | mismatch => exact hover
  | inFlight => exact hover
  | capacity => exact hover

theorem goesOn_afterBegin (h : c.standing.Unbegun) {op : StoreOp T} {result : BeginResult}
    (hstop : c.stop = .calling op (some (.begun result)) .begun) :
    c.GoesOn (c.afterBegin result) := by
  have hnone : c.reservation = none := h.reservation
  have hsound : ∀ {c'}, c.Moved c' → c.GoesOn c' := by
    intro c' hmoved
    refine ⟨fun r hr => ?_, hmoved.refused, hmoved.asks⟩
    rw [claim_of_asks hmoved.asks, hmoved.reservation, hnone] at hr
    cases hr
  cases result with
  | new reservation =>
    have hmoved : ({ c with reservation := some reservation } : Request T E).Moved
        (c.afterBegin (.new reservation)) := by
      simp only [afterBegin]
      split_ifs
      · exact moved_abandon
      · exact ⟨rfl, fun _ => rfl, rfl, rfl⟩
    refine ⟨fun r hr => ?_, hmoved.refused, hmoved.asks⟩
    rw [claim_of_asks hmoved.asks, hmoved.reservation] at hr
    refine ⟨?_, hmoved.entryKey nofun⟩
    rw [claim, hstop]
    exact hr
  | replay stored =>
    apply hsound
    simp only [afterBegin]
    split_ifs
    · exact moved_reply
    · have hscope : ∀ {c'}, ({ c with scope := some .fresh } : Request T E).Moved c' → c.Moved c' :=
        fun hmoved => ⟨hmoved.1, hmoved.2, hmoved.3, hmoved.4⟩
      split
      · exact hscope moved_fail
      · exact hscope moved_fail
      · exact ⟨rfl, fun _ => rfl, rfl, rfl⟩
  | mismatch => exact hsound moved_reply
  | inFlight => exact hsound moved_reply
  | capacity => exact hsound moved_reply

theorem sound_leave (h : c.clearHeartbeat.standing.Over) : (c.leave error).Sound := sound_fail h

theorem moved_leave : c.Moved (c.leave error) := by
  have hmoved : c.clearHeartbeat.Moved (c.leave error) := moved_fail
  exact ⟨hmoved.1, hmoved.2, hmoved.3, hmoved.4⟩

omit [DecidableEq E] in
theorem sound_afterProgram (h : c.standing.Claimed r) {result : Except E (Response E)} :
    (c.afterProgram r result).Sound := by
  cases result with
  | error error => exact sound_settleThrown ⟨h.1, h.2, h.3⟩
  | ok response => exact sound_settleResponse h

omit [DecidableEq E] in
theorem moved_afterProgram {result : Except E (Response E)} :
    c.Moved (c.afterProgram r result) := by
  cases result with
  | error error =>
    have hmoved : ({ c with escaped := some (.thrown error) } : Request T E).Moved
        (c.afterProgram r (.error error)) := moved_settleThrown
    exact ⟨hmoved.1, hmoved.2, hmoved.3, hmoved.4⟩
  | ok response => exact moved_settleResponse

theorem sound_afterCapture (h : c.standing.Claimed r) {capture : Capture}
    (hof : capture.Of response) : (c.afterCapture r response capture).Sound := by
  unfold afterCapture
  cases hstored : serializeResponse response c.route.maxResponseBytes with
  | ok stored => exact sound_complete h
  | error error =>
    cases capture with
    | response =>
      cases error with
      | tooLarge => exact ⟨h, rfl⟩
      | failed error => exact sound_settleThrown h
    | tooLarge =>
      obtain rfl := hof
      cases error with
      | tooLarge => exact ⟨h, rfl⟩
      | failed error => exact absurd hstored (serializeResponse_ne_failed rfl)
    | empty =>
      obtain rfl := hof
      rw [serializeResponse_emptyResponse] at hstored
      cases hstored
    | terminal =>
      obtain rfl := hof
      rw [serializeResponse_emptyResponse] at hstored
      cases hstored

theorem moved_afterCapture {capture : Capture} : c.Moved (c.afterCapture r response capture) := by
  unfold afterCapture
  split
  · exact moved_complete
  · exact ⟨rfl, fun _ => rfl, rfl, rfl⟩
  · exact ⟨rfl, fun _ => rfl, rfl, rfl⟩
  · exact moved_leave
  · exact moved_settleThrown
  · exact moved_leave

theorem sound_answer (h : c.Sound) {a : LaneAnswer E} (ha : c.answer a = some c') :
    c'.Sound ∧ c.GoesOn c' := by
  unfold answer at ha
  split at ha
  · rename_i hstop
    obtain rfl := Option.some.inj ha
    exact ⟨sound_fail (Standing.Unbegun.over (h.at hstop)), moved_fail.goesOn h⟩
  · rename_i hstop
    obtain rfl := Option.some.inj ha
    have hunbegun : c.standing.Unbegun := h.at hstop
    exact ⟨sound_enterNamespace hunbegun, (moved_enterNamespace hunbegun.reservation).goesOn h⟩
  · rename_i hstop
    obtain rfl := Option.some.inj ha
    exact ⟨sound_fail (Standing.Unbegun.over (h.at hstop)), moved_fail.goesOn h⟩
  · rename_i hstop
    obtain rfl := Option.some.inj ha
    exact ⟨sound_afterRead (h.at hstop), moved_afterRead.goesOn h⟩
  · rename_i hstop
    obtain rfl := Option.some.inj ha
    exact ⟨sound_fail (Standing.Unbegun.over (h.at hstop)), moved_fail.goesOn h⟩
  · rename_i hstop
    obtain rfl := Option.some.inj ha
    exact ⟨sound_afterDigest (h.at hstop), moved_afterDigest.goesOn h⟩
  · rename_i hstop
    obtain rfl := Option.some.inj ha
    exact ⟨sound_afterProgram (h.at hstop), moved_afterProgram.goesOn h⟩
  · rename_i error hstop
    obtain rfl := Option.some.inj ha
    have hunclaimed : c.standing.Unclaimed := h.at hstop
    have hmoved : ({ c with escaped := some (.thrown error) } : Request T E).Moved
        ({ c with escaped := some (.thrown error) }.fail (.thrown error)) := moved_fail
    exact ⟨sound_fail hunclaimed.over, Moved.goesOn ⟨hmoved.1, hmoved.2, hmoved.3, hmoved.4⟩ h⟩
  · rename_i hstop
    obtain rfl := Option.some.inj ha
    have hunclaimed : c.standing.Unclaimed := h.at hstop
    exact ⟨hunclaimed.over, Moved.goesOn ⟨rfl, fun _ => rfl, rfl, rfl⟩ h⟩
  · rename_i hstop
    obtain rfl := Option.some.inj ha
    have hclaimed := h.at hstop
    exact ⟨sound_afterCapture hclaimed.1 hclaimed.2, moved_afterCapture.goesOn h⟩
  · rename_i hstop
    obtain rfl := Option.some.inj ha
    have hover : c.standing.Over := h.at hstop
    exact ⟨hover, Moved.goesOn ⟨rfl, fun _ => rfl, rfl, rfl⟩ h⟩
  · rename_i hstop
    obtain rfl := Option.some.inj ha
    have hover : c.standing.Over := h.at hstop
    exact ⟨hover, Moved.goesOn ⟨rfl, fun _ => rfl, rfl, rfl⟩ h⟩
  · cases ha

omit [DecidableEq E] in
theorem Sound.unbegun (h : c.Sound) {op : StoreOp T} {answer : Option StoreAnswer}
    (hstop : c.stop = .calling op answer .begun) : c.standing.Unbegun := by
  have hholds := h.at hstop
  cases op with
  | begin input => exact hholds.1
  | complete input =>
    obtain ⟨-, -, _, hnext⟩ := hholds
    cases hnext
  | abandon input => exact absurd rfl hholds.2.2.1
  | renew input => exact hholds.elim

theorem sound_deliver (h : c.Sound) (hc : c.deliver = some c') : c'.Sound ∧ c.Keeps c' := by
  unfold deliver at hc
  split at hc
  · rename_i op result hstop
    obtain rfl := Option.some.inj hc
    have hunbegun := h.unbegun hstop
    exact ⟨sound_afterBegin hunbegun, (goesOn_afterBegin hunbegun hstop).keeps⟩
  · rename_i op accepted next hstop
    have hholds := h.at hstop
    have hsettling : next ≠ .begun → ∃ r, c.standing.Settling r ∧
        (next = .timedOut → c.heartbeat = false) := by
      intro hnext
      cases op with
      | begin input => exact absurd hholds.2.2 hnext
      | complete input =>
        obtain ⟨hsettling, -, _, rfl⟩ := hholds
        exact ⟨_, hsettling, nofun⟩
      | abandon input => exact ⟨_, hholds.1, hholds.2.2.2⟩
      | renew input => exact hholds.elim
    cases next with
    | begun => cases hc
    | timedOut =>
      obtain rfl := Option.some.inj hc
      obtain ⟨r, hr, hbeat⟩ := hsettling nofun
      exact ⟨⟨hbeat rfl, Or.inr ⟨r, hr.reservation, hr.once⟩⟩,
        h.keeps rfl (fun _ => rfl) rfl⟩
    | rethrow error =>
      obtain rfl := Option.some.inj hc
      obtain ⟨r, hr, -⟩ := hsettling nofun
      have hmoved : ({ c with refused := c.refused || !accepted } : Request T E).Moved
          ({ c with refused := c.refused || !accepted }.leave error) := moved_leave
      exact ⟨sound_leave ⟨rfl, Or.inr ⟨r, hr.reservation, hr.once⟩⟩,
        h.keeps hmoved.reservation hmoved.entryKey hmoved.asks⟩
    | respond response =>
      obtain rfl := Option.some.inj hc
      obtain ⟨r, hr, -⟩ := hsettling nofun
      exact ⟨⟨rfl, Or.inr ⟨r, hr.reservation, hr.once⟩⟩, h.keeps rfl (fun _ => rfl) rfl⟩
  · cases hc

theorem sound_reject (h : c.Sound) {error : E} (hc : c.reject error = some c') :
    c'.Sound ∧ c.GoesOn c' := by
  unfold reject at hc
  split at hc
  · rename_i op answer next hstop
    obtain rfl := Option.some.inj hc
    refine ⟨sound_leave ?_, moved_leave.goesOn h⟩
    have hholds := h.at hstop
    cases op with
    | begin input =>
      obtain ⟨⟨⟨h₁, h₂, h₃, -, h₅⟩, -⟩, -⟩ := hholds
      exact ⟨rfl, Or.inl ⟨h₁, h₂, h₃, rfl, h₅⟩⟩
    | complete input => exact over_clearHeartbeat hholds.1
    | abandon input => exact over_clearHeartbeat hholds.1
    | renew input => exact hholds.elim
  · cases hc

end Errors

theorem Keeps.of_same (hstop : c'.stop = c.stop) (hreservation : c'.reservation = c.reservation)
    (hkey : c'.entryKey = c.entryKey) : c.Keeps c' := by
  intro r hr
  refine ⟨?_, hkey⟩
  unfold claim at hr ⊢
  rwa [hstop, hreservation] at hr

theorem sound_enter (h : c.Sound) (hc : c.enter = some c') : c'.Sound ∧ c.Keeps c' := by
  unfold enter at hc
  split at hc
  · rename_i r hstop
    split_ifs at hc
    obtain rfl := Option.some.inj hc
    refine ⟨?_, .of_same rfl rfl rfl⟩
    have hclaimed : c.standing.Claimed r := h.at hstop
    unfold Sound
    rw [show ({ c with entered := true } : Request T E).stop = .running r from hstop]
    exact ⟨hclaimed.reservation, hclaimed.settlements, hclaimed.refused⟩
  · cases hc

theorem sound_mark (h : c.Sound) {effect : EffectMark} (hc : c.mark effect = some c') :
    c'.Sound ∧ c.Keeps c' := by
  obtain ⟨scope, hscope, rfl⟩ := Option.map_eq_some_iff.mp hc
  refine ⟨?_, .of_same rfl rfl rfl⟩
  have hbegun : ¬ c.standing.Unbegun := by
    intro hunbegun
    have hnone : c.scope = none := hunbegun.scope
    rw [hnone] at hscope
    cases hscope
  unfold Sound at h ⊢
  simp only
  cases hstop : c.stop with
  | resolving | reading | digesting =>
    rw [hstop] at h
    exact absurd h hbegun
  | calling op answer next =>
    rw [hstop] at h
    cases op with
    | begin input => exact absurd h.1 hbegun
    | complete input => exact ⟨⟨h.1.1, h.1.2⟩, h.2⟩
    | abandon input => exact ⟨⟨h.1.1, h.1.2⟩, h.2⟩
    | renew input => exact h
  | running r =>
    rw [hstop] at h
    exact ⟨h.1, h.2, h.3⟩
  | replaying =>
    rw [hstop] at h
    exact ⟨h.1, h.2, h.3, h.4, h.5⟩
  | capturing r response capture =>
    rw [hstop] at h
    exact ⟨⟨h.1.1, h.1.2, h.1.3⟩, h.2⟩
  | failing error | answered outcome =>
    rw [hstop] at h
    exact h.scoped _

theorem sound_abort (h : c.Sound) :
    ({ c with aborted := true } : Request T E).Sound ∧ c.Keeps { c with aborted := true } :=
  ⟨h, .of_same rfl rfl rfl⟩

/-- A request has been given nothing, was not refused, and waits for no answer. -/
structure New (c : Request T E) : Prop where
  claim : c.claim = none
  refused : c.refused = false
  asks : c.delivering = false

theorem sound_admit [DecidableEq E] (route : Route T E) (prepared : Prepared E) :
    (admitRequest route prepared).Sound ∧ (admitRequest route prepared).New := by
  simp only [admitRequest]
  generalize hc :
    ({ route := route, decoded := prepared.decoded, key := prepared.key.getD [], .. } :
      Request T E) = c
  have hunbegun : c.standing.Unbegun := by
    subst hc
    exact ⟨⟨rfl, rfl, rfl, rfl, rfl⟩, rfl⟩
  have hnew : ∀ {c'}, c.Moved c' → c'.New := by
    intro c' hmoved
    refine ⟨?_, hmoved.refused.trans hunbegun.refused, hmoved.asks⟩
    rw [claim_of_asks hmoved.asks, hmoved.reservation]
    exact hunbegun.reservation
  split
  · exact ⟨sound_fail hunbegun.over, hnew moved_fail⟩
  · split_ifs
    · split
      · subst hc
        exact ⟨hunbegun, rfl, rfl, rfl⟩
      · exact ⟨sound_enterNamespace hunbegun, hnew (moved_enterNamespace hunbegun.reservation)⟩
    · exact ⟨hunbegun.over, hnew moved_reply⟩

end Request

end Nifra.Idempotency
