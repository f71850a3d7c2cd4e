import Nifra.Durable.Saga
import Nifra.Lib.Conditions
import Nifra.Tools.Contract

/-! # The durable effect journal

The calls of the journal on one effect. A call reads the record in one step and moves it in another,
steps of different calls interleave, and a store call may take effect and still report an error.
-/

namespace Nifra.Durable.EffectJournal

open SagaEngine (boundedToken isErrorCode)
open Tools (validCapabilityId)

inductive JournalError
  | rejected (effectId transition : JSString)
  | typeError (message : JSString)
  | rangeError (message : JSString)
  | store
  deriving DecidableEq

def assertThat (condition : Bool) (error : JournalError) : Except JournalError Unit :=
  if condition then .ok () else .error error

def assertToken (value label : JSString) (maxLength : ℕ) : Except JournalError Unit :=
  assertThat (boundedToken value maxLength)
    (.typeError (label ++ js " must be a bounded printable token"))

def assertTimestamp (value : ℕ) (label : JSString) : Except JournalError Unit :=
  assertThat (isSafeInteger value)
    (.rangeError (label ++ js " must be a non-negative safe integer timestamp"))

def now (reading : ℕ) : Except JournalError ℕ := do
  assertTimestamp reading (js "durable effect clock")
  return reading

/-- `[0-9a-f]{64}` -/
def isDigest (digest : JSString) : Bool :=
  digest.length == 64 && digest.all fun c => decide (48 ≤ c ∧ c ≤ 57 ∨ 97 ≤ c ∧ c ≤ 102)

def whenPresent (value : Option JSString) (check : JSString → Except JournalError Unit) :
    Except JournalError Unit :=
  match value with
  | none => .ok ()
  | some value => check value

def current (effectId : JSString) (stored : Option DurableEffectRecord) :
    Except JournalError DurableEffectRecord := do
  let invalid (what : JSString) : JournalError :=
    .typeError (js "durable effect " ++ effectId ++ what)
  let record ← match stored with
    | none => .error (.rejected effectId (js "missing"))
    | some record => .ok record
  assertThat (record.effectId == effectId && validCapabilityId record.capability &&
    isSafeInteger record.version && decide (1 ≤ record.version))
    (invalid (js ": store returned an invalid record"))
  assertTimestamp record.createdAt (js "durable effect createdAt")
  assertTimestamp record.updatedAt (js "durable effect updatedAt")
  assertThat (decide (record.createdAt ≤ record.updatedAt))
    (invalid (js ": updatedAt precedes createdAt"))
  whenPresent record.target fun target =>
    assertToken target (js "stored durable effect target") 128
  whenPresent record.digest fun digest =>
    assertThat (isDigest digest) (invalid (js ": store returned an invalid digest"))
  whenPresent record.tenantId fun tenantId =>
    assertToken tenantId (js "stored durable effect tenantId") 255
  whenPresent record.principalId fun principalId =>
    assertToken principalId (js "stored durable effect principalId") 255
  assertThat (record.tenantId.isNone == record.principalId.isNone)
    (invalid (js ": store returned a partial identity"))
  whenPresent record.errorCode fun errorCode =>
    assertThat (isErrorCode errorCode) (invalid (js ": store returned an invalid error code"))
  return record

structure IntentInput where
  capability : JSString
  target : Option JSString
  digest : Option JSString
  identity : Option (JSString × JSString)

/-- `intent`, up to the record that it creates. -/
def intent (effectId : JSString) (input : IntentInput) (reading : ℕ) :
    Except JournalError DurableEffectRecord := do
  assertToken effectId (js "durable effect id") 64
  assertThat (validCapabilityId input.capability)
    (.typeError (js "durable effect capability is invalid"))
  whenPresent input.target fun target => assertToken target (js "durable effect target") 128
  whenPresent input.digest fun digest =>
    assertThat (isDigest digest) (.typeError (js "durable effect digest is invalid"))
  whenPresent (input.identity.map Prod.fst) fun tenantId =>
    assertToken tenantId (js "durable effect tenantId") 255
  whenPresent (input.identity.map Prod.snd) fun principalId =>
    assertToken principalId (js "durable effect principalId") 255
  let created ← now reading
  return {
    effectId := effectId
    capability := input.capability
    target := input.target
    digest := input.digest
    tenantId := input.identity.map Prod.fst
    principalId := input.identity.map Prod.snd
    state := .admission
    createdAt := created
    updatedAt := created
    version := 1 }

inductive Move
  | executing
  | committed
  | failed (began : Bool) (errorCode : JSString)
  deriving DecidableEq

namespace Move

/-- The state that a call moves the record from, given the one that it reads. -/
def source (move : Move) (read : DurableEffectState) : DurableEffectState :=
  match move with
  | .executing => .admission
  | .committed => .executing
  | .failed _ _ => read

def target : Move → DurableEffectState
  | .executing => .executing
  | .committed => .committed
  | .failed began _ => if began then .unknown else .failed

def errorCode : Move → Option JSString
  | .failed _ errorCode => some errorCode
  | _ => none

def check (effectId : JSString) (move : Move) : Except JournalError Unit := do
  whenPresent move.errorCode fun errorCode =>
    assertThat (isErrorCode errorCode) (.typeError (js "durable effect errorCode is invalid"))
  assertToken effectId (js "durable effect id") 64

end Move

def stateName : DurableEffectState → JSString
  | .admission => js "admission"
  | .executing => js "executing"
  | .committed => js "committed"
  | .failed => js "failed"
  | .unknown => js "unknown"

def rejected (effectId : JSString) (source target : DurableEffectState) : JournalError :=
  .rejected effectId (stateName source ++ js "->" ++ stateName target)

def Move.input (effectId : JSString) (move : Move) (stored : Option DurableEffectRecord)
    (reading : ℕ) : Except JournalError DurableEffectTransitionInput := do
  let record ← current effectId stored
  let source := move.source record.state
  let updatedAt ← now reading
  let input : DurableEffectTransitionInput := {
    effectId := effectId
    version := record.version
    fromState := source
    toState := move.target
    updatedAt := updatedAt
    errorCode := move.errorCode }
  match transitionEffect (some record) input with
  | none => .error (rejected effectId source move.target)
  | some _ => .ok input

inductive Flight
  | create (record : DurableEffectRecord)
  | get (move : Move)
  | transition (move : Move) (input : DurableEffectTransitionInput)

/-- A call of the journal: the store call it waits for, and how it ended for its caller. -/
structure Thread where
  flight : Option Flight
  answer : Option (Except JournalError Unit)

structure State where
  stored : Option DurableEffectRecord
  threads : List Thread

inductive Event
  | intent (input : IntentInput) (reading : ℕ)
  | call (move : Move)
  | perform (i : ℕ) (reading : ℕ) (lost : Bool)
  | fail (i : ℕ)

def Thread.settle (thread : Thread) (lost : Bool) (answer : Except JournalError Unit) : Thread :=
  ⟨none, thread.answer.or (some (if lost then .error .store else answer))⟩

def perform (effectId : JSString) (stored : Option DurableEffectRecord) (thread : Thread)
    (reading : ℕ) (lost : Bool) : Option DurableEffectRecord × Thread :=
  match thread.flight with
  | none => (stored, thread)
  | some (.create record) =>
    match stored with
    | none => (some record, thread.settle lost (.ok ()))
    | some _ => (stored, thread.settle lost (.error (.rejected effectId (js "create"))))
  | some (.get move) =>
    if thread.answer.isSome || lost then (stored, thread.settle true (.ok ()))
    else
      match move.input effectId stored reading with
      | .error error => (stored, thread.settle false (.error error))
      | .ok input => (stored, ⟨some (.transition move input), none⟩)
  | some (.transition _ input) =>
    match transitionEffect stored input with
    | none => (stored, thread.settle lost
        (.error (rejected effectId input.fromState input.toState)))
    | some next => (some next, thread.settle lost (.ok ()))

def step (effectId : JSString) (s : State) : Event → State
  | .intent input reading =>
    let thread : Thread := match intent effectId input reading with
      | .error error => ⟨none, some (.error error)⟩
      | .ok record => ⟨some (.create record), none⟩
    { s with threads := s.threads ++ [thread] }
  | .call move =>
    let thread : Thread := match move.check effectId with
      | .error error => ⟨none, some (.error error)⟩
      | .ok () => ⟨some (.get move), none⟩
    { s with threads := s.threads ++ [thread] }
  | .perform i reading lost =>
    match s.threads[i]? with
    | none => s
    | some thread =>
      let (stored, thread) := perform effectId s.stored thread reading lost
      ⟨stored, s.threads.set i thread⟩
  | .fail i =>
    match s.threads[i]? with
    | none => s
    | some thread =>
      { s with
        threads := s.threads.set i
          { thread with answer := thread.answer.or (some (.error .store)) } }

def after (effectId : JSString) (events : List Event) : State :=
  events.foldl (step effectId) ⟨none, []⟩

/-! ## The states of a journalled effect

The record of an effect moves as the journal means it to exactly as long as no write of `failed` is
accepted in a state that does not fit what the caller says of the effect.
-/

/-- The moves of a record, from none to its admission, to `executing`, and to one of its ends. -/
inductive Allowed : Option DurableEffectState → Option DurableEffectState → Prop
  | same (state : Option DurableEffectState) : Allowed state state
  | create : Allowed none (some .admission)
  | execute : Allowed (some .admission) (some .executing)
  | commit : Allowed (some .executing) (some .committed)
  | fail : Allowed (some .admission) (some .failed)
  | lose : Allowed (some .executing) (some .unknown)

def State.recorded (s : State) : Option DurableEffectState := s.stored.map (·.state)

/-- The store call of a thread is a write of this call that the store accepts. -/
def Accepted (stored : Option DurableEffectRecord) (thread : Thread) (move : Move)
    (record next : DurableEffectRecord) : Prop :=
  ∃ input, thread.flight = some (.transition move input) ∧ stored = some record ∧
    transitionEffect (some record) input = some next

/-- The states of an effect that began, and of one that did not, for `failed`. -/
def Agrees (began : Bool) (state : DurableEffectState) : Prop :=
  if began then state = .executing ∨ state = .unknown else state = .admission ∨ state = .failed

/-- A write of `failed` that the store accepts finds an effect that began `executing` or `unknown`,
and one that did not in `admission` or `failed`. -/
def Fits (s : State) : Event → Prop
  | .perform i _ _ => ∀ thread began errorCode record next, s.threads[i]? = some thread →
      Accepted s.stored thread (.failed began errorCode) record next →
        Agrees began record.state
  | _ => True

variable {effectId : JSString} {s : State} {events : List Event}

/-- A write goes from the source of its call, unless that is whatever was read, to its target; a
creation is an admission. -/
def Thread.Aimed (thread : Thread) : Prop :=
  (∀ record, thread.flight = some (.create record) → record.state = .admission) ∧
    ∀ move input, thread.flight = some (.transition move input) →
      input.fromState = move.source input.fromState ∧ input.toState = move.target

def State.Aimed (s : State) : Prop := ∀ thread ∈ s.threads, thread.Aimed

theorem intent_state {input : IntentInput} {reading : ℕ} {record : DurableEffectRecord}
    (h : intent effectId input reading = .ok record) : record.state = .admission := by
  simp only [intent, except_bind_eq_ok_iff] at h
  obtain ⟨-, -, -, -, -, -, -, -, -, -, -, -, at', -, hrecord⟩ := h
  rw [← Except.ok.inj hrecord]

theorem input_aimed {move : Move} {stored : Option DurableEffectRecord} {reading : ℕ}
    {input : DurableEffectTransitionInput} (h : move.input effectId stored reading = .ok input) :
    input.fromState = move.source input.fromState ∧ input.toState = move.target := by
  simp only [Move.input, except_bind_eq_ok_iff] at h
  obtain ⟨record, -, updatedAt, -, h⟩ := h
  split at h
  · cases h
  · rw [← Except.ok.inj h]
    cases move with
    | executing => exact ⟨rfl, rfl⟩
    | committed => exact ⟨rfl, rfl⟩
    | failed began errorCode => exact ⟨rfl, rfl⟩

theorem Thread.Aimed.of_flight_eq {thread thread' : Thread} (h : thread.Aimed)
    (heq : thread'.flight = thread.flight) : thread'.Aimed := by
  rw [Thread.Aimed, heq]
  exact h

theorem Thread.Aimed.of_none {thread : Thread} (h : thread.flight = none) : thread.Aimed := by
  constructor
  · intro record hflight
    rw [h] at hflight
    cases hflight
  · intro move input hflight
    rw [h] at hflight
    cases hflight

theorem aimed_perform {thread : Thread} (h : thread.Aimed) (stored : Option DurableEffectRecord)
    (reading : ℕ) (lost : Bool) : (perform effectId stored thread reading lost).2.Aimed := by
  unfold perform
  split
  · exact h
  · split
    · exact .of_none rfl
    · exact .of_none rfl
  · next move _ =>
    split_ifs
    · exact .of_none rfl
    · split
      · exact .of_none rfl
      · next input hinput =>
        constructor
        · rintro record ⟨⟩
        · rintro _ _ ⟨⟩
          exact input_aimed hinput
  · split
    · exact .of_none rfl
    · exact .of_none rfl

theorem State.Aimed.append {thread : Thread} (h : s.Aimed) (hthread : thread.Aimed) :
    State.Aimed { s with threads := s.threads ++ [thread] } := by
  intro other hother
  rcases List.mem_append.mp hother with hother | hother
  · exact h other hother
  · rw [List.mem_singleton.mp hother]
    exact hthread

theorem State.Aimed.set {stored : Option DurableEffectRecord} {thread : Thread} (h : s.Aimed)
    (i : ℕ) (hthread : thread.Aimed) : State.Aimed ⟨stored, s.threads.set i thread⟩ := by
  intro other hother
  rcases List.mem_or_eq_of_mem_set hother with hother | rfl
  · exact h other hother
  · exact hthread

theorem aimed_step (h : s.Aimed) (event : Event) : (step effectId s event).Aimed := by
  cases event with
  | intent input reading =>
    apply h.append
    split
    · exact .of_none rfl
    · next record hrecord =>
      constructor
      · rintro _ ⟨⟩
        exact intent_state hrecord
      · rintro _ _ ⟨⟩
  | call move =>
    apply h.append
    split
    · exact .of_none rfl
    · constructor
      · rintro _ ⟨⟩
      · rintro _ _ ⟨⟩
  | perform i reading lost =>
    rw [step]
    split
    · exact h
    · next thread hthread =>
      exact h.set i (aimed_perform (h thread (List.mem_of_getElem? hthread)) _ _ _)
  | fail i =>
    rw [step]
    split
    · exact h
    · next thread hthread =>
      exact h.set i ((h thread (List.mem_of_getElem? hthread)).of_flight_eq rfl)

theorem after_append (events : List Event) (event : Event) :
    after effectId (events ++ [event]) = step effectId (after effectId events) event := by
  rw [after, List.foldl_append]
  rfl

theorem aimed_after (events : List Event) : (after effectId events).Aimed := by
  induction events using List.reverseRecOn with
  | nil => rintro thread ⟨⟩
  | append_singleton events event ih =>
    rw [after_append]
    exact aimed_step ih event

theorem perform_cases (effectId : JSString) (stored : Option DurableEffectRecord)
    (thread : Thread) (reading : ℕ) (lost : Bool) :
    ((∀ move record next, ¬ Accepted stored thread move record next) ∧
      ((perform effectId stored thread reading lost).1 = stored ∨
        ∃ record, thread.flight = some (.create record) ∧ stored = none ∧
          (perform effectId stored thread reading lost).1 = some record)) ∨
      ∃ move record next, Accepted stored thread move record next ∧
        (perform effectId stored thread reading lost).1 = some next := by
  unfold perform
  split
  · next hflight =>
    left
    constructor
    · rintro _ _ _ ⟨input, hinput, -⟩
      rw [hflight] at hinput
      cases hinput
    · exact Or.inl rfl
  · next record hflight =>
    left
    constructor
    · rintro _ _ _ ⟨input, hinput, -⟩
      rw [hflight] at hinput
      cases hinput
    · split
      · exact Or.inr ⟨record, hflight, rfl, rfl⟩
      · exact Or.inl rfl
  · next hflight =>
    left
    constructor
    · rintro _ _ _ ⟨input, hinput, -⟩
      rw [hflight] at hinput
      cases hinput
    · left
      split_ifs
      · rfl
      · split
        · rfl
        · rfl
  · next move input hflight =>
    split
    · next hnone =>
      left
      constructor
      · rintro _ record next ⟨input', hinput, rfl, hnext⟩
        rw [hflight] at hinput
        cases hinput
        rw [hnone] at hnext
        cases hnext
      · exact Or.inl rfl
    · next next hnext =>
      obtain ⟨record, rfl, -⟩ := transitionEffect_eq_some hnext
      exact Or.inr ⟨move, record, next, ⟨input, hflight, rfl, hnext⟩, rfl⟩

theorem allowed_target_iff {move : Move} {state : DurableEffectState}
    (hsource : state = move.source state) :
    Allowed (some state) (some move.target) ↔
      ∀ began errorCode, move = .failed began errorCode → Agrees began state := by
  cases move with
  | executing =>
    rw [hsource]
    constructor
    · rintro - _ _ ⟨⟩
    · rintro -
      exact .execute
  | committed =>
    rw [hsource]
    constructor
    · rintro - _ _ ⟨⟩
    · rintro -
      exact .commit
  | failed began errorCode =>
    constructor
    · rintro h _ _ ⟨⟩
      cases began with
      | true =>
        cases h with
        | same => exact Or.inr rfl
        | lose => exact Or.inl rfl
      | false =>
        cases h with
        | same => exact Or.inr rfl
        | fail => exact Or.inl rfl
    · intro h
      have hfits := h began errorCode rfl
      cases began with
      | true =>
        rcases hfits with rfl | rfl
        · exact .lose
        · exact .same _
      | false =>
        rcases hfits with rfl | rfl
        · exact .fail
        · exact .same _

theorem fits_perform_iff {i reading : ℕ} {lost : Bool} {thread : Thread}
    (hthread : s.threads[i]? = some thread) : Fits s (.perform i reading lost) ↔
      ∀ began errorCode record next,
        Accepted s.stored thread (.failed began errorCode) record next →
          Agrees began record.state := by
  constructor
  · intro h began errorCode record next
    exact h thread began errorCode record next hthread
  · intro h thread' began errorCode record next hthread'
    rw [hthread] at hthread'
    cases hthread'
    exact h began errorCode record next

theorem allowed_step_iff (haimed : s.Aimed) (event : Event) :
    Allowed s.recorded (step effectId s event).recorded ↔ Fits s event := by
  cases event with
  | intent input reading => exact iff_of_true (.same _) trivial
  | call move => exact iff_of_true (.same _) trivial
  | fail i =>
    rw [step]
    split
    · exact iff_of_true (.same _) trivial
    · exact iff_of_true (.same _) trivial
  | perform i reading lost =>
    rw [step]
    split
    · next hthread =>
      apply iff_of_true (.same _)
      intro thread _ _ _ _ hthread'
      rw [hthread] at hthread'
      cases hthread'
    · next thread hthread =>
      have haimedThread := haimed thread (List.mem_of_getElem? hthread)
      rw [fits_perform_iff hthread, State.recorded]
      change Allowed _ ((perform effectId s.stored thread reading lost).1.map (·.state)) ↔ _
      rcases perform_cases effectId s.stored thread reading lost with
        ⟨hrefused, hrecord⟩ | ⟨move, record, next, haccepted, hnext⟩
      · apply iff_of_true
        · rcases hrecord with hsame | ⟨record, hflight, hnone, hcreated⟩
          · rw [hsame]
            exact .same _
          · rw [hcreated, hnone, Option.map_some,
              haimedThread.1 record hflight]
            exact .create
        · intro began errorCode record next haccepted
          exact absurd haccepted (hrefused _ _ _)
      · rw [hnext]
        obtain ⟨input, hflight, hstored, htransition⟩ := haccepted
        obtain ⟨_, ⟨⟩, -, hsource, -, htarget⟩ := transitionEffect_eq_some htransition
        obtain ⟨haimedSource, haimedTarget⟩ := haimedThread.2 move input hflight
        rw [hstored, Option.map_some, Option.map_some, htarget, haimedTarget,
          allowed_target_iff (hsource ▸ haimedSource)]
        constructor
        · rintro h began errorCode record' next' ⟨input', hflight', hstored', -⟩
          rw [hflight] at hflight'
          cases hflight'
          cases hstored'
          exact h began errorCode rfl
        · rintro h began errorCode rfl
          exact h began errorCode record next ⟨input, hflight, rfl, htransition⟩

def recordedAfter (effectId : JSString) (events : List Event) : Option DurableEffectState :=
  (after effectId events).recorded

structure JournalLaw (effectId : JSString) (events : List Event) : Prop where
  moves : ∀ made event, made ++ [event] <+: events →
    Allowed (recordedAfter effectId made) (recordedAfter effectId (made ++ [event]))
  final : ∀ made later, made ++ later <+: events →
    recordedAfter effectId made = some .committed ∨ recordedAfter effectId made = some .failed →
      recordedAfter effectId (made ++ later) = recordedAfter effectId made
  began : ∀ made, made <+: events → recordedAfter effectId made = some .unknown →
    ∃ earlier, earlier <+: made ∧ recordedAfter effectId earlier = some .executing

theorem Allowed.eq_of_end {state : DurableEffectState} {next : Option DurableEffectState}
    (h : Allowed (some state) next) (hend : state = .committed ∨ state = .failed) :
    next = some state := by
  rcases hend with rfl | rfl
  · cases h
    rfl
  · cases h
    rfl

theorem JournalLaw.of_moves
    (h : ∀ made event, made ++ [event] <+: events →
      Allowed (recordedAfter effectId made) (recordedAfter effectId (made ++ [event]))) :
    JournalLaw effectId events := by
  constructor
  · exact h
  · intro made later
    induction later using List.reverseRecOn with
    | nil =>
      rintro - -
      rw [List.append_nil]
    | append_singleton later event ih =>
      intro hprefix hend
      rw [← List.append_assoc] at hprefix ⊢
      have hsame := ih ((List.prefix_append _ _).trans hprefix) hend
      have hmove := h _ _ hprefix
      rw [hsame] at hmove
      rcases hend with hend | hend
      · rw [hend] at hmove ⊢
        exact hmove.eq_of_end (Or.inl rfl)
      · rw [hend] at hmove ⊢
        exact hmove.eq_of_end (Or.inr rfl)
  · intro made
    induction made using List.reverseRecOn with
    | nil => rintro - ⟨⟩
    | append_singleton made event ih =>
      intro hprefix hunknown
      have hmade : made <+: made ++ [event] := List.prefix_append _ _
      have hmove := h made event hprefix
      rw [hunknown] at hmove
      generalize hbefore : recordedAfter effectId made = before at hmove
      cases hmove with
      | same =>
        obtain ⟨earlier, hearlier, hexecuting⟩ := ih (hmade.trans hprefix) hbefore
        exact ⟨earlier, hearlier.trans hmade, hexecuting⟩
      | lose => exact ⟨made, hmade, hbefore⟩

/-- The record of an effect keeps its laws throughout a run exactly when every write of `failed`
that is accepted in it fits the state of the record. -/
theorem journalLaw_iff_fits (effectId : JSString) (events : List Event) :
    JournalLaw effectId events ↔
      ∀ made event, made ++ [event] <+: events → Fits (after effectId made) event := by
  have hstep (made : List Event) (event : Event) :
      Allowed (recordedAfter effectId made) (recordedAfter effectId (made ++ [event])) ↔
        Fits (after effectId made) event := by
    rw [recordedAfter, recordedAfter, after_append]
    exact allowed_step_iff (aimed_after made) event
  constructor
  · intro h made event hprefix
    exact (hstep made event).mp (h.moves made event hprefix)
  · intro h
    apply JournalLaw.of_moves
    intro made event hprefix
    exact (hstep made event).mpr (h made event hprefix)

def lostCommit : List Event :=
  [.intent ⟨js "db.write", none, none, none⟩ 1, .perform 0 1 false,
    .call .executing, .perform 1 2 false, .perform 1 2 false,
    .call .committed, .perform 2 3 false, .perform 2 3 true]

/-- A commit whose answer is lost is made unknown by the call of `failed` that follows. -/
theorem journalLaw_lostCommit :
    ¬ JournalLaw (js "effect") (lostCommit ++
      [.call (.failed true (js "execution_failed")), .perform 3 4 false, .perform 3 4 false]) := by
  intro h
  have hcommitted : recordedAfter (js "effect") lostCommit = some .committed := by decide
  have hsame := h.final lostCommit _ (List.prefix_refl _) (Or.inl hcommitted)
  rw [hcommitted] at hsame
  exact absurd hsame (by decide)

end Nifra.Durable.EffectJournal
