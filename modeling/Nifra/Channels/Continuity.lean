import Mathlib.Data.Nat.Digits.Defs
import Mathlib.Logic.Function.Basic
import Nifra.Lib.Runs
import Nifra.Text.JSString

/-! # The channel hub in memory

A channel numbers its events. A subscription queues what its `next` calls have not taken, keeps the
calls that wait for an event, and resumes after the event that a token names. What a channel has
published, the results of the calls and the cursor that a subscription starts after are kept beside
the state of the source.
-/

namespace Nifra.Channels

variable {Message : Type*}

structure ChannelEvent (Message : Type*) where
  sequence : ℕ
  resumeToken : JSString
  data : Message
  deriving DecidableEq

inductive ChannelCloseReason
  | closed
  | backpressure
  | aborted
  deriving DecidableEq

inductive OptionNumber
  | int (n : ℤ)
  | other

/-- A natural number at least `least` that is a safe integer. -/
def OptionNumber.safeFrom (least : ℕ) : OptionNumber → Option ℕ
  | int n => if (least : ℤ) ≤ n ∧ isSafeInteger n.toNat then some n.toNat else none
  | other => none

structure ChannelSubscribeOptions where
  maxQueue : Option OptionNumber
  resumeFrom : Option JSString
  signal : Option ℕ

inductive ChannelError
  | rangeError (message : String)
  | resumeUnavailable (channel resumeToken : JSString)
  deriving DecidableEq

/-- `waiters` are numbers of calls of `next`; `calls` holds what each call came to, an event or the
end; `members` is the set that `remove` deletes it from. -/
structure MemorySubscription (Message : Type*) where
  channel : JSString
  maxQueue : ℕ
  members : ℕ
  queue : List (ChannelEvent Message)
  waiters : List ℕ
  isClosed : Bool
  reason : Option ChannelCloseReason
  lastToken : Option JSString
  abortSignal : Option ℕ
  calls : List (Option (Option (ChannelEvent Message)))
  since : ℕ

namespace MemorySubscription

def create (channel : JSString) (queue members since : ℕ) (replay : List (ChannelEvent Message))
    (signal : Option ℕ) : MemorySubscription Message where
  channel := channel
  maxQueue := queue
  members := members
  queue := replay
  waiters := []
  isClosed := false
  reason := none
  lastToken := none
  abortSignal := signal
  calls := []
  since := since

variable (sub : MemorySubscription Message)

/-- `close`, less `remove`. -/
def close (reason : ChannelCloseReason) : MemorySubscription Message :=
  if sub.isClosed then sub
  else { sub with
    isClosed := true
    reason := some reason
    queue := []
    abortSignal := none
    waiters := []
    calls := NextCalls.finish sub.calls sub.waiters }

def push (event : ChannelEvent Message) : MemorySubscription Message :=
  if sub.isClosed then sub
  else match sub.waiters with
    | call :: waiters => { sub with
        waiters := waiters
        lastToken := some event.resumeToken
        calls := sub.calls.set call (some (some event)) }
    | [] =>
      if sub.queue.length ≥ sub.maxQueue then sub.close .backpressure
      else { sub with queue := sub.queue ++ [event] }

def next : MemorySubscription Message :=
  match sub.queue with
  | event :: queue => { sub with
      queue := queue
      lastToken := some event.resumeToken
      calls := sub.calls ++ [some (some event)] }
  | [] =>
    if sub.isClosed then { sub with calls := sub.calls ++ [some none] }
    else { sub with
      waiters := sub.waiters ++ [sub.calls.length]
      calls := sub.calls ++ [none] }

end MemorySubscription

def digit36 (d : ℕ) : ℕ := if d < 10 then 48 + d else 87 + d

/-- `toString(36)` -/
def radix36 (n : ℕ) : JSString :=
  if n = 0 then [48] else (Nat.digits 36 n).reverse.map digit36

def tokenFor (channel : JSString) (sequence : ℕ) : JSString := channel ++ 58 :: radix36 sequence

def value36 (c : ℕ) : Option ℕ :=
  if 48 ≤ c ∧ c ≤ 57 then some (c - 48)
  else if 97 ≤ c ∧ c ≤ 122 then some (c - 87)
  else none

def sequenceOf (channel token : JSString) : Option ℕ :=
  if (channel ++ [58]) <+: token then
    let digits := token.drop (channel.length + 1)
    if digits = [] then none
    else match digits.mapM value36 with
      | none => none
      | some values =>
        let sequence := Nat.ofDigits 36 values.reverse
        if isSafeInteger sequence ∧ 0 < sequence then some sequence else none
  else none

/-- The sets that `subscribers` maps to are numbered. `published` is everything a channel has
published. -/
structure MemoryHub (Message : Type*) where
  maxQueue : ℕ
  historySize : ℕ
  subscribers : JSString → Option ℕ
  sequences : JSString → ℕ
  history : JSString → List (ChannelEvent Message)
  sets : List (List ℕ)
  subscriptions : List (MemorySubscription Message)
  aborted : List ℕ
  published : JSString → List (ChannelEvent Message)

def memoryChannelHub (maxQueue historySize : Option OptionNumber) :
    Except ChannelError (MemoryHub Message) :=
  match (maxQueue.getD (.int 64)).safeFrom 1 with
  | none => .error (.rangeError "channel: maxQueue must be a positive safe integer")
  | some maxQueue =>
    match (historySize.getD (.int maxQueue)).safeFrom 0 with
    | none => .error (.rangeError "channel: historySize must be a non-negative safe integer")
    | some historySize => .ok {
        maxQueue := maxQueue
        historySize := historySize
        subscribers := fun _ => none
        sequences := fun _ => 0
        history := fun _ => []
        sets := []
        subscriptions := []
        aborted := []
        published := fun _ => [] }

namespace MemoryHub
variable (hub : MemoryHub Message)

/-- `remove`, of a subscription that closes. -/
def remove (k : ℕ) (sub : MemorySubscription Message) : MemoryHub Message :=
  let set := (hub.sets.getD sub.members []).erase k
  { hub with
    sets := hub.sets.set sub.members set
    subscribers :=
      if set = [] then Function.update hub.subscribers sub.channel none else hub.subscribers }

def update (k : ℕ) (f : MemorySubscription Message → MemorySubscription Message) :
    MemoryHub Message :=
  match hub.subscriptions[k]? with
  | none => hub
  | some sub =>
    let changed := { hub with subscriptions := hub.subscriptions.set k (f sub) }
    if sub.isClosed = false ∧ (f sub).isClosed then changed.remove k sub else changed

def updateAll (ks : List ℕ) (f : MemorySubscription Message → MemorySubscription Message) :
    MemoryHub Message :=
  ks.foldl (fun hub k => hub.update k f) hub

def replayAfter (channel token : JSString) : Option (ℕ × List (ChannelEvent Message)) :=
  match sequenceOf channel token with
  | none => none
  | some requested =>
    let history := hub.history channel
    let current := hub.sequences channel
    if requested ≤ current ∧
        (requested = current ∨ history.any fun event => event.sequence = requested) then
      let replay := history.filter fun event => event.sequence > requested
      if (history.head?.any fun event => requested < event.sequence) ∧ replay.length = 0 then none
      else some (requested, replay)
    else none

def enter (channel : JSString) : MemoryHub Message × ℕ :=
  match hub.subscribers channel with
  | some members => (hub, members)
  | none =>
    ({ hub with
        sets := hub.sets ++ [[]]
        subscribers := Function.update hub.subscribers channel (some hub.sets.length) },
      hub.sets.length)

def add (sub : MemorySubscription Message) : MemoryHub Message := { hub with
  subscriptions := hub.subscriptions ++ [sub]
  sets := hub.sets.set sub.members (hub.sets.getD sub.members [] ++ [hub.subscriptions.length]) }

/-- A subscription after the event with the number `since`, with what it missed in its queue. -/
def attach (channel : JSString) (queue since : ℕ) (replay : List (ChannelEvent Message))
    (signal : Option ℕ) : MemoryHub Message :=
  let (entered, members) := hub.enter channel
  let added := entered.add (.create channel queue members since replay signal)
  if signal.any fun signal => signal ∈ hub.aborted then
    added.update hub.subscriptions.length fun sub => sub.close .aborted
  else added

def subscribe (channel : JSString) (options : ChannelSubscribeOptions) :
    Except ChannelError (MemoryHub Message) :=
  match (options.maxQueue.getD (.int hub.maxQueue)).safeFrom 1 with
  | none => .error (.rangeError "channel: maxQueue must be a positive safe integer")
  | some queue =>
    match options.resumeFrom with
    | none => .ok (hub.attach channel queue (hub.sequences channel) [] options.signal)
    | some token =>
      match hub.replayAfter channel token with
      | none => .error (.resumeUnavailable channel token)
      | some (requested, replay) =>
        if replay.length > queue then .error (.resumeUnavailable channel token)
        else .ok (hub.attach channel queue requested replay options.signal)

/-- An event is the next one of its channel, and history keeps the last ones. -/
def record (channel : JSString) (event : ChannelEvent Message) : MemoryHub Message :=
  let history := hub.history channel ++ [event]
  { hub with
    sequences := Function.update hub.sequences channel event.sequence
    history :=
      if hub.historySize > 0 then
        Function.update hub.history channel
          (if history.length > hub.historySize then history.tail else history)
      else hub.history
    published := Function.update hub.published channel (hub.published channel ++ [event]) }

def membersOf (channel : JSString) : List ℕ :=
  match hub.subscribers channel with
  | none => []
  | some members => hub.sets.getD members []

def publish (channel : JSString) (data : Message) : Except ChannelError (MemoryHub Message) :=
  let previous := hub.sequences channel
  if previous = 2 ^ 53 - 1 then .error (.rangeError "channel: sequence space exhausted")
  else
    let event := ⟨previous + 1, tokenFor channel (previous + 1), data⟩
    .ok ((hub.record channel event).updateAll (hub.membersOf channel) fun sub => sub.push event)

def abort (signal : ℕ) : MemoryHub Message :=
  let listening := (List.range hub.subscriptions.length).filter fun k =>
    hub.subscriptions[k]?.any fun sub => sub.abortSignal = some signal
  { hub with aborted := signal :: hub.aborted }.updateAll listening fun sub => sub.close .aborted

end MemoryHub

/-- `close` and `return` both close; `return` also answers that the end is reached. -/
inductive Action (Message : Type*)
  | subscribe (channel : JSString) (options : ChannelSubscribeOptions)
  | publish (channel : JSString) (data : Message)
  | next (k : ℕ)
  | close (k : ℕ)
  | abort (signal : ℕ)

namespace MemoryHub
variable (hub : MemoryHub Message)

def step : Action Message → MemoryHub Message
  | .subscribe channel options => (hub.subscribe channel options).toOption.getD hub
  | .publish channel data => (hub.publish channel data).toOption.getD hub
  | .next k => hub.update k MemorySubscription.next
  | .close k => hub.update k fun sub => sub.close .closed
  | .abort signal => hub.abort signal

def run (actions : List (Action Message)) : MemoryHub Message := actions.foldl step hub

end MemoryHub

/-! ## What one subscription delivers

The results of the calls of a subscription are its events in order, then calls that wait or that
have been told the end. While it is open, what it has delivered and what it has queued are together
all that its channel has published since its cursor.
-/

open NextCalls

variable {Message : Type*} {channel : JSString} {event : ChannelEvent Message}
  {published : List (ChannelEvent Message)} {sub : MemorySubscription Message} {n : ℕ}

def Numbered (channel : JSString) (published : List (ChannelEvent Message)) : Prop :=
  ∀ i event, published[i]? = some event →
    event.sequence = i + 1 ∧ event.resumeToken = tokenFor channel (i + 1)

theorem Numbered.snoc (h : Numbered channel published) (data : Message) :
    Numbered channel (published ++
      [⟨published.length + 1, tokenFor channel (published.length + 1), data⟩]) := by
  intro i event hevent
  rw [List.getElem?_append] at hevent
  split at hevent
  · exact h i event hevent
  · next hi =>
    rw [List.getElem?_singleton] at hevent
    split at hevent
    · obtain rfl := Option.some.inj hevent
      obtain rfl : i = published.length := by omega
      exact ⟨rfl, rfl⟩
    · cases hevent

namespace MemorySubscription

/-- A subscription that has delivered these events, and no event to `n` more calls. -/
structure Delivers (sub : MemorySubscription Message) (published : List (ChannelEvent Message))
    (delivered : List (ChannelEvent Message)) (n : ℕ) : Prop where
  calls : sub.calls = results delivered n sub.isClosed
  waiters : sub.waiters = if sub.isClosed then [] else List.range' delivered.length n
  waiting : sub.waiters ≠ [] → sub.queue = []
  emptied : sub.isClosed → sub.queue = []
  front : delivered <+: published.drop sub.since
  whole : sub.isClosed = false → delivered ++ sub.queue = published.drop sub.since
  since : sub.since ≤ published.length
  token : sub.lastToken = delivered.getLast?.map ChannelEvent.resumeToken
  reason : sub.isClosed = sub.reason.isSome

def Sound (sub : MemorySubscription Message) (published : List (ChannelEvent Message)) : Prop :=
  ∃ delivered n, sub.Delivers published delivered n

theorem isClosed_close (sub : MemorySubscription Message) (reason : ChannelCloseReason) :
    (sub.close reason).isClosed := by
  unfold MemorySubscription.close
  split
  · assumption
  · rfl

theorem Sound.close (h : sub.Sound published) (reason : ChannelCloseReason) :
    (sub.close reason).Sound published := by
  unfold MemorySubscription.close
  split
  · exact h
  · next hopen =>
    rw [Bool.not_eq_true] at hopen
    obtain ⟨delivered, n, h⟩ := h
    have hcalls := h.calls
    have hwaiters := h.waiters
    rw [hopen] at hcalls hwaiters
    rw [if_neg Bool.false_ne_true] at hwaiters
    exact ⟨delivered, n, {
      calls := by
        dsimp only
        rw [hwaiters, hcalls]
        exact finish_results delivered n
      waiters := rfl
      waiting := fun _ => rfl
      emptied := fun _ => rfl
      front := h.front
      whole := nofun
      since := h.since
      token := h.token
      reason := rfl }⟩

theorem Sound.closed_append (h : sub.Sound published) (hclosed : sub.isClosed)
    (more : List (ChannelEvent Message)) : sub.Sound (published ++ more) := by
  obtain ⟨delivered, n, h⟩ := h
  refine ⟨delivered, n, { h with front := ?_, whole := ?_, since := ?_ }⟩
  · rw [List.drop_append_of_le_length h.since]
    exact h.front.trans (List.prefix_append _ _)
  · intro hopen
    rw [hclosed] at hopen
    cases hopen
  · rw [List.length_append]
    exact Nat.le_add_right_of_le h.since

theorem Sound.push (h : sub.Sound published) (event : ChannelEvent Message) :
    (sub.push event).Sound (published ++ [event]) := by
  unfold MemorySubscription.push
  split
  · next hclosed => exact h.closed_append hclosed [event]
  · next hopen =>
    split
    · next call waiters heq =>
      -- the first call that waits gets the event
      rw [Bool.not_eq_true] at hopen
      obtain ⟨delivered, n, h⟩ := h
      have hqueue := h.waiting (by rw [heq]; exact List.cons_ne_nil _ _)
      have hcalls := h.calls
      have hwaiters := h.waiters
      rw [hopen] at hcalls hwaiters
      rw [if_neg Bool.false_ne_true, heq] at hwaiters
      obtain ⟨m, rfl⟩ : ∃ m, n = m + 1 := by
        cases n with
        | zero => cases hwaiters
        | succ m => exact ⟨m, rfl⟩
      obtain ⟨rfl, rfl⟩ := List.cons.inj hwaiters
      have hdrop : (published ++ [event]).drop sub.since = delivered ++ [event] := by
        rw [List.drop_append_of_le_length h.since, ← h.whole hopen, hqueue, List.append_nil]
      exact ⟨delivered ++ [event], m, {
        calls := by
          dsimp only
          rw [hcalls, hopen, set_results]
        waiters := by
          dsimp only
          rw [hopen, if_neg Bool.false_ne_true, List.length_append, List.length_singleton]
        waiting := fun _ => hqueue
        emptied := fun _ => hqueue
        front := by simp only [hdrop, List.prefix_rfl]
        whole := fun _ => by simp only [hdrop, hqueue, List.append_nil]
        since := by
          rw [List.length_append]
          exact Nat.le_add_right_of_le h.since
        token := by rw [List.getLast?_concat, Option.map_some]
        reason := h.reason }⟩
    · next heq =>
      split
      · exact (h.close .backpressure).closed_append (isClosed_close sub .backpressure) [event]
      · rw [Bool.not_eq_true] at hopen
        obtain ⟨delivered, n, h⟩ := h
        have hdrop : (published ++ [event]).drop sub.since =
            delivered ++ (sub.queue ++ [event]) := by
          rw [List.drop_append_of_le_length h.since, ← h.whole hopen, List.append_assoc]
        exact ⟨delivered, n, {
          calls := h.calls
          waiters := h.waiters
          waiting := fun hne => absurd heq hne
          emptied := fun hclosed => by
            rw [hopen] at hclosed
            cases hclosed
          front := by
            rw [hdrop]
            exact List.prefix_append _ _
          whole := fun _ => hdrop.symm
          since := by
            rw [List.length_append]
            exact Nat.le_add_right_of_le h.since
          token := h.token
          reason := h.reason }⟩

theorem Sound.next (h : sub.Sound published) : sub.next.Sound published := by
  obtain ⟨delivered, n, h⟩ := h
  have hcalls := h.calls
  have hwaiters := h.waiters
  unfold MemorySubscription.next
  split
  · next event queue heq =>
    have hopen : sub.isClosed = false := by
      by_contra hclosed
      rw [h.emptied (by simpa using hclosed)] at heq
      cases heq
    have hnone : sub.waiters = [] := by
      by_contra hne
      rw [h.waiting hne] at heq
      cases heq
    rw [hopen] at hcalls hwaiters
    rw [if_neg Bool.false_ne_true, hnone] at hwaiters
    obtain rfl : n = 0 := by
      cases n with
      | zero => rfl
      | succ n => cases hwaiters
    have hwhole := h.whole hopen
    rw [heq] at hwhole
    exact ⟨delivered ++ [event], 0, {
      calls := by
        dsimp only
        rw [hcalls, hopen]
        exact results_append_item delivered false event
      waiters := by
        dsimp only
        rw [hopen, hnone]
        rfl
      waiting := fun hne => absurd hnone hne
      emptied := fun hclosed => by
        rw [hopen] at hclosed
        cases hclosed
      front := ⟨queue, by
        dsimp only
        rw [← hwhole, List.append_assoc, List.singleton_append]⟩
      whole := fun _ => by
        dsimp only
        rw [← hwhole, List.append_assoc, List.singleton_append]
      since := h.since
      token := by rw [List.getLast?_concat, Option.map_some]
      reason := h.reason }⟩
  · next heq =>
    split
    · next hclosed =>
      exact ⟨delivered, n + 1, { h with
        calls := by
          dsimp only
          rw [← results_append_rest, hcalls, hclosed, if_pos rfl]
        waiters := by
          dsimp only
          rw [hwaiters, hclosed, if_pos rfl, if_pos rfl] }⟩
    · next hopen =>
      rw [Bool.not_eq_true] at hopen
      exact ⟨delivered, n + 1, { h with
        calls := by
          dsimp only
          rw [← results_append_rest, hcalls, hopen, if_neg Bool.false_ne_true]
        waiters := by
          dsimp only
          rw [hwaiters, hopen, if_neg Bool.false_ne_true, if_neg Bool.false_ne_true,
            List.range'_concat, hcalls, length_results, Nat.one_mul]
        waiting := fun _ => heq }⟩

end MemorySubscription

end Nifra.Channels
