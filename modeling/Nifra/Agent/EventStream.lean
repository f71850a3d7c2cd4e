import Mathlib.Algebra.Order.Group.Multiset
import Mathlib.Tactic.Abel
import Nifra.Lib.Runs
import Nifra.Text.JSString

/-! # The agent event stream

A bounded queue between a producer and the calls of `next`. When it is full, the oldest delta goes,
and another event only where there is no delta.
-/

namespace Nifra.Agent

open NextCalls

/-- An event that was discarded, the full queue, and the event that arrived. -/
structure Discard (α : Type) where
  event : α
  queue : List α
  arrived : α
  deriving DecidableEq, Repr

/-- `ended` holds the failure, if there was one. The calls that are told the end are told it, or
done. `pushed`, `discards` and `cleared` record what became of the events pushed before the end. -/
structure EventStream (α E : Type) where
  maxQueueSize : ℕ
  queue : List α
  waiters : List ℕ
  ended : Option (Option E)
  dropped : ℕ
  calls : List (Option (Option α))
  pushed : List α
  discards : List (Discard α)
  cleared : List α
  deriving DecidableEq, Repr

inductive StreamEvent (α E : Type)
  | push (event : α)
  | complete
  | fail (error : E)
  | next
  | return
  deriving DecidableEq, Repr

variable {α E : Type}

def createAgentEventStream (maxQueueSize : ℕ) : Except JSError (EventStream α E) :=
  if maxQueueSize < 1 ∨ 65536 < maxQueueSize then
    .error (.rangeError "agent event stream: maxQueueSize must be between 1 and 65536")
  else .ok ⟨maxQueueSize, [], [], none, 0, [], [], [], []⟩

namespace EventStream

def finish (s : EventStream α E) (ended : Option E) : EventStream α E :=
  if s.queue = [] then
    { s with ended := some ended, waiters := [], calls := NextCalls.finish s.calls s.waiters }
  else { s with ended := some ended }

def overflow (isTransient : α → Bool) (s : EventStream α E) (event : α) : EventStream α E :=
  let s := { s with dropped := s.dropped + 1, pushed := s.pushed ++ [event] }
  match s.queue.findIdx? isTransient with
  | some i => { s with
      queue := s.queue.eraseIdx i ++ [event]
      discards := s.discards ++ (s.queue[i]?.map (⟨·, s.queue, event⟩)).toList }
  | none =>
    if isTransient event then { s with discards := s.discards ++ [⟨event, s.queue, event⟩] }
    else { s with
      queue := s.queue.tail ++ [event]
      discards := s.discards ++ (s.queue.head?.map (⟨·, s.queue, event⟩)).toList }

def push (isTransient : α → Bool) (s : EventStream α E) (event : α) : EventStream α E :=
  if s.ended.isSome then s
  else match s.waiters with
    | call :: waiters => { s with
        waiters := waiters
        calls := s.calls.set call (some (some event))
        pushed := s.pushed ++ [event] }
    | [] =>
      if s.maxQueueSize ≤ s.queue.length then s.overflow isTransient event
      else { s with queue := s.queue ++ [event], pushed := s.pushed ++ [event] }

def complete (s : EventStream α E) : EventStream α E := s.finish (s.ended.getD none)

def fail (s : EventStream α E) (error : E) : EventStream α E :=
  if s.ended.isSome then s else s.finish (some error)

def next (s : EventStream α E) : EventStream α E :=
  match s.queue with
  | event :: queue => { s with queue := queue, calls := s.calls ++ [some (some event)] }
  | [] =>
    if s.ended.isSome then { s with calls := s.calls ++ [some none] }
    else { s with waiters := s.waiters ++ [s.calls.length], calls := s.calls ++ [none] }

def return' (s : EventStream α E) : EventStream α E :=
  { s with queue := [], cleared := s.cleared ++ s.queue }.finish (s.ended.getD none)

def step (isTransient : α → Bool) (s : EventStream α E) : StreamEvent α E → EventStream α E
  | .push event => s.push isTransient event
  | .complete => s.complete
  | .fail error => s.fail error
  | .next => s.next
  | .return => s.return'

def run (isTransient : α → Bool) (s : EventStream α E) (events : List (StreamEvent α E)) :
    EventStream α E := events.foldl (step isTransient) s

/-- What a discard says of the event it took. -/
structure Discard.Lawful (isTransient : α → Bool) (maxQueueSize : ℕ) (d : Discard α) : Prop where
  full : maxQueueSize ≤ d.queue.length
  lifecycle : isTransient d.event = false →
    (∀ event ∈ d.queue, isTransient event = false) ∧ isTransient d.arrived = false ∧
      d.queue.head? = some d.event

/-- The calls that were answered with an event come first, in the order of the events; `n` calls
came after them. -/
structure Sound (isTransient : α → Bool) (s : EventStream α E) (delivered : List α) (n : ℕ) :
    Prop where
  size : 1 ≤ s.maxQueueSize
  calls : s.calls = results delivered n s.ended.isSome
  waiters : s.waiters = if s.ended.isSome then [] else List.range' delivered.length n
  drained : n ≠ 0 → s.queue = []
  order : (delivered ++ s.queue).Sublist s.pushed
  room : s.queue.length ≤ s.maxQueueSize
  dropped : s.dropped = s.discards.length
  lawful : ∀ d ∈ s.discards, Discard.Lawful isTransient s.maxQueueSize d
  fate : (s.pushed : Multiset α) =
    delivered + s.queue + s.discards.map Discard.event + s.cleared

variable {isTransient : α → Bool} {s : EventStream α E} {delivered : List α} {n : ℕ}

theorem coe_cons (event : α) (events : List α) :
    ((event :: events : List α) : Multiset α) = {event} + (events : Multiset α) := rfl

theorem Sound.finish (h : Sound isTransient s delivered n) {ended : Option E} :
    Sound isTransient (s.finish ended) delivered n := by
  unfold EventStream.finish
  split_ifs with hqueue
  · refine ⟨h.size, ?_, rfl, fun _ => hqueue, h.order, h.room, h.dropped, h.lawful, h.fate⟩
    change NextCalls.finish s.calls s.waiters = results delivered n true
    rw [h.calls, h.waiters]
    cases s.ended with
    | none => exact finish_results delivered n
    | some ended => rfl
  · obtain rfl : n = 0 := by
      by_contra hn
      exact hqueue (h.drained hn)
    refine ⟨h.size, ?_, ?_, h.drained, h.order, h.room, h.dropped, h.lawful, h.fate⟩
    · rw [h.calls]
      rfl
    · rw [h.waiters]
      exact ite_self _

theorem Sound.overflow (h : Sound isTransient s delivered 0)
    (hfull : s.maxQueueSize ≤ s.queue.length) (event : α) :
    Sound isTransient (s.overflow isTransient event) delivered 0 := by
  have hsound {queue : List α} {d : Discard α} (hqueue : queue.Sublist (s.queue ++ [event]))
      (hfate : (queue : Multiset α) + {d.event} = s.queue + {event})
      (hlawful : Discard.Lawful isTransient s.maxQueueSize d) :
      Sound isTransient { s with
        queue := queue
        dropped := s.dropped + 1
        pushed := s.pushed ++ [event]
        discards := s.discards ++ [d] } delivered 0 := by
    have hlength := congrArg Multiset.card hfate
    simp only [Multiset.card_add, Multiset.coe_card, Multiset.card_singleton] at hlength
    refine ⟨h.size, h.calls, h.waiters, fun hn => absurd rfl hn, ?_, ?_, ?_, ?_, ?_⟩
    · have horder := (hqueue.append_left delivered).trans
        ((List.append_assoc _ _ _).symm ▸ h.order.append_right [event])
      exact horder
    · have hroom := h.room
      change queue.length ≤ s.maxQueueSize
      omega
    · change s.dropped + 1 = _
      rw [h.dropped, List.length_append]
      rfl
    · exact List.forall_mem_append.mpr ⟨h.lawful, List.forall_mem_singleton.mpr hlawful⟩
    · change ((s.pushed ++ [event] : List α) : Multiset α) = _
      rw [← Multiset.coe_add, h.fate, List.map_append, ← Multiset.coe_add]
      have hevents : (([d] : List (Discard α)).map Discard.event : Multiset α) = {d.event} := rfl
      have hevent : (([event] : List α) : Multiset α) = {event} := rfl
      rw [hevents, hevent]
      calc _ = (delivered : Multiset α) + (s.queue + {event}) +
            s.discards.map Discard.event + s.cleared := by abel
        _ = _ := by
          rw [← hfate]
          abel
  unfold EventStream.overflow
  dsimp only
  cases hfind : s.queue.findIdx? isTransient with
  | some i =>
    obtain ⟨hi, htransient, -⟩ := List.findIdx?_eq_some_iff_getElem.mp hfind
    simp only [List.getElem?_eq_getElem hi, Option.map_some, Option.toList_some]
    refine hsound ((List.eraseIdx_sublist _ _).append_right _) ?_ ⟨hfull, fun hlife => ?_⟩
    · have hperm := Multiset.coe_eq_coe.mpr (List.getElem_cons_eraseIdx_perm hi)
      have hevent : (([event] : List α) : Multiset α) = {event} := rfl
      rw [← Multiset.coe_add, hevent, ← hperm, coe_cons]
      abel
    · rw [htransient] at hlife
      cases hlife
  | none =>
    have hnone := List.findIdx?_eq_none_iff.mp hfind
    cases htransient : isTransient event with
    | true =>
      simp only [if_true]
      refine hsound (List.sublist_append_left _ _) rfl ⟨hfull, fun hlife => ?_⟩
      rw [htransient] at hlife
      cases hlife
    | false =>
      simp only [Bool.false_eq_true, if_false]
      have hne : s.queue ≠ [] := by
        intro hnil
        have hsize := h.size
        rw [hnil] at hfull
        exact absurd (hsize.trans hfull) (by simp)
      obtain ⟨head, tail, hqueue⟩ := List.exists_cons_of_ne_nil hne
      simp only [hqueue, List.head?_cons, Option.map_some, Option.toList_some, List.tail_cons]
      rw [← hqueue]
      refine hsound ?_ ?_ ⟨hfull, fun _ => ⟨hnone, htransient, by rw [hqueue]; rfl⟩⟩
      · rw [hqueue]
        exact (List.sublist_cons_self head tail).append_right _
      · have hevent : (([event] : List α) : Multiset α) = {event} := rfl
        rw [hqueue, ← Multiset.coe_add, hevent, coe_cons]
        abel

theorem Sound.push (h : Sound isTransient s delivered n) (event : α) :
    ∃ delivered n, Sound isTransient (s.push isTransient event) delivered n := by
  unfold EventStream.push
  by_cases hended : s.ended.isSome
  · rw [if_pos hended]
    exact ⟨delivered, n, h⟩
  · rw [if_neg hended]
    have hopen : s.ended = none := Option.not_isSome_iff_eq_none.mp hended
    have hwaiters := h.waiters
    have hcalls := h.calls
    have hevent : (([event] : List α) : Multiset α) = {event} := rfl
    rw [hopen] at hwaiters hcalls
    cases n with
    | succ n =>
      have hqueue := h.drained (Nat.succ_ne_zero n)
      have horder := h.order
      have hfate := h.fate
      rw [hqueue] at horder hfate
      rw [Option.isSome_none, if_neg Bool.false_ne_true, List.range'_succ] at hwaiters
      simp only [hwaiters]
      refine ⟨delivered ++ [event], n, h.size, ?_, ?_, fun _ => hqueue, ?_, h.room, h.dropped,
        h.lawful, ?_⟩
      · simp only [hopen]
        rw [hcalls]
        exact set_results delivered n event
      · simp [hopen]
      · simp only [hqueue, List.append_nil] at horder ⊢
        exact horder.append_right [event]
      · simp only [hqueue, ← Multiset.coe_add, hfate, hevent]
        abel
    | zero =>
      rw [Option.isSome_none, if_neg Bool.false_ne_true, List.range'_zero] at hwaiters
      simp only [hwaiters]
      split_ifs with hfull
      · exact ⟨delivered, 0, h.overflow hfull event⟩
      · refine ⟨delivered, 0, h.size, h.calls, ?_, fun hn => absurd rfl hn, ?_, ?_, h.dropped,
          h.lawful, ?_⟩
        · rw [hopen]
          rfl
        · change (delivered ++ (s.queue ++ [event])).Sublist (s.pushed ++ [event])
          rw [← List.append_assoc]
          exact h.order.append_right [event]
        · simp only [List.length_append, List.length_singleton]
          omega
        · simp only [← Multiset.coe_add, h.fate, hevent]
          abel

theorem Sound.next (h : Sound isTransient s delivered n) :
    ∃ delivered n, Sound isTransient s.next delivered n := by
  unfold EventStream.next
  cases hqueue : s.queue with
  | cons event queue =>
    obtain rfl : n = 0 := by
      by_contra hn
      rw [h.drained hn] at hqueue
      cases hqueue
    have horder := h.order
    have hfate := h.fate
    have hroom := h.room
    rw [hqueue] at horder hfate hroom
    refine ⟨delivered ++ [event], 0, h.size, ?_, ?_, fun hn => absurd rfl hn, ?_, ?_, h.dropped,
      h.lawful, ?_⟩
    · simp only [h.calls]
      exact results_append_item delivered _ event
    · rw [h.waiters]
      simp
    · simp only [List.append_assoc, List.singleton_append]
      exact horder
    · exact (Nat.le_succ _).trans hroom
    · have hevent : (([event] : List α) : Multiset α) = {event} := rfl
      simp only [hfate, ← Multiset.coe_add, coe_cons, hevent]
      abel
  | nil =>
    have hcalls := h.calls
    have hwaiters := h.waiters
    have horder := h.order
    have hfate := h.fate
    rw [hqueue] at horder hfate
    dsimp only
    split_ifs with hended
    · rw [hended] at hcalls hwaiters
      refine ⟨delivered, n + 1, h.size, ?_, ?_, fun _ => rfl, horder, Nat.zero_le _, h.dropped,
        h.lawful, hfate⟩
      · rw [hended, hcalls]
        exact results_append_rest delivered n true
      · rw [hended, hwaiters]
        rfl
    · rw [Bool.not_eq_true] at hended
      rw [hended] at hcalls hwaiters
      refine ⟨delivered, n + 1, h.size, ?_, ?_, fun _ => rfl, horder, Nat.zero_le _, h.dropped,
        h.lawful, hfate⟩
      · rw [hended, hcalls]
        exact results_append_rest delivered n false
      · rw [hended, hwaiters, hcalls, length_results, if_neg Bool.false_ne_true,
          if_neg Bool.false_ne_true, List.range'_concat, Nat.one_mul]

theorem Sound.clear (h : Sound isTransient s delivered n) :
    Sound isTransient { s with queue := [], cleared := s.cleared ++ s.queue } delivered n := by
  refine ⟨h.size, h.calls, h.waiters, fun _ => rfl, ?_, Nat.zero_le _, h.dropped, h.lawful, ?_⟩
  · rw [List.append_nil]
    exact (List.sublist_append_left _ _).trans h.order
  · simp only [h.fate, ← Multiset.coe_add, Multiset.coe_nil]
    abel

theorem Sound.step (h : Sound isTransient s delivered n) (event : StreamEvent α E) :
    ∃ delivered n, Sound isTransient (s.step isTransient event) delivered n := by
  cases event with
  | push event => exact h.push event
  | complete => exact ⟨delivered, n, h.finish⟩
  | fail error =>
    change ∃ delivered n, Sound isTransient (s.fail error) delivered n
    unfold EventStream.fail
    split_ifs
    · exact ⟨delivered, n, h⟩
    · exact ⟨delivered, n, h.finish⟩
  | next => exact h.next
  | «return» => exact ⟨delivered, n, h.clear.finish⟩

theorem Sound.run (h : Sound isTransient s delivered n) (events : List (StreamEvent α E)) :
    ∃ delivered n, Sound isTransient (s.run isTransient events) delivered n := by
  induction events generalizing s delivered n with
  | nil => exact ⟨delivered, n, h⟩
  | cons event events ih =>
    obtain ⟨delivered, n, hstep⟩ := h.step event
    exact ih hstep

/-- What the rest of a run makes of the stream's end and of the events pushed before it. -/
structure Follows (s s' : EventStream α E) (ended : Option (Option E)) (pushed : List α) :
    Prop where
  maxQueueSize : s'.maxQueueSize = s.maxQueueSize
  ended : s'.ended = s.ended.or ended
  pushed : s'.pushed = if s.ended.isSome then s.pushed else s.pushed ++ pushed

def endOf : List (StreamEvent α E) → Option (Option E)
  | [] => none
  | .push _ :: events | .next :: events => endOf events
  | .fail error :: _ => some (some error)
  | .complete :: _ | .return :: _ => some none

def pushedBeforeEnd : List (StreamEvent α E) → List α
  | .push event :: events => event :: pushedBeforeEnd events
  | .next :: events => pushedBeforeEnd events
  | _ => []

theorem Follows.refl : Follows s s none [] := by
  refine ⟨rfl, Option.or_none.symm, ?_⟩
  rw [List.append_nil, ite_self]

theorem Follows.trans {s' s'' : EventStream α E} {ended ended' : Option (Option E)}
    {pushed pushed' : List α} (h : Follows s s' ended pushed) (h' : Follows s' s'' ended' pushed') :
    Follows s s'' (ended.or ended') (pushed ++ if ended.isSome then [] else pushed') := by
  refine ⟨h'.maxQueueSize.trans h.maxQueueSize, ?_, ?_⟩
  · rw [h'.ended, h.ended, Option.or_assoc]
  · rw [h'.pushed, h.ended, h.pushed]
    cases s.ended <;> cases ended <;> simp

theorem follows_finish {ended : Option E} (h : ∀ e, s.ended = some e → ended = e) :
    Follows s (s.finish ended) (some ended) [] := by
  have hended : some ended = s.ended.or (some ended) := by
    cases hs : s.ended with
    | none => rfl
    | some e => rw [h e hs, Option.some_or]
  unfold EventStream.finish
  split_ifs <;> exact ⟨rfl, hended, by simp⟩

theorem follows_overflow (hended : ¬ s.ended.isSome) (event : α) :
    Follows s (s.overflow isTransient event) none [event] ∧
      (s.overflow isTransient event).cleared = s.cleared := by
  have hpushed : s.pushed ++ [event] =
      if s.ended.isSome then s.pushed else s.pushed ++ [event] := (if_neg hended).symm
  unfold EventStream.overflow
  dsimp only
  split
  · exact ⟨⟨rfl, Option.or_none.symm, hpushed⟩, rfl⟩
  · split_ifs <;> exact ⟨⟨rfl, Option.or_none.symm, hpushed⟩, rfl⟩

theorem follows_push (event : α) :
    Follows s (s.push isTransient event) none [event] ∧
      (s.push isTransient event).cleared = s.cleared := by
  unfold EventStream.push
  by_cases hended : s.ended.isSome
  · rw [if_pos hended]
    exact ⟨⟨rfl, Option.or_none.symm, (if_pos hended).symm⟩, rfl⟩
  · rw [if_neg hended]
    split
    · exact ⟨⟨rfl, Option.or_none.symm, (if_neg hended).symm⟩, rfl⟩
    · split_ifs
      · exact follows_overflow hended event
      · exact ⟨⟨rfl, Option.or_none.symm, (if_neg hended).symm⟩, rfl⟩

theorem follows_step (event : StreamEvent α E) :
    Follows s (s.step isTransient event) (endOf [event]) (pushedBeforeEnd [event]) := by
  have hgetD {e : Option E} (h : s.ended = some e) : s.ended.getD none = e := by
    rw [h, Option.getD_some]
  cases event with
  | push event => exact (follows_push event).1
  | complete =>
    have hfinish := follows_finish (s := s) fun e h => hgetD h
    refine ⟨hfinish.maxQueueSize, hfinish.ended.trans ?_, hfinish.pushed⟩
    cases s.ended <;> rfl
  | fail error =>
    change Follows s (s.fail error) (some (some error)) []
    unfold EventStream.fail
    split_ifs with hended
    · refine ⟨rfl, (Option.or_of_isSome hended).symm, (if_pos hended).symm⟩
    · exact follows_finish fun e h => absurd (h ▸ rfl) hended
  | next =>
    change Follows s s.next none []
    unfold EventStream.next
    split
    · exact ⟨rfl, Option.or_none.symm, by simp⟩
    · split_ifs <;> exact ⟨rfl, Option.or_none.symm, by simp⟩
  | «return» =>
    have hfinish := follows_finish (s := { s with queue := [], cleared := s.cleared ++ s.queue })
      fun e h => hgetD h
    refine ⟨hfinish.maxQueueSize, hfinish.ended.trans ?_, hfinish.pushed⟩
    cases s.ended <;> rfl

theorem follows_run (events : List (StreamEvent α E)) :
    Follows s (s.run isTransient events) (endOf events) (pushedBeforeEnd events) := by
  induction events generalizing s with
  | nil => exact .refl
  | cons event events ih =>
    have hstep : Follows s (s.step isTransient event) _ _ := follows_step event
    have hrun := hstep.trans ih
    cases event <;> exact hrun

theorem cleared_step {event : StreamEvent α E} (h : event ≠ .return) :
    (s.step isTransient event).cleared = s.cleared := by
  have hfinish (ended : Option E) : (s.finish ended).cleared = s.cleared := by
    unfold EventStream.finish
    split_ifs <;> rfl
  cases event with
  | push event => exact (follows_push event).2
  | complete => exact hfinish _
  | fail error =>
    change (s.fail error).cleared = _
    unfold EventStream.fail
    split_ifs
    · rfl
    · exact hfinish _
  | next =>
    change s.next.cleared = _
    unfold EventStream.next
    split
    · rfl
    · split_ifs <;> rfl
  | «return» => exact absurd rfl h

theorem cleared_run {events : List (StreamEvent α E)} (h : .return ∉ events) :
    (s.run isTransient events).cleared = s.cleared := by
  induction events generalizing s with
  | nil => rfl
  | cons event events ih =>
    rw [List.mem_cons, not_or] at h
    exact (ih h.2).trans (cleared_step (Ne.symm h.1))

end EventStream

open EventStream

theorem agentEventStream_accounts {maxQueueSize : ℕ} {s₀ : EventStream α E}
    (h : createAgentEventStream maxQueueSize = .ok s₀) (isTransient : α → Bool)
    (events : List (StreamEvent α E)) :
    let s := s₀.run isTransient events
    s.ended = endOf events ∧ s.pushed = pushedBeforeEnd events ∧
    (∃ delivered n,
      -- the calls that got an event come first; the others wait, or were told the end
      s.calls = results delivered n s.ended.isSome ∧
      s.waiters = (if s.ended.isSome then [] else List.range' delivered.length n) ∧
      (n ≠ 0 → s.queue = []) ∧
      (delivered ++ s.queue).Sublist s.pushed ∧
      (s.pushed : Multiset α) =
        delivered + s.queue + s.discards.map Discard.event + s.cleared) ∧
    s.queue.length ≤ maxQueueSize ∧ s.dropped = s.discards.length ∧
    (∀ d ∈ s.discards, Discard.Lawful isTransient maxQueueSize d) ∧
    (.return ∉ events → s.cleared = []) := by
  unfold createAgentEventStream at h
  split_ifs at h with hsize
  injection h with hs₀
  rw [not_or, not_lt] at hsize
  subst hs₀
  have hsound : Sound isTransient
      (⟨maxQueueSize, [], [], none, 0, [], [], [], []⟩ : EventStream α E) [] 0 :=
    ⟨hsize.1, rfl, rfl, fun _ => rfl, .refl _, Nat.zero_le _, rfl, by simp, rfl⟩
  obtain ⟨delivered, n, hrun⟩ := hsound.run events
  have hfollows : Follows _ (run isTransient _ events) _ _ :=
    follows_run (s := ⟨maxQueueSize, [], [], none, 0, [], [], [], []⟩) events
  refine ⟨hfollows.ended, hfollows.pushed, ⟨delivered, n, hrun.calls, hrun.waiters, hrun.drained,
    hrun.order, hrun.fate⟩, ?_, hrun.dropped, ?_, cleared_run⟩
  · exact hrun.room.trans_eq hfollows.maxQueueSize
  · have hlawful := hrun.lawful
    rwa [hfollows.maxQueueSize] at hlawful

theorem agentEventStream_accounts_two :
    let s := (⟨2, [], [], none, 0, [], [], [], []⟩ : EventStream ℕ Unit).run (· < 10)
      [.push 10, .push 1, .push 11, .complete, .next]
    s.ended = some none ∧ s.dropped = 1 ∧ s.queue.length ≤ 2 ∧ s.cleared = [] := by
  have hstream : createAgentEventStream 2 =
      .ok (⟨2, [], [], none, 0, [], [], [], []⟩ : EventStream ℕ Unit) := rfl
  obtain ⟨hended, -, -, hroom, -, -, hcleared⟩ := agentEventStream_accounts hstream (· < 10)
    [.push 10, .push 1, .push 11, .complete, .next]
  exact ⟨hended, rfl, hroom, hcleared (by decide)⟩

/-- The return discards the event that the completed stream still held. -/
theorem return_discards :
    let s := (⟨1, [], [], none, 0, [], [], [], []⟩ : EventStream ℕ Unit).run (fun _ => false)
      [.push 1, .complete, .return, .next]
    createAgentEventStream 1 = .ok (⟨1, [], [], none, 0, [], [], [], []⟩ : EventStream ℕ Unit) ∧
      s.pushed = [1] ∧ s.dropped = 0 ∧ s.calls = [some none] := by
  decide

end Nifra.Agent
