import Nifra.Durable.Records

/-! # The three lease stores

The stores differ in which fields a record always has, in what a release leaves
behind and in the checks that throw. All of them follow the rules of `LeaseView`.
-/

namespace Nifra.Durable

/-- A record of `MemoryReconciliationLeaseStore` and of `MemoryDurableRecordBackend`. -/
structure MemoryLease where
  owner : Option JSString := none
  token : Option JSString := none
  expiresAt : Option ℕ := none
  cursor : Option JSString := none
  deriving DecidableEq, Repr

namespace MemoryLease

/-- The record's fields as the rules read them, with the defaults of an absent record. -/
def view (current : Option MemoryLease) : LeaseView where
  owner := current.bind (·.owner)
  token := current.bind (·.token)
  expiresAt := (current.bind (·.expiresAt)).getD 0
  cursor := current.bind (·.cursor)

def heldBy (current : Option MemoryLease) (owner token : JSString) : Bool :=
  (current.bind (·.owner) == some owner) && safeEqual (current.bind (·.token)) (some token)

theorem heldBy_iff {current : Option MemoryLease} {owner token : JSString} :
    heldBy current owner token = true ↔ (view current).HeldBy owner token := by
  simp [heldBy, LeaseView.HeldBy, view]

def checkpoint (current : Option MemoryLease) (input : CheckpointInput) :
    Bool × Option MemoryLease :=
  if heldBy current input.owner input.token then
    (true, current.map fun record => { record with cursor := input.cursor })
  else (false, current)

def release (current : Option MemoryLease) (input : ReleaseInput) :
    Bool × Option MemoryLease :=
  if heldBy current input.owner input.token then
    (true, current.map fun record =>
      { record with owner := none, token := none, expiresAt := none })
  else (false, current)

theorem checkpoint_rule (current : Option MemoryLease) (input : CheckpointInput) :
    Prod.map id view (checkpoint current input) = (view current).checkpoint input := by
  unfold checkpoint LeaseView.checkpoint
  by_cases h : heldBy current input.owner input.token = true
  · rw [if_pos h, if_pos (heldBy_iff.mp h)]
    cases current with
    | none => simp [heldBy] at h
    | some record => rfl
  · rw [if_neg h, if_neg fun hv => h (heldBy_iff.mpr hv)]
    rfl

theorem release_rule (current : Option MemoryLease) (input : ReleaseInput) :
    Prod.map id view (release current input) = (view current).release input := by
  unfold release LeaseView.release
  by_cases h : heldBy current input.owner input.token = true
  · rw [if_pos h, if_pos (heldBy_iff.mp h)]
    cases current with
    | none => simp [heldBy] at h
    | some record => rfl
  · rw [if_neg h, if_neg fun hv => h (heldBy_iff.mpr hv)]
    rfl

end MemoryLease

namespace MemoryReconciliationLeaseStore

open MemoryLease

def acquire (current : Option MemoryLease) (input : AcquireInput) (uuid : JSString) :
    Except JSError (Option ReconciliationLease × Option MemoryLease) :=
  if !isToken input.name then
    .error (.typeError "reconciliation lease name must be a bounded printable token")
  else if !isToken input.owner then
    .error (.typeError "reconciliation lease owner must be a bounded printable token")
  else if (current.bind (·.owner)).isSome &&
      (current.bind (·.expiresAt)).any fun expiresAt => decide (input.now < expiresAt) then
    .ok (none, current)
  else
    let expiresAt := input.now + input.leaseMs
    if !isSafeInteger expiresAt then .error (.rangeError "reconciliation lease overflow")
    else
      let cursor := current.bind (·.cursor)
      .ok (some ⟨input.name, input.owner, uuid, expiresAt, cursor⟩,
        some ⟨some input.owner, some uuid, some expiresAt, cursor⟩)

def renew (current : Option MemoryLease) (input : RenewInput) :
    Except JSError (Bool × Option MemoryLease) :=
  if !heldBy current input.owner input.token ||
      decide ((current.bind (·.expiresAt)).getD 0 ≤ input.now) then
    .ok (false, current)
  else
    let expiresAt := input.now + input.leaseMs
    if !isSafeInteger expiresAt then .error (.rangeError "reconciliation lease overflow")
    else .ok (true, current.map fun record => { record with expiresAt := some expiresAt })

theorem live_iff {current : Option MemoryLease} {now : ℕ} :
    ((current.bind (·.owner)).isSome &&
      (current.bind (·.expiresAt)).any fun expiresAt => decide (now < expiresAt)) = true ↔
      (view current).owner.isSome ∧ now < (view current).expiresAt := by
  simp only [view, Bool.and_eq_true]
  cases current.bind (·.expiresAt) <;> simp

theorem acquire_rule (current : Option MemoryLease) (input : AcquireInput) (uuid : JSString)
    (answer : Option ReconciliationLease) (next : Option MemoryLease)
    (h : acquire current input uuid = .ok (answer, next)) :
    (answer, view next) = (view current).acquire input uuid := by
  unfold acquire at h
  split at h; · cases h
  split at h; · cases h
  split at h
  · rename_i hl
    obtain ⟨rfl, rfl⟩ := Prod.mk.inj (Except.ok.inj h)
    rw [LeaseView.acquire, if_pos (live_iff.mp hl)]
  · rename_i hl
    dsimp only at h
    split at h; · cases h
    obtain ⟨rfl, rfl⟩ := Prod.mk.inj (Except.ok.inj h)
    rw [LeaseView.acquire, if_neg fun hv => hl (live_iff.mpr hv)]
    rfl

theorem renew_rule (current : Option MemoryLease) (input : RenewInput) (answer : Bool)
    (next : Option MemoryLease) (h : renew current input = .ok (answer, next)) :
    (answer, view next) = (view current).renew input := by
  unfold renew at h
  split at h
  · rename_i hf
    obtain ⟨rfl, rfl⟩ := Prod.mk.inj (Except.ok.inj h)
    rw [LeaseView.renew, if_neg]
    rintro ⟨hv, hn⟩
    have hn' : input.now < (current.bind (·.expiresAt)).getD 0 := hn
    simp only [Bool.or_eq_true, Bool.not_eq_true', decide_eq_true_eq] at hf
    rcases hf with hf | hf
    · rw [heldBy_iff.mpr hv] at hf; cases hf
    · omega
  · rename_i hf
    dsimp only at h
    split at h; · cases h
    obtain ⟨rfl, rfl⟩ := Prod.mk.inj (Except.ok.inj h)
    simp only [Bool.or_eq_true, Bool.not_eq_true', decide_eq_true_eq, not_or, not_le,
      Bool.not_eq_false] at hf
    rw [LeaseView.renew, if_pos ⟨heldBy_iff.mp hf.1, hf.2⟩]
    cases current with
    | none => simp at hf
    | some record => rfl

def store : LeaseStore MemoryLease where
  view := view
  acquire := acquire
  renew := renew
  checkpoint := checkpoint
  release := release
  acquire_rule := acquire_rule
  renew_rule := renew_rule
  checkpoint_rule := checkpoint_rule
  release_rule := release_rule
  view_none := rfl

end MemoryReconciliationLeaseStore

namespace MemoryDurableRecordBackend

open MemoryLease

def acquireLease (current : Option MemoryLease) (input : AcquireInput) (uuid : JSString) :
    Except JSError (Option ReconciliationLease × Option MemoryLease) :=
  if (current.bind (·.owner)).isSome &&
      decide (input.now < (current.bind (·.expiresAt)).getD 0) then
    .ok (none, current)
  else
    let expiresAt := input.now + input.leaseMs
    let cursor := current.bind (·.cursor)
    .ok (some ⟨input.name, input.owner, uuid, expiresAt, cursor⟩,
      some ⟨some input.owner, some uuid, some expiresAt, cursor⟩)

def renewLease (current : Option MemoryLease) (input : RenewInput) :
    Except JSError (Bool × Option MemoryLease) :=
  if !heldBy current input.owner input.token ||
      decide ((current.bind (·.expiresAt)).getD 0 ≤ input.now) then
    .ok (false, current)
  else
    .ok (true, current.map fun record =>
      { record with expiresAt := some (input.now + input.leaseMs) })

theorem acquireLease_rule (current : Option MemoryLease) (input : AcquireInput)
    (uuid : JSString) (answer : Option ReconciliationLease) (next : Option MemoryLease)
    (h : acquireLease current input uuid = .ok (answer, next)) :
    (answer, view next) = (view current).acquire input uuid := by
  unfold acquireLease at h
  rw [LeaseView.acquire]
  split at h
  · rename_i hl
    obtain ⟨rfl, rfl⟩ := Prod.mk.inj (Except.ok.inj h)
    rw [if_pos (by simpa [view] using hl)]
  · rename_i hl
    obtain ⟨rfl, rfl⟩ := Prod.mk.inj (Except.ok.inj h)
    rw [if_neg (by simpa [view] using hl)]
    rfl

theorem renewLease_rule (current : Option MemoryLease) (input : RenewInput) (answer : Bool)
    (next : Option MemoryLease) (h : renewLease current input = .ok (answer, next)) :
    (answer, view next) = (view current).renew input := by
  unfold renewLease at h
  split at h
  · rename_i hf
    obtain ⟨rfl, rfl⟩ := Prod.mk.inj (Except.ok.inj h)
    rw [LeaseView.renew, if_neg]
    rintro ⟨hv, hn⟩
    have hn' : input.now < (current.bind (·.expiresAt)).getD 0 := hn
    simp only [Bool.or_eq_true, Bool.not_eq_true', decide_eq_true_eq] at hf
    rcases hf with hf | hf
    · rw [heldBy_iff.mpr hv] at hf; cases hf
    · omega
  · rename_i hf
    obtain ⟨rfl, rfl⟩ := Prod.mk.inj (Except.ok.inj h)
    simp only [Bool.or_eq_true, Bool.not_eq_true', decide_eq_true_eq, not_or, not_le,
      Bool.not_eq_false] at hf
    rw [LeaseView.renew, if_pos ⟨heldBy_iff.mp hf.1, hf.2⟩]
    cases current with
    | none => simp at hf
    | some record => rfl

def leaseStore : LeaseStore MemoryLease where
  view := view
  acquire := acquireLease
  renew := renewLease
  checkpoint := checkpoint
  release := release
  acquire_rule := acquireLease_rule
  renew_rule := renewLease_rule
  checkpoint_rule := checkpoint_rule
  release_rule := release_rule
  view_none := rfl

end MemoryDurableRecordBackend

structure DurableObjectLeaseValue where
  owner : Option JSString := none
  token : Option JSString := none
  expiresAt : ℕ
  cursor : Option JSString := none
  deriving DecidableEq, Repr

namespace DurableObjectRecordBackend

/-- The value's fields as the rules read them, with the defaults of an absent value. -/
def leaseView (current : Option DurableObjectLeaseValue) : LeaseView where
  owner := current.bind (·.owner)
  token := current.bind (·.token)
  expiresAt := (current.map (·.expiresAt)).getD 0
  cursor := current.bind (·.cursor)

def acquireLease (current : Option DurableObjectLeaseValue) (input : AcquireInput)
    (uuid : JSString) :
    Except JSError (Option ReconciliationLease × Option DurableObjectLeaseValue) :=
  if (current.bind (·.owner)).isSome &&
      current.any fun value => decide (input.now < value.expiresAt) then
    .ok (none, current)
  else
    let next : DurableObjectLeaseValue :=
      ⟨some input.owner, some uuid, input.now + input.leaseMs, current.bind (·.cursor)⟩
    .ok (some ⟨input.name, input.owner, uuid, next.expiresAt, next.cursor⟩, some next)

/-- Write `next` of the value while the owner and token still hold it. -/
def updateHeldLease (current : Option DurableObjectLeaseValue) (owner token : JSString)
    (next : DurableObjectLeaseValue → Option DurableObjectLeaseValue) :
    Bool × Option DurableObjectLeaseValue :=
  if current.bind (·.owner) ≠ some owner ∨
      ¬ safeEqual (current.bind (·.token)) (some token) then (false, current)
  else match current.bind next with
    | none => (false, current)
    | some value => (true, some value)

def renewLease (current : Option DurableObjectLeaseValue) (input : RenewInput) :
    Bool × Option DurableObjectLeaseValue :=
  updateHeldLease current input.owner input.token fun value =>
    if value.expiresAt ≤ input.now then none
    else some { value with expiresAt := input.now + input.leaseMs }

def checkpointLease (current : Option DurableObjectLeaseValue) (input : CheckpointInput) :
    Bool × Option DurableObjectLeaseValue :=
  updateHeldLease current input.owner input.token fun value =>
    some { value with cursor := input.cursor }

def releaseLease (current : Option DurableObjectLeaseValue) (input : ReleaseInput) :
    Bool × Option DurableObjectLeaseValue :=
  updateHeldLease current input.owner input.token fun value =>
    some { value with expiresAt := 0, owner := none, token := none }

theorem updateHeldLease_held {value : DurableObjectLeaseValue} {owner token : JSString}
    (next : DurableObjectLeaseValue → Option DurableObjectLeaseValue)
    (h : (leaseView (some value)).HeldBy owner token) :
    updateHeldLease (some value) owner token next =
      match next value with
      | none => (false, some value)
      | some v => (true, some v) := by
  have ho : value.owner = some owner := h.1
  have ht : value.token = some token := h.2
  simp [updateHeldLease, ho, ht]

theorem updateHeldLease_not_held {current : Option DurableObjectLeaseValue}
    {owner token : JSString}
    (next : DurableObjectLeaseValue → Option DurableObjectLeaseValue)
    (h : ¬ (leaseView current).HeldBy owner token) :
    updateHeldLease current owner token next = (false, current) := by
  rw [updateHeldLease, if_pos]
  by_contra hc
  simp only [not_or, not_not, safeEqual_iff] at hc
  exact h hc

theorem held_some {current : Option DurableObjectLeaseValue} {owner token : JSString}
    (h : (leaseView current).HeldBy owner token) : ∃ value, current = some value := by
  cases current with
  | none => cases h.1
  | some value => exact ⟨value, rfl⟩

theorem acquireLease_rule (current : Option DurableObjectLeaseValue) (input : AcquireInput)
    (uuid : JSString) (answer : Option ReconciliationLease)
    (next : Option DurableObjectLeaseValue)
    (h : acquireLease current input uuid = .ok (answer, next)) :
    (answer, leaseView next) = (leaseView current).acquire input uuid := by
  have hlive : ((current.bind (·.owner)).isSome &&
      current.any fun value => decide (input.now < value.expiresAt)) = true ↔
      (leaseView current).owner.isSome ∧ input.now < (leaseView current).expiresAt := by
    cases current <;> simp [leaseView]
  unfold acquireLease at h
  rw [LeaseView.acquire]
  split at h
  · rename_i hl
    obtain ⟨rfl, rfl⟩ := Prod.mk.inj (Except.ok.inj h)
    rw [if_pos (hlive.mp hl)]
  · rename_i hl
    obtain ⟨rfl, rfl⟩ := Prod.mk.inj (Except.ok.inj h)
    rw [if_neg fun hv => hl (hlive.mpr hv)]
    rfl

theorem renewLease_rule (current : Option DurableObjectLeaseValue) (input : RenewInput) :
    Prod.map id leaseView (renewLease current input) = (leaseView current).renew input := by
  by_cases h : (leaseView current).HeldBy input.owner input.token
  · obtain ⟨value, rfl⟩ := held_some h
    rw [renewLease, updateHeldLease_held _ h, LeaseView.renew]
    by_cases hn : input.now < value.expiresAt
    · rw [if_neg (not_le.mpr hn), if_pos ⟨h, hn⟩]; rfl
    · rw [if_pos (not_lt.mp hn), if_neg fun hv => hn hv.2]; rfl
  · rw [renewLease, updateHeldLease_not_held _ h, LeaseView.renew, if_neg fun hv => h hv.1]
    rfl

theorem checkpointLease_rule (current : Option DurableObjectLeaseValue)
    (input : CheckpointInput) :
    Prod.map id leaseView (checkpointLease current input) =
      (leaseView current).checkpoint input := by
  by_cases h : (leaseView current).HeldBy input.owner input.token
  · obtain ⟨value, rfl⟩ := held_some h
    rw [checkpointLease, updateHeldLease_held _ h, LeaseView.checkpoint, if_pos h]; rfl
  · rw [checkpointLease, updateHeldLease_not_held _ h, LeaseView.checkpoint, if_neg h]; rfl

theorem releaseLease_rule (current : Option DurableObjectLeaseValue) (input : ReleaseInput) :
    Prod.map id leaseView (releaseLease current input) = (leaseView current).release input := by
  by_cases h : (leaseView current).HeldBy input.owner input.token
  · obtain ⟨value, rfl⟩ := held_some h
    rw [releaseLease, updateHeldLease_held _ h, LeaseView.release, if_pos h]; rfl
  · rw [releaseLease, updateHeldLease_not_held _ h, LeaseView.release, if_neg h]; rfl

def leaseStore : LeaseStore DurableObjectLeaseValue where
  view := leaseView
  acquire := acquireLease
  renew current input := .ok (renewLease current input)
  checkpoint := checkpointLease
  release := releaseLease
  acquire_rule := acquireLease_rule
  renew_rule current input answer next h := by
    rw [← renewLease_rule current input, Except.ok.inj h]; rfl
  checkpoint_rule := checkpointLease_rule
  release_rule := releaseLease_rule
  view_none := rfl

end DurableObjectRecordBackend

end Nifra.Durable
