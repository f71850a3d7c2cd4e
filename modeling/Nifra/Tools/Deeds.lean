import Nifra.Tools.Contract

/-! # What a call has done

A call keeps, wherever it stops, an account of its deeds: what admission it has passed, that it
enters its executor once at most, and that a reservation is settled once, by `complete` when the
executor was entered and by `abandon` otherwise.
-/

namespace Nifra.Tools

variable {O : Type*}

namespace Deed

def isAbandoned : Deed → Bool
  | abandoned _ => true
  | _ => false

def isCompleted : Deed → Bool
  | completed _ _ => true
  | _ => false

end Deed

/-- What the account of a call is about; its evidence and its ledger are not. -/
structure Facts where
  tool : ToolContract
  options : CallOptions
  aborted : Bool
  reservation : Option Reservation
  executed : Bool
  deeds : List Deed

namespace Facts

variable (f : Facts)

def abandons : ℕ := f.deeds.countP Deed.isAbandoned

def completes : ℕ := f.deeds.countP Deed.isCompleted

def Unsettled : Prop := f.abandons = 0 ∧ f.completes = 0

def Fresh : Prop := f.executed = false ∧ f.reservation = none ∧ f.Unsettled

def Unentered : Prop := f.executed = false ∧ f.Unsettled

def Running : Prop := f.executed = true ∧ f.Unsettled

/-- A reservation has been settled once, by the operation that the executor asks for. -/
def Settled : Prop :=
  if f.executed then f.abandons = 0 ∧ f.completes = f.reservation.toList.length
  else f.completes = 0 ∧ f.abandons = f.reservation.toList.length

def Cleared : Prop :=
  Deed.inputValid ∈ f.deeds ∧ hasCapability f.options.capabilities f.tool.capability = true

/-- The contract's ceiling admits the capability, before the adapter is asked. -/
def UnderCeiling : Prop :=
  ∀ ceiling ∈ f.tool.capabilityCeiling,
    f.tool.capability ∈ ceiling ∧ f.options.executionPolicy = true

def Approved : Prop :=
  f.Cleared ∧ f.UnderCeiling ∧
    (f.tool.capabilityCeiling.isSome → Deed.policySatisfied ∈ f.deeds) ∧
    checkApproval f.tool.approval f.options.approval = none

def AdmittedBy (deeds : List Deed) : Prop :=
  Deed.inputValid ∈ deeds ∧ hasCapability f.options.capabilities f.tool.capability = true ∧
    f.UnderCeiling ∧ (f.tool.capabilityCeiling.isSome → Deed.policySatisfied ∈ deeds) ∧
    checkApproval f.tool.approval f.options.approval = none ∧
    (f.tool.idempotency.isSome → Deed.reserved ∈ deeds) ∧ Deed.consumed ∈ deeds ∧
    Deed.aborted ∉ deeds ∧ f.options.dryRun = false

/-- The store has taken the completion of the reservation, where there is one. -/
def Accepted : Prop := ∀ r ∈ f.reservation, Deed.completed r true ∈ f.deeds

end Facts

/-- What an `ok` of the call tells. -/
def CallOutcome.Earned (f : Facts) : CallOutcome O → Prop
  | .ok none => f.executed = false ∧ f.options.dryRun = true
  | .ok (some _) => f.executed = true ∧ Deed.outputValid ∈ f.deeds ∧ f.Accepted
  | .error _ => True

def Next.Ready (f : Facts) : Next O → Prop
  | .dryRun => f.executed = false ∧ f.options.dryRun = true
  | .output _ => f.executed = true ∧ Deed.outputValid ∈ f.deeds
  | _ => True

def Stop.Holds (f : Facts) : Stop O → Prop
  | .input => f.Fresh
  | .policy => f.Fresh ∧ f.Cleared ∧ f.UnderCeiling
  | .key => f.Fresh ∧ f.Approved
  | .beginning _ => f.Fresh ∧ f.Approved
  | .begun => f.Fresh ∧ f.Approved
  | .admitted => f.Fresh ∧ f.Approved ∧ f.tool.idempotency = none
  | .executing => f.Running
  | .output => f.Running
  | .abandoning next => f.Unentered ∧ next.Ready f
  | .completing next => f.Running ∧ next.Ready f
  | .settled next completed => f.Settled ∧ next.Ready f ∧ (completed = true → f.Accepted)
  | .finishing outcome => f.Settled ∧ outcome.Earned f
  | .answered result => f.Settled ∧ result.outcome.Earned f

/-- A reservation is settled once at most, and by one of the two operations. -/
def Facts.SettledOnce (f : Facts) : Prop :=
  if f.executed then f.abandons = 0 ∧ f.completes ≤ 1 else f.completes = 0 ∧ f.abandons ≤ 1

structure Facts.Sound (f : Facts) : Prop where
  aborted : Deed.aborted ∈ f.deeds → f.aborted = true
  entered : f.deeds.count Deed.entered = if f.executed then 1 else 0
  own : ∀ d ∈ f.deeds, ∀ r accepted, d = .abandoned r ∨ d = .completed r accepted →
    f.reservation = some r
  admitted : ∀ post pre, f.deeds = post ++ Deed.entered :: pre → f.AdmittedBy pre

namespace Facts
variable {f : Facts}

theorem Fresh.unentered (h : f.Fresh) : f.Unentered := ⟨h.1, h.2.2⟩

theorem Fresh.settled (h : f.Fresh) : f.Settled := by
  obtain ⟨hexecuted, hnone, habandons, hcompletes⟩ := h
  unfold Settled
  rw [hexecuted, hnone]
  exact ⟨hcompletes, habandons⟩

def Plain (d : Deed) : Prop :=
  d ≠ .entered ∧ d ≠ .aborted ∧ d.isAbandoned = false ∧ d.isCompleted = false

theorem Plain.ne_settlement {d : Deed} (h : Plain d) (r : Reservation) (accepted : Bool) :
    ¬ (d = .abandoned r ∨ d = .completed r accepted) := by
  rintro (rfl | rfl)
  · exact Bool.noConfusion h.2.2.1
  · exact Bool.noConfusion h.2.2.2

theorem admitted_cons {d : Deed} (hd : d ≠ .entered)
    (h : ∀ post pre, f.deeds = post ++ Deed.entered :: pre → f.AdmittedBy pre)
    {post pre : List Deed} (heq : d :: f.deeds = post ++ Deed.entered :: pre) :
    f.AdmittedBy pre := by
  cases post with
  | nil => exact absurd (List.cons.inj heq).1 hd
  | cons e post => exact h post pre (List.cons.inj heq).2

theorem Sound.cons (h : f.Sound) {d : Deed} {aborted : Bool} (hd : d ≠ .entered)
    (haborted : f.aborted = true ∨ d = .aborted → aborted = true)
    (hown : ∀ r accepted, d = .abandoned r ∨ d = .completed r accepted → f.reservation = some r) :
    Sound { f with aborted := aborted, deeds := d :: f.deeds } := by
  constructor
  · intro hmem
    rcases List.mem_cons.mp hmem with heq | hmem
    · exact haborted (Or.inr heq.symm)
    · exact haborted (Or.inl (h.aborted hmem))
  · exact (List.count_cons_of_ne hd).trans h.entered
  · rintro e he r accepted hr
    rcases List.mem_cons.mp he with rfl | he
    · exact hown r accepted hr
    · exact h.own e he r accepted hr
  · rintro post pre heq
    exact admitted_cons hd h.admitted heq

theorem Sound.plain (h : f.Sound) {d : Deed} (hd : Plain d) :
    Sound { f with deeds := d :: f.deeds } := by
  apply h.cons hd.1
  · rintro (haborted | heq)
    · exact haborted
    · exact absurd heq hd.2.1
  · rintro r accepted hr
    exact absurd hr (hd.ne_settlement r accepted)

theorem plain_inputValid : Plain .inputValid := ⟨nofun, nofun, rfl, rfl⟩

theorem plain_policySatisfied : Plain .policySatisfied := ⟨nofun, nofun, rfl, rfl⟩

theorem plain_reserved : Plain .reserved := ⟨nofun, nofun, rfl, rfl⟩

theorem plain_consumed : Plain .consumed := ⟨nofun, nofun, rfl, rfl⟩

theorem plain_outputValid : Plain .outputValid := ⟨nofun, nofun, rfl, rfl⟩

theorem Sound.enter (h : f.Sound) (hexecuted : f.executed = false)
    (hadmitted : f.AdmittedBy f.deeds) :
    Sound { f with executed := true, deeds := .entered :: f.deeds } := by
  have hcount := h.entered
  rw [hexecuted] at hcount
  constructor
  · intro hmem
    exact h.aborted ((List.mem_cons.mp hmem).resolve_left nofun)
  · rw [List.count_cons_self, hcount]
    rfl
  · rintro e he r accepted hr
    rcases List.mem_cons.mp he with rfl | he
    · exact absurd hr (by simp)
    · exact h.own e he r accepted hr
  · rintro post pre heq
    cases post with
    | nil =>
      obtain rfl := (List.cons.inj heq).2
      exact hadmitted
    | cons e post =>
      -- There is no entry before this one.
      have hmem : Deed.entered ∈ f.deeds := by
        rw [(List.cons.inj heq).2]
        simp
      exact absurd (List.count_pos_iff.mpr hmem) (by rw [hcount]; decide)

theorem Sound.reserve (h : f.Sound) (hfresh : f.Fresh) (r : Reservation) :
    Sound { f with reservation := some r, deeds := .reserved :: f.deeds } := by
  have hplain := h.plain plain_reserved
  constructor
  · exact hplain.aborted
  · exact hplain.entered
  · rintro e he r' accepted hr
    have hnone := hplain.own e he r' accepted hr
    rw [hfresh.2.1] at hnone
    cases hnone
  · exact hplain.admitted

theorem Unsettled.plain (h : f.Unsettled) {d : Deed} (hd : Plain d) :
    Unsettled { f with deeds := d :: f.deeds } := by
  constructor
  · exact (List.countP_cons_of_neg (by simp [hd.2.2.1])).trans h.1
  · exact (List.countP_cons_of_neg (by simp [hd.2.2.2])).trans h.2

theorem Fresh.plain (h : f.Fresh) {d : Deed} (hd : Plain d) :
    Fresh { f with deeds := d :: f.deeds } :=
  ⟨h.1, h.2.1, h.2.2.plain hd⟩

theorem Approved.cons (h : f.Approved) (d : Deed) (aborted : Bool) :
    Approved { f with aborted := aborted, deeds := d :: f.deeds } := by
  obtain ⟨⟨hinput, hcapability⟩, hceiling, hpolicy, happroval⟩ := h
  exact ⟨⟨List.mem_cons_of_mem _ hinput, hcapability⟩, hceiling,
    fun hsome => List.mem_cons_of_mem _ (hpolicy hsome), happroval⟩

theorem Accepted.cons (h : f.Accepted) (d : Deed) (aborted : Bool) :
    Accepted { f with aborted := aborted, deeds := d :: f.deeds } :=
  fun r hr => List.mem_cons_of_mem _ (h r hr)

def afterAbort (f : Facts) : Facts := { f with aborted := true, deeds := .aborted :: f.deeds }

@[simp] theorem abandons_afterAbort : f.afterAbort.abandons = f.abandons :=
  List.countP_cons_of_neg (by decide)

@[simp] theorem completes_afterAbort : f.afterAbort.completes = f.completes :=
  List.countP_cons_of_neg (by decide)

theorem Unsettled.afterAbort (h : f.Unsettled) : f.afterAbort.Unsettled := by
  rwa [Unsettled, abandons_afterAbort, completes_afterAbort]

theorem Fresh.afterAbort (h : f.Fresh) : f.afterAbort.Fresh := ⟨h.1, h.2.1, h.2.2.afterAbort⟩

theorem Running.afterAbort (h : f.Running) : f.afterAbort.Running := ⟨h.1, h.2.afterAbort⟩

theorem Settled.afterAbort (h : f.Settled) : f.afterAbort.Settled := by
  rwa [Settled, abandons_afterAbort, completes_afterAbort]

theorem Settled.once (h : f.Settled) : f.SettledOnce := by
  have hlength : f.reservation.toList.length ≤ 1 := by
    cases f.reservation <;> simp
  unfold Settled at h
  unfold SettledOnce
  split_ifs at h ⊢
  · exact ⟨h.1, h.2.trans_le hlength⟩
  · exact ⟨h.1, h.2.trans_le hlength⟩

theorem Unsettled.once (h : f.Unsettled) : f.SettledOnce := by
  obtain ⟨habandons, hcompletes⟩ := h
  unfold SettledOnce
  split_ifs
  · exact ⟨habandons, by rw [hcompletes]; exact Nat.zero_le 1⟩
  · exact ⟨hcompletes, by rw [habandons]; exact Nat.zero_le 1⟩

end Facts

theorem Stop.Holds.settledOnce {f : Facts} {stop : Stop O} (h : stop.Holds f) : f.SettledOnce := by
  cases stop with
  | input => exact h.2.2.once
  | policy | key | beginning | begun | admitted => exact h.1.2.2.once
  | executing | output => exact h.2.once
  | abandoning | completing => exact h.1.2.once
  | settled | finishing | answered => exact h.1.once

theorem Next.Ready.afterAbort {f : Facts} {next : Next O} (h : next.Ready f) :
    next.Ready f.afterAbort := by
  match next with
  | .denied _ _ => trivial
  | .dryRun => exact h
  | .output _ => exact ⟨h.1, List.mem_cons_of_mem _ h.2⟩
  | .outputInvalid _ => trivial
  | .caught _ => trivial

theorem CallOutcome.Earned.afterAbort {f : Facts} {outcome : CallOutcome O}
    (h : outcome.Earned f) : outcome.Earned f.afterAbort := by
  match outcome with
  | .ok none => exact h
  | .ok (some _) => exact ⟨h.1, List.mem_cons_of_mem _ h.2.1, h.2.2.cons _ _⟩
  | .error _ => trivial

theorem Stop.Holds.afterAbort {f : Facts} {stop : Stop O} (h : stop.Holds f) :
    stop.Holds f.afterAbort := by
  cases stop with
  | input => exact Facts.Fresh.afterAbort h
  | policy => exact ⟨h.1.afterAbort, ⟨List.mem_cons_of_mem _ h.2.1.1, h.2.1.2⟩, h.2.2⟩
  | key | beginning | begun => exact ⟨h.1.afterAbort, h.2.cons _ _⟩
  | admitted => exact ⟨h.1.afterAbort, h.2.1.cons _ _, h.2.2⟩
  | executing | output => exact Facts.Running.afterAbort h
  | abandoning => exact ⟨⟨h.1.1, h.1.2.afterAbort⟩, h.2.afterAbort⟩
  | completing => exact ⟨h.1.afterAbort, h.2.afterAbort⟩
  | settled =>
    exact ⟨h.1.afterAbort, h.2.1.afterAbort, fun hcompleted => (h.2.2 hcompleted).cons _ _⟩
  | finishing | answered => exact ⟨h.1.afterAbort, h.2.afterAbort⟩

end Nifra.Tools
