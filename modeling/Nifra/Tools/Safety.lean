import Nifra.Tools.Exclusion

/-! # A keyed call never repeats a started effect

The results over every run: one executor at a time for a key, one settlement for a reservation,
and no executor before admission.
-/

namespace Nifra.Tools

open Idempotency (storageKey)

variable {T O : Type*}

namespace Call

/-- What a call has done to its reservation, what it did before its executor was entered, and what
its `ok` tells. -/
structure Safe (c : Call O) : Prop where
  /-- `abandon` is for a reservation whose executor was not entered. -/
  abandoned : ∀ r, Deed.abandoned r ∈ c.deeds → c.reservation = some r ∧ Deed.entered ∉ c.deeds
  completed : ∀ r accepted, Deed.completed r accepted ∈ c.deeds →
    c.reservation = some r ∧ Deed.entered ∈ c.deeds
  once : c.deeds.count .entered ≤ 1 ∧
    c.deeds.countP Deed.isAbandoned + c.deeds.countP Deed.isCompleted ≤ 1
  /-- A call that has answered has settled its reservation. -/
  settled : ∀ r result, c.reservation = some r → c.stop = .answered result →
    if Deed.entered ∈ c.deeds then c.deeds.countP Deed.isCompleted = 1
    else c.deeds.countP Deed.isAbandoned = 1
  admitted : ∀ post pre, c.deeds = post ++ Deed.entered :: pre → c.facts.AdmittedBy pre
  ok : ∀ result, c.stop = .answered result → result.outcome.Earned c.facts

variable {c : Call O}

theorem Sound.entered_iff (h : c.Sound) : Deed.entered ∈ c.deeds ↔ c.executed = true := by
  have hcount : c.deeds.count Deed.entered = if c.executed then 1 else 0 := h.facts.entered
  rw [← List.count_pos_iff, hcount]
  cases c.executed <;> simp

theorem Sound.safe (h : c.Sound) : c.Safe := by
  have honce : if c.executed then c.deeds.countP Deed.isAbandoned = 0 ∧
        c.deeds.countP Deed.isCompleted ≤ 1
      else c.deeds.countP Deed.isCompleted = 0 ∧ c.deeds.countP Deed.isAbandoned ≤ 1 :=
    h.holds.settledOnce
  constructor
  · intro r hr
    refine ⟨h.facts.own _ hr r false (Or.inl rfl), ?_⟩
    rw [h.entered_iff]
    intro hexecuted
    rw [if_pos hexecuted] at honce
    have hpos : 0 < c.deeds.countP Deed.isAbandoned := List.countP_pos_iff.mpr ⟨_, hr, rfl⟩
    omega
  · intro r accepted hr
    refine ⟨h.facts.own _ hr r accepted (Or.inr rfl), ?_⟩
    rw [h.entered_iff]
    by_contra hexecuted
    rw [if_neg hexecuted] at honce
    have hpos : 0 < c.deeds.countP Deed.isCompleted := List.countP_pos_iff.mpr ⟨_, hr, rfl⟩
    omega
  · constructor
    · have hcount : c.deeds.count Deed.entered = if c.executed then 1 else 0 := h.facts.entered
      rw [hcount]
      split_ifs <;> omega
    · split_ifs at honce <;> omega
  · intro r result hr hstop
    have hholds := h.holds
    rw [hstop] at hholds
    have hsettled : if c.executed then c.deeds.countP Deed.isAbandoned = 0 ∧
          c.deeds.countP Deed.isCompleted = c.reservation.toList.length
        else c.deeds.countP Deed.isCompleted = 0 ∧
          c.deeds.countP Deed.isAbandoned = c.reservation.toList.length := hholds.1
    rw [hr] at hsettled
    simp only [h.entered_iff]
    split_ifs at hsettled ⊢
    · exact hsettled.2
    · exact hsettled.2
  · exact h.facts.admitted
  · intro result hstop
    have hholds := h.holds
    rw [hstop] at hholds
    exact hholds.2

end Call

namespace Executions
variable [LinearOrder T] [Add T] [NatCast T] {s t : Executions T O}

theorem Consistent.run (h : s.Consistent) {es : List (Event T O)}
    (ht : Runs.run Executions.step s es = some t) : t.Consistent :=
  Runs.run_invariant (fun _ _ _ hs ht => hs.step ht) ht h

theorem Entered.alive_of_run (h : s.Consistent) {es : List (Event T O)}
    (ht : Runs.run Executions.step s es = some t) {i : ℕ} {r : Reservation} (hi : s.Entered i r)
    (halive : t.Alive r) : s.Alive r := by
  induction es generalizing s with
  | nil =>
    obtain rfl := Option.some.inj ht
    exact halive
  | cons e es ih =>
    obtain ⟨u, hu, ht⟩ := Runs.run_cons_iff.mp ht
    have halive' := ih (h.step hu) ht (Entered.step h hu hi)
    obtain ⟨c, hc, -, hr⟩ := hi
    exact Alive.of_step hu (h.reserved i c r hc hr) halive'

theorem entered_of_run (h : s.Consistent) {es : List (Event T O)}
    (ht : Runs.run Executions.step s es = some t) {i j : ℕ} {r r' : Reservation}
    (hi : s.Entered i r) (hij : j ≠ i) (hkey : r'.entryKey = r.entryKey) (halive : t.Alive r)
    (hj : t.Entered j r') : s.Entered j r' := by
  induction es generalizing s with
  | nil =>
    obtain rfl := Option.some.inj ht
    exact hj
  | cons e es ih =>
    obtain ⟨u, hu, ht⟩ := Runs.run_cons_iff.mp ht
    have hi' := Entered.step h hu hi
    have hj' := ih (h.step hu) ht hi'
    exact entered_of_alive h hu hi hij hkey (hi'.alive_of_run (h.step hu) ht halive) hj'

end Executions

section Results
variable [LinearOrder T] [Add T] [NatCast T] {s₀ s : Executions T O}

/-- In every run of any number of calls over one store: from the entry of an executor until its
reservation expires, no other call of the key enters its executor, and the store keeps the
reservation; and every call settles its reservation once, completes it exactly when its executor
was entered, and enters after admission only. -/
theorem executeTool_safe {options : ToolStoreOptions} {clock : T}
    (hstart : Executions.start options clock = .ok s₀) {es : List (Event T O)}
    (hs : Runs.run Executions.step s₀ es = some s) :
    (∀ fs t i j r r', Runs.run Executions.step s fs = some t → s.Entered i r → j ≠ i →
      r'.entryKey = r.entryKey → t.Alive r → t.Entered j r' → s.Entered j r') ∧
    (∀ e t i r entry, s.step e = some t → s.Entered i r →
      s.store.entries.get (storageKey r.entryKey) = some entry → entry.reservation = r.value →
      entry.expiresAt ≤ t.clock ∨
        ∃ entry', t.store.entries.get (storageKey r.entryKey) = some entry' ∧
          entry'.reservation = r.value) ∧
    ∀ c ∈ s.calls, c.Safe := by
  have hinit : s₀.Consistent := by
    unfold Executions.start at hstart
    cases hcreate : (ToolStore.create options : Except JSError (ToolStore T)) with
    | error _ =>
      rw [hcreate] at hstart
      cases hstart
    | ok store =>
      rw [hcreate] at hstart
      rw [← Except.ok.inj hstart]
      exact .init store clock
  have h := hinit.run hs
  refine ⟨?_, ?_, fun c hc => (h.sound c hc).safe⟩
  · intro fs t i j r r' ht hi hij hkey halive hj
    exact Executions.entered_of_run h ht hi hij hkey halive hj
  · intro e t i r entry ht hi hentry hvalue
    exact Executions.kept_of_step h ht hi hentry hvalue

end Results

def payTool : ToolContract :=
  ⟨js "tool.execute.pay", .none, some ⟨.request, none⟩, false, none⟩

def payOptions : CallOptions := ⟨some [js "tool.execute.pay"], none, false, true, none, false, false⟩

/-- Two calls with one key: the second asks while the executor of the first runs. -/
def payRun : List (Event ℕ ℕ) :=
  [.call payTool payOptions (.ok ()), .call payTool payOptions (.ok ()),
    .answer 0 (.input (.ok none)), .answer 1 (.input (.ok none)),
    .answer 0 (.key (.ok (js "order-7"))), .begin 0 (js "r1") 5 5, .resume (.ok true),
    .answer 1 (.key (.ok (js "order-7"))), .begin 1 (js "r2") 6 7, .resume (.ok true),
    .renew 0 8 8, .answer 0 (.execute (.ok ())), .answer 0 (.output (.ok (.ok 7))),
    .complete 0 9 9, .answer 0 .settle, .answer 0 (.finish true), .answer 1 (.finish true)]

theorem executeTool_safe_payRun :
    ∃ s₀ s : Executions ℕ ℕ, Executions.start ⟨none, none⟩ 0 = .ok s₀ ∧
      Runs.run Executions.step s₀ payRun = some s ∧ s.calls.map Call.executed = [true, false] ∧
      ∀ c ∈ s.calls, c.Safe := by
  have hstart : (Executions.start ⟨none, none⟩ 0 : Except JSError (Executions ℕ ℕ)) =
      .ok (.init ⟨∅, 10000, 86400000⟩ 0) := rfl
  have hrun : (Runs.run Executions.step (.init ⟨∅, 10000, 86400000⟩ 0) payRun).map
      (fun s => s.calls.map Call.executed) = some [true, false] := by
    decide +kernel
  obtain ⟨s, hs, hexecuted⟩ := Option.map_eq_some_iff.mp hrun
  exact ⟨_, s, hstart, hs, hexecuted, (executeTool_safe hstart hs).2.2⟩

end Nifra.Tools
