import Nifra.Lib.InsertionMap
import Nifra.Lib.Runs
import Nifra.Text.JSString

/-! # Admission of hole work

`HoleAdmission` and the slots of its responses as a machine. A signal aborts at any moment and calls
its watchers at once; a grace timer fires at any moment until it is cleared; a loader settles at any
moment, or never.
-/

namespace Nifra.Ppr

structure AdmissionOptions where
  boundaryAbandonedTrip : ℕ
  processAbandonedTrip : ℕ
  admissionStop : ℕ
  abandonGraceMs : ℤ
  maxHoleWork : ℕ
  boundaryAbandonedTrip_pos : 1 ≤ boundaryAbandonedTrip

inductive DenialLevel
  | stop
  | process
  | boundary
  deriving DecidableEq, Repr

inductive HoleRun (T E : Type)
  | ok (value : T)
  | denied
  | failed (error : E)
  | aborted (error : Option E)
  deriving DecidableEq, Repr

/-- The counters; `late` holds the calls of `onLateSettle`. -/
structure HoleAdmission where
  pendingBy : InsertionMap JSString ℤ
  abandonedBy : InsertionMap JSString ℤ
  denied : DenialLevel → ℕ
  pending : ℤ
  abandoned : ℤ
  slotsInUse : ℤ
  shed : ℕ
  late : List (JSString × ℤ)

structure HoleSlot where
  outstanding : ℤ
  sealed : Bool
  released : Bool
  releases : ℕ
  deriving DecidableEq, Repr

/-- A call of `run`, with the results its promise was resolved with. One that never began counts as
settled. -/
structure Call (T E : Type) where
  slot : ℕ
  key : JSString
  signal : ℕ
  answered : Bool := false
  results : List (HoleRun T E) := []
  abortedAt : Option ℤ := none
  timer : Bool := false
  abandoned : Bool := false
  settled : Bool := false
  done : Bool := false
  deriving DecidableEq, Repr

structure State (T E : Type) where
  admission : HoleAdmission
  slots : List HoleSlot
  calls : List (Call T E)
  aborted : InsertionMap ℕ E

inductive Event (T E : Type)
  | slot
  | run (slot : ℕ) (key : JSString) (signal : ℕ)
  | abort (signal : ℕ) (reason : E) (now : ℤ)
  | fire (call : ℕ)
  | settle (call : ℕ) (outcome : Except E T) (now : ℤ)
  | sealSlot (slot : ℕ)

variable {T E : Type}

def bump (counts : InsertionMap JSString ℤ) (key : JSString) (by_ : ℤ) : InsertionMap JSString ℤ :=
  counts.set key ((counts.get key).getD 0 + by_)

def HoleAdmission.denial (a : HoleAdmission) (o : AdmissionOptions) (key : JSString) :
    Option DenialLevel :=
  let mine := (a.abandonedBy.get key).getD 0
  if o.admissionStop ≤ a.abandoned then some .stop
  else if o.processAbandonedTrip ≤ a.abandoned ∧ 0 < mine then some .process
  else if o.boundaryAbandonedTrip ≤ mine then some .boundary
  else none

def HoleAdmission.countDenied (a : HoleAdmission) (level : DenialLevel) : HoleAdmission :=
  { a with denied := Function.update a.denied level (a.denied level + 1) }

def Call.answer (c : Call T E) (run : HoleRun T E) : Call T E :=
  if c.answered then c else { c with answered := true, results := c.results ++ [run] }

def Call.onAbort (c : Call T E) (reason : E) (now : ℤ) : Call T E :=
  { c with abortedAt := some now, timer := true }.answer (.aborted (some reason))

namespace State

variable (s : State T E)

def maybeRelease (i : ℕ) : State T E :=
  match s.slots[i]? with
  | none => s
  | some slot =>
    if slot.released ∨ ¬slot.sealed ∨ 0 < slot.outstanding then s
    else { s with
      slots := s.slots.modify i fun slot =>
        { slot with released := true, releases := slot.releases + 1 }
      admission := { s.admission with slotsInUse := s.admission.slotsInUse - 1 } }

def onDone (n : ℕ) : State T E :=
  match s.calls[n]? with
  | none => s
  | some c =>
    if c.done then s
    else
      { s with
        calls := s.calls.modify n fun c => { c with done := true }
        slots := s.slots.modify c.slot fun slot =>
          { slot with outstanding := slot.outstanding - 1 } }.maybeRelease c.slot

def takeSlot (o : AdmissionOptions) : State T E :=
  if o.maxHoleWork ≤ s.admission.slotsInUse then
    { s with admission := { s.admission with shed := s.admission.shed + 1 } }
  else { s with
    slots := s.slots ++ [⟨0, false, false, 0⟩]
    admission := { s.admission with slotsInUse := s.admission.slotsInUse + 1 } }

def end_ (i : ℕ) (key : JSString) (signal : ℕ) (run : HoleRun T E) : State T E :=
  { s with calls := s.calls ++ [{
    slot := i, key := key, signal := signal, answered := true, results := [run], settled := true,
    done := true }] }

def invoke (i : ℕ) (key : JSString) (signal : ℕ) : State T E :=
  { s with
    slots := s.slots.modify i fun slot => { slot with outstanding := slot.outstanding + 1 }
    calls := s.calls ++ [{ slot := i, key := key, signal := signal }]
    admission := { s.admission with
      pending := s.admission.pending + 1
      pendingBy := bump s.admission.pendingBy key 1 } }

def runHole (o : AdmissionOptions) (i : ℕ) (key : JSString) (signal : ℕ) : State T E :=
  if s.aborted.has signal then s.end_ i key signal (.aborted none)
  else
    match s.admission.denial o key with
    | some level =>
      { s with admission := s.admission.countDenied level }.end_ i key signal .denied
    | none => s.invoke i key signal

/-- The abort of a signal: each call that watches it is answered and starts its timer. A call stops
watching when it settles. -/
def abort (signal : ℕ) (reason : E) (now : ℤ) : State T E :=
  if s.aborted.has signal then s
  else { s with
    aborted := s.aborted.set signal reason
    calls := s.calls.map fun c =>
      if c.signal = signal ∧ c.settled = false then c.onAbort reason now else c }

def fire (n : ℕ) (c : Call T E) : State T E :=
  { s with
    calls := s.calls.modify n fun c => { c with timer := false, abandoned := true }
    admission := { s.admission with
      abandoned := s.admission.abandoned + 1
      abandonedBy := bump s.admission.abandonedBy c.key 1 } }.onDone n

/-- `settle`, up to its `onDone`. -/
def unwind (o : AdmissionOptions) (n : ℕ) (c : Call T E) (now : ℤ) : State T E :=
  { s with
    calls := s.calls.modify n fun c => { c with timer := false, settled := true }
    admission := { s.admission with
      pending := s.admission.pending - 1
      pendingBy := bump s.admission.pendingBy c.key (-1)
      abandoned := s.admission.abandoned - if c.abandoned then 1 else 0
      abandonedBy :=
        if c.abandoned then bump s.admission.abandonedBy c.key (-1) else s.admission.abandonedBy
      late := s.admission.late ++ match c.abortedAt with
        | some at_ => if o.abandonGraceMs < now - at_ then [(c.key, now - at_)] else []
        | none => [] } }

def resultOf (c : Call T E) : Except E T → HoleRun T E
  | .ok value => .ok value
  | .error error => if s.aborted.has c.signal then .aborted (some error) else .failed error

def settle (o : AdmissionOptions) (n : ℕ) (c : Call T E) (outcome : Except E T) (now : ℤ) :
    State T E :=
  let t := (s.unwind o n c now).onDone n
  { t with calls := t.calls.modify n fun d => d.answer (s.resultOf c outcome) }

def sealSlot (i : ℕ) : State T E :=
  { s with slots := s.slots.modify i fun slot => { slot with sealed := true } }.maybeRelease i

end State

def step (o : AdmissionOptions) (s : State T E) : Event T E → Option (State T E)
  | .slot => some (s.takeSlot o)
  | .run i key signal => s.slots[i]?.map fun slot =>
      if slot.sealed then s else s.runHole o i key signal
  | .abort signal reason now => some (s.abort signal reason now)
  | .fire n => s.calls[n]?.bind fun c => if c.timer then some (s.fire n c) else none
  | .settle n outcome now => s.calls[n]?.bind fun c =>
      if c.settled then none else some (s.settle o n c outcome now)
  | .sealSlot i => s.slots[i]?.map fun _ => s.sealSlot i

def State.init : State T E :=
  ⟨⟨∅, ∅, fun _ => 0, 0, 0, 0, 0, []⟩, [], [], ∅⟩

section Tally

variable {counts : InsertionMap JSString ℤ} {key : JSString} {d total : ℤ}
  {calls : List (Call T E)} {p : Call T E → Bool} {c : Call T E} {f : Call T E → Call T E} {n : ℕ}

theorem getD_get_bump (counts : InsertionMap JSString ℤ) (key other : JSString) (d : ℤ) :
    ((bump counts key d).get other).getD 0 =
      (counts.get other).getD 0 + if other = key then d else 0 := by
  rw [bump, InsertionMap.get_set]
  split_ifs with h
  · rw [h, Option.getD_some]
  · rw [add_zero]

theorem sum_values_bump (counts : InsertionMap JSString ℤ) (key : JSString) (d : ℤ) :
    (bump counts key d).values.sum = counts.values.sum + d := by
  rw [bump, InsertionMap.sum_values_set]
  cases h : counts.get key with
  | none => rw [InsertionMap.values, InsertionMap.entries_delete_of_get_none h, Option.getD_none,
      zero_add, InsertionMap.values]
  | some n => rw [← InsertionMap.sum_values_delete h, Option.getD_some, add_assoc]

structure Tally (total : ℤ) (counts : InsertionMap JSString ℤ) (calls : List (Call T E))
    (p : Call T E → Bool) : Prop where
  all : total = calls.countP p
  each : ∀ key, (counts.get key).getD 0 = calls.countP fun c => p c && decide (c.key = key)
  sum : counts.values.sum = total

theorem Tally.modify (h : Tally total counts calls p) (hc : calls[n]? = some c)
    (hkey : (f c).key = c.key) (hd : d = (p (f c)).toNat - (p c).toNat) :
    Tally (total + d) (bump counts c.key d) (calls.modify n f) p := by
  constructor
  · have hcount := Runs.countP_modify hc f p
    rw [h.all, hd]
    omega
  · intro key
    have hcount := Runs.countP_modify hc f fun c => p c && decide (c.key = key)
    rw [getD_get_bump, h.each, hd]
    simp only [hkey] at hcount
    by_cases hk : c.key = key
    · simp only [hk, decide_true, Bool.and_true, if_true] at hcount ⊢
      omega
    · simp only [hk, decide_false, Bool.and_false, Bool.toNat_false, if_neg (Ne.symm hk)] at hcount ⊢
      omega
  · rw [sum_values_bump, h.sum]

theorem Tally.modify_same (h : Tally total counts calls p) (hc : calls[n]? = some c)
    (hkey : (f c).key = c.key) (hp : p (f c) = p c) : Tally total counts (calls.modify n f) p := by
  constructor
  · have hcount := Runs.countP_modify hc f p
    rw [hp] at hcount
    rw [h.all]
    omega
  · intro key
    have hcount := Runs.countP_modify hc f fun c => p c && decide (c.key = key)
    simp only [hkey, hp] at hcount
    rw [h.each]
    omega
  · exact h.sum

theorem Tally.concat (h : Tally total counts calls p) (hp : p c = true) :
    Tally (total + 1) (bump counts c.key 1) (calls ++ [c]) p := by
  constructor
  · simp [h.all, hp]
  · intro key
    rw [getD_get_bump, h.each]
    by_cases hk : c.key = key
    · simp [hp, hk]
    · simp [hk, Ne.symm hk]
  · rw [sum_values_bump, h.sum]

theorem Tally.concat_not (h : Tally total counts calls p) (hp : p c = false) :
    Tally total counts (calls ++ [c]) p :=
  ⟨by simp [h.all, hp], fun key => by simp [h.each, hp], h.sum⟩

theorem Tally.map (h : Tally total counts calls p) (hkey : ∀ c, (f c).key = c.key)
    (hp : ∀ c, p (f c) = p c) : Tally total counts (calls.map f) p := by
  constructor
  · rw [h.all, List.countP_map]
    simp only [Function.comp_def, hp]
  · intro key
    rw [h.each, List.countP_map]
    simp only [Function.comp_def, hp, hkey]
  · exact h.sum

end Tally

def Call.pending (c : Call T E) : Bool := !c.settled

def Call.stuck (c : Call T E) : Bool := c.abandoned && !c.settled

def Call.holds (i : ℕ) (c : Call T E) : Bool := decide (c.slot = i) && !c.done

structure SlotSound (calls : List (Call T E)) (due : Option ℕ) (i : ℕ) (slot : HoleSlot) : Prop where
  outstanding : slot.outstanding = calls.countP (Call.holds i)
  releases : slot.releases = slot.released.toNat
  settled : slot.released = true → slot.sealed = true ∧ slot.outstanding = 0
  released : due ≠ some i → slot.sealed = true → slot.outstanding = 0 → slot.released = true

structure Books (o : AdmissionOptions) (s : State T E) (due : Option ℕ) : Prop where
  slot_lt : ∀ c ∈ s.calls, c.slot < s.slots.length
  slot : ∀ i slot, s.slots[i]? = some slot → SlotSound s.calls due i slot
  slotsInUse : s.admission.slotsInUse = s.slots.countP (!·.released)
  bounded : s.admission.slotsInUse ≤ o.maxHoleWork

section Books

variable {o : AdmissionOptions} {s : State T E} {i n : ℕ} {c : Call T E} {slot : HoleSlot}

theorem countP_released {slots : List HoleSlot} {f : HoleSlot → HoleSlot}
    (hf : ∀ slot, (f slot).released = slot.released) (i : ℕ) {count : ℤ}
    (h : count = slots.countP (!·.released)) : count = (slots.modify i f).countP (!·.released) := by
  rw [h, Runs.countP_modify_same fun slot => by rw [hf]]

theorem Books.congr {due : Option ℕ} {t : State T E} (h : Books o s due) (hslots : t.slots = s.slots)
    (huse : t.admission.slotsInUse = s.admission.slotsInUse)
    (hslot : ∀ c ∈ t.calls, c.slot < s.slots.length)
    (hholds : ∀ i, t.calls.countP (Call.holds i) = s.calls.countP (Call.holds i)) :
    Books o t due := by
  constructor
  · rwa [hslots]
  · intro i slot hi
    rw [hslots] at hi
    have hsound := h.slot i slot hi
    exact { hsound with outstanding := by rw [hholds, hsound.outstanding] }
  · rw [huse, hslots, h.slotsInUse]
  · rw [huse]
    exact h.bounded

theorem Books.modify {due : Option ℕ} {f : Call T E → Call T E} {a : HoleAdmission}
    (h : Books o s due) (huse : a.slotsInUse = s.admission.slotsInUse)
    (hslot : ∀ c, (f c).slot = c.slot) (hdone : ∀ c, (f c).done = c.done) :
    Books o { s with calls := s.calls.modify n f, admission := a } due := by
  refine h.congr rfl huse ?_ ?_
  · exact Runs.forall_mem_modify h.slot_lt fun c hc => by
      rw [hslot]
      exact h.slot_lt c (List.mem_of_getElem? hc)
  · intro i
    exact Runs.countP_modify_same fun c => by rw [Call.holds, hslot, hdone, Call.holds]

theorem Books.maybeRelease (h : Books o s (some i)) : Books o (s.maybeRelease i) none := by
  rw [State.maybeRelease]
  cases hi : s.slots[i]? with
  | none =>
    refine { h with slot := fun j slot hj => { h.slot j slot hj with released := fun _ => ?_ } }
    apply (h.slot j slot hj).released
    rintro ⟨⟩
    rw [hi] at hj
    cases hj
  | some slot =>
    have hsound := h.slot i slot hi
    have hcount := hsound.outstanding
    dsimp only
    split_ifs with hstay
    · refine { h with slot := fun j other hj => { h.slot j other hj with released := fun _ => ?_ } }
      by_cases hji : j = i
      · subst hji
        obtain rfl := Option.some.inj (hi.symm.trans hj)
        intro hsealed hzero
        rcases hstay with hreleased | hopen | hpos
        · exact hreleased
        · exact absurd hsealed hopen
        · omega
      · exact (h.slot j other hj).released (by simpa using Ne.symm hji)
    · rw [not_or, not_or, not_not, Bool.not_eq_true] at hstay
      obtain ⟨hopen, hsealed, hzero⟩ := hstay
      have huse := Runs.countP_modify hi
        (fun slot => { slot with released := true, releases := slot.releases + 1 }) (!·.released)
      rw [hopen] at huse
      simp only [Bool.not_false, Bool.not_true, Bool.toNat_true, Bool.toNat_false] at huse
      constructor
      · simpa using h.slot_lt
      · intro j other hj
        rcases Runs.getElem?_modify_cases hj with ⟨rfl, old, hold, rfl⟩ | ⟨hne, hother⟩
        · obtain rfl := Option.some.inj (hi.symm.trans hold)
          refine ⟨hcount, ?_, fun _ => ⟨hsealed, ?_⟩, fun _ _ _ => rfl⟩
          · rw [hsound.releases, hopen]
            rfl
          · dsimp only
            omega
        · refine { h.slot j other hother with released := fun _ => ?_ }
          exact (h.slot j other hother).released (by simpa using Ne.symm hne)
      · have := h.slotsInUse
        dsimp only
        omega
      · have := h.bounded
        dsimp only
        omega

theorem Books.onDone (h : Books o s none) (n : ℕ) : Books o (s.onDone n) none := by
  rw [State.onDone]
  cases hc : s.calls[n]? with
  | none => exact h
  | some c =>
    dsimp only
    split_ifs with hdone
    · exact h
    · apply Books.maybeRelease
      rw [Bool.not_eq_true] at hdone
      constructor
      · rw [List.length_modify]
        exact Runs.forall_mem_modify h.slot_lt fun c hc => h.slot_lt c (List.mem_of_getElem? hc)
      · intro j slot hj
        have hcount := Runs.countP_modify hc (fun c => { c with done := true }) (Call.holds j)
        rcases Runs.getElem?_modify_cases hj with ⟨rfl, old, hold, rfl⟩ | ⟨hne, hother⟩
        · have hsound := h.slot _ old hold
          simp only [Call.holds, hdone, decide_true, Bool.not_false, Bool.and_self, Bool.not_true,
            Bool.and_false, Bool.toNat_true, Bool.toNat_false] at hcount
          have hout := hsound.outstanding
          refine ⟨?_, hsound.releases, fun hreleased => ?_, fun hdue => absurd rfl hdue⟩
          · dsimp only
            omega
          · have hzero := (hsound.settled hreleased).2
            omega
        · have hsound := h.slot j slot hother
          refine ⟨?_, hsound.releases, hsound.settled, fun _ => hsound.released nofun⟩
          have hout := hsound.outstanding
          simp only [Call.holds, Ne.symm hne, decide_false, Bool.false_and] at hcount
          dsimp only
          omega
      · apply countP_released _ _ h.slotsInUse
        exact fun _ => rfl
      · exact h.bounded

theorem Books.sealSlot (h : Books o s none) (i : ℕ) : Books o (s.sealSlot i) none := by
  rw [State.sealSlot]
  apply Books.maybeRelease
  constructor
  · simpa using h.slot_lt
  · intro j slot hj
    rcases Runs.getElem?_modify_cases hj with ⟨rfl, old, hold, rfl⟩ | ⟨hne, hother⟩
    · have hsound := h.slot _ old hold
      exact ⟨hsound.outstanding, hsound.releases, fun hr => ⟨rfl, (hsound.settled hr).2⟩,
        fun hdue => absurd rfl hdue⟩
    · have hsound := h.slot j slot hother
      exact { hsound with released := fun _ => hsound.released nofun }
  · apply countP_released _ _ h.slotsInUse
    exact fun _ => rfl
  · exact h.bounded

theorem Books.takeSlot (h : Books o s none) : Books o (s.takeSlot o) none := by
  rw [State.takeSlot]
  split_ifs with hfull
  · exact { h with }
  · have hnone : s.calls.countP (Call.holds s.slots.length) = 0 := by
      rw [List.countP_eq_zero]
      intro c hc
      have hlt := h.slot_lt c hc
      simp [Call.holds, hlt.ne]
    constructor
    · intro c hc
      have hlt := h.slot_lt c hc
      rw [List.length_append]
      exact hlt.trans (Nat.lt_succ_self _)
    · intro j slot hj
      rw [List.getElem?_append] at hj
      split_ifs at hj with hlt
      · exact h.slot j slot hj
      · obtain ⟨hzero, rfl⟩ : j - s.slots.length = 0 ∧ slot = ⟨0, false, false, 0⟩ := by
          cases hj' : j - s.slots.length with
          | zero => exact ⟨rfl, by simpa [hj'] using hj.symm⟩
          | succ k => simp [hj'] at hj
        obtain rfl : j = s.slots.length := by omega
        exact ⟨by simp [hnone], rfl, nofun, nofun⟩
    · have := h.slotsInUse
      simp [this]
    · dsimp only
      omega

theorem Books.invoke (h : Books o s none) (hi : s.slots[i]? = some slot) (hopen : slot.sealed = false)
    (key : JSString) (signal : ℕ) : Books o (s.invoke i key signal) none := by
  have hlt := (List.getElem?_eq_some_iff.mp hi).1
  rw [State.invoke]
  constructor
  · intro c hc
    rw [List.length_modify]
    rcases List.mem_append.mp hc with hc | hc
    · exact h.slot_lt c hc
    · rw [List.mem_singleton.mp hc]
      exact hlt
  · intro j other hj
    rcases Runs.getElem?_modify_cases hj with ⟨rfl, old, hold, rfl⟩ | ⟨hne, hother⟩
    · obtain rfl := Option.some.inj (hi.symm.trans hold)
      have hsound := h.slot _ slot hi
      refine ⟨?_, hsound.releases, fun hr => ?_, fun _ hsealed => ?_⟩
      · simp [hsound.outstanding, Call.holds]
      · exact absurd (hsound.settled hr).1 (by simp [hopen])
      · exact absurd hsealed (by simp [hopen])
    · have hsound := h.slot j other hother
      refine { hsound with outstanding := ?_ }
      simp [hsound.outstanding, Call.holds, Ne.symm hne]
  · apply countP_released _ _ h.slotsInUse
    exact fun _ => rfl
  · exact h.bounded

theorem Books.end_ (h : Books o s none) (hi : s.slots[i]? = some slot) (key : JSString) (signal : ℕ)
    (run : HoleRun T E) : Books o (s.end_ i key signal run) none := by
  refine h.congr rfl rfl ?_ ?_
  · intro c hc
    rcases List.mem_append.mp hc with hc | hc
    · exact h.slot_lt c hc
    · rw [List.mem_singleton.mp hc]
      exact (List.getElem?_eq_some_iff.mp hi).1
  · intro j
    simp [State.end_, Call.holds]

end Books

structure CallSound (aborted : InsertionMap ℕ E) (c : Call T E) : Prop where
  done : c.done = (c.settled || c.abandoned)
  timer : c.timer = true → c.settled = false ∧ c.abandoned = false ∧ aborted.has c.signal = true
  stuck : c.abandoned = true → aborted.has c.signal = true
  answered : c.answered = (c.settled || aborted.has c.signal)
  results : c.results.length = c.answered.toNat

structure Sound (o : AdmissionOptions) (s : State T E) : Prop where
  books : Books o s none
  pending : Tally s.admission.pending s.admission.pendingBy s.calls Call.pending
  abandoned : Tally s.admission.abandoned s.admission.abandonedBy s.calls Call.stuck
  call : ∀ c ∈ s.calls, CallSound s.aborted c

/-- A call after a step: what it is about, and a result that it has, stay. -/
structure Call.Kept (c d : Call T E) : Prop where
  slot : d.slot = c.slot
  key : d.key = c.key
  signal : d.signal = c.signal
  results : c.answered = true → d.answered = true ∧ d.results = c.results

theorem Call.Kept.refl (c : Call T E) : c.Kept c := ⟨rfl, rfl, rfl, fun h => ⟨h, rfl⟩⟩

theorem Call.answer_eq (c : Call T E) (run : HoleRun T E) : c.answer run =
    { c with answered := true, results := if c.answered then c.results else c.results ++ [run] } := by
  rw [Call.answer]
  split_ifs with h
  · rw [← h]
  · rfl

section Steps

variable {o : AdmissionOptions} {s : State T E} {i n : ℕ} {c : Call T E} {slot : HoleSlot}

structure State.Alike (s t : State T E) : Prop where
  aborted : t.aborted = s.aborted
  pending : t.admission.pending = s.admission.pending
  pendingBy : t.admission.pendingBy = s.admission.pendingBy
  abandoned : t.admission.abandoned = s.admission.abandoned
  abandonedBy : t.admission.abandonedBy = s.admission.abandonedBy

theorem alike_maybeRelease (s : State T E) (i : ℕ) : s.Alike (s.maybeRelease i) := by
  rw [State.maybeRelease]
  split
  · exact ⟨rfl, rfl, rfl, rfl, rfl⟩
  · split_ifs <;> exact ⟨rfl, rfl, rfl, rfl, rfl⟩

@[simp] theorem calls_maybeRelease (s : State T E) (i : ℕ) : (s.maybeRelease i).calls = s.calls := by
  rw [State.maybeRelease]
  split
  · rfl
  · split_ifs <;> rfl

theorem alike_onDone (s : State T E) (n : ℕ) : s.Alike (s.onDone n) := by
  rw [State.onDone]
  split
  · exact ⟨rfl, rfl, rfl, rfl, rfl⟩
  · split_ifs
    · exact ⟨rfl, rfl, rfl, rfl, rfl⟩
    · obtain ⟨h₁, h₂, h₃, h₄, h₅⟩ := alike_maybeRelease { s with
        calls := s.calls.modify n fun c => { c with done := true }
        slots := s.slots.modify _ fun slot =>
          { slot with outstanding := slot.outstanding - 1 } } _
      exact ⟨h₁, h₂, h₃, h₄, h₅⟩

theorem calls_onDone (s : State T E) (n : ℕ) :
    (s.onDone n).calls = s.calls.modify n fun c => { c with done := true } := by
  rw [State.onDone]
  cases hc : s.calls[n]? with
  | none => rw [List.modify_eq_self (List.getElem?_eq_none_iff.mp hc)]
  | some c =>
    dsimp only
    split_ifs with hdone
    · apply List.ext_getElem?
      intro j
      rw [List.getElem?_modify]
      split_ifs with hj
      · subst hj
        rw [hc, Option.map_eq_map, Option.map_some, ← hdone]
      · simp
    · simp

theorem calls_fire (s : State T E) (n : ℕ) (c : Call T E) : (s.fire n c).calls =
    s.calls.modify n fun c => { c with timer := false, abandoned := true, done := true } := by
  rw [State.fire, calls_onDone, List.modify_modify_eq]
  rfl

theorem calls_settle (o : AdmissionOptions) (s : State T E) (n : ℕ) (c : Call T E)
    (outcome : Except E T) (now : ℤ) :
    (s.settle o n c outcome now).calls = s.calls.modify n fun d =>
      { d with
        timer := false, settled := true, done := true, answered := true
        results := if d.answered then d.results else d.results ++ [s.resultOf c outcome] } := by
  simp only [State.settle, calls_onDone, State.unwind, List.modify_modify_eq, Function.comp_def,
    Call.answer_eq]

theorem Sound.fire (h : Sound o s) (hc : s.calls[n]? = some c) (htimer : c.timer = true) :
    Sound o (s.fire n c) := by
  have hsound := h.call c (List.mem_of_getElem? hc)
  obtain ⟨hsettled, habandoned, haborted⟩ := hsound.timer htimer
  have halike := alike_onDone { s with
    calls := s.calls.modify n fun c => { c with timer := false, abandoned := true }
    admission := { s.admission with
      abandoned := s.admission.abandoned + 1
      abandonedBy := bump s.admission.abandonedBy c.key 1 } } n
  constructor
  · apply Books.onDone
    apply Books.modify h.books
    · rfl
    · exact fun _ => rfl
    · exact fun _ => rfl
  · rw [calls_fire, State.fire, halike.pending, halike.pendingBy]
    exact h.pending.modify_same hc rfl rfl
  · rw [calls_fire, State.fire, halike.abandoned, halike.abandonedBy]
    exact h.abandoned.modify hc rfl (by simp [Call.stuck, hsettled, habandoned])
  · rw [calls_fire, State.fire, halike.aborted]
    apply Runs.forall_mem_modify h.call
    intro d hd
    obtain rfl := Option.some.inj (hc.symm.trans hd)
    exact ⟨by simp, nofun, fun _ => haborted, hsound.answered, hsound.results⟩

theorem Sound.settle (h : Sound o s) (hc : s.calls[n]? = some c) (hopen : c.settled = false)
    (outcome : Except E T) (now : ℤ) : Sound o (s.settle o n c outcome now) := by
  have hsound := h.call c (List.mem_of_getElem? hc)
  have halike := alike_onDone (s.unwind o n c now) n
  have hcalls := calls_settle o s n c outcome now
  constructor
  · have hunwound : Books o (s.unwind o n c now) none := by
      apply Books.modify h.books
      · rfl
      · exact fun _ => rfl
      · exact fun _ => rfl
    apply Books.modify (hunwound.onDone n)
    · rfl
    · exact fun c => by rw [Call.answer_eq]
    · exact fun c => by rw [Call.answer_eq]
  · rw [hcalls, State.settle]
    dsimp only
    rw [halike.pending, halike.pendingBy, State.unwind]
    dsimp only
    rw [sub_eq_add_neg]
    exact h.pending.modify hc rfl (by simp [Call.pending, hopen])
  · rw [hcalls, State.settle]
    dsimp only
    rw [halike.abandoned, halike.abandonedBy, State.unwind]
    dsimp only
    cases habandoned : c.abandoned with
    | true =>
      rw [if_pos rfl, if_pos rfl, sub_eq_add_neg]
      exact h.abandoned.modify hc rfl (by simp [Call.stuck, hopen, habandoned])
    | false =>
      rw [if_neg Bool.false_ne_true, if_neg Bool.false_ne_true, sub_zero]
      exact h.abandoned.modify_same hc rfl (by simp [Call.stuck, habandoned])
  · rw [hcalls, State.settle]
    dsimp only
    rw [halike.aborted]
    apply Runs.forall_mem_modify h.call
    intro d hd
    obtain rfl := Option.some.inj (hc.symm.trans hd)
    refine ⟨by simp, nofun, hsound.stuck, by simp, ?_⟩
    have hresults := hsound.results
    cases hanswered : c.answered <;> simp_all

theorem has_set_aborted (aborted : InsertionMap ℕ E) (signal other : ℕ) (reason : E) :
    (aborted.set signal reason).has other = (decide (other = signal) || aborted.has other) := by
  rw [InsertionMap.has, InsertionMap.get_set]
  split_ifs with h <;> simp [h, InsertionMap.has]

theorem Sound.abort (h : Sound o s) (signal : ℕ) (reason : E) (now : ℤ) :
    Sound o (s.abort signal reason now) := by
  rw [State.abort]
  split_ifs with haborted
  · exact h
  · constructor
    · refine h.books.congr rfl rfl ?_ ?_
      · intro c hc
        obtain ⟨d, hd, rfl⟩ := List.mem_map.mp hc
        split_ifs
        · rw [Call.onAbort, Call.answer_eq]
          exact h.books.slot_lt d hd
        · exact h.books.slot_lt d hd
      · intro i
        rw [List.countP_map]
        congr 1
        funext c
        rw [Function.comp_apply]
        split_ifs
        · rw [Call.onAbort, Call.answer_eq, Call.holds, Call.holds]
        · rfl
    · apply h.pending.map
      · intro c
        split_ifs
        · rw [Call.onAbort, Call.answer_eq]
        · rfl
      · intro c
        split_ifs
        · rw [Call.onAbort, Call.answer_eq, Call.pending, Call.pending]
        · rfl
    · apply h.abandoned.map
      · intro c
        split_ifs
        · rw [Call.onAbort, Call.answer_eq]
        · rfl
      · intro c
        split_ifs
        · rw [Call.onAbort, Call.answer_eq, Call.stuck, Call.stuck]
        · rfl
    · intro c hc
      obtain ⟨d, hd, rfl⟩ := List.mem_map.mp hc
      have hsound := h.call d hd
      rw [Bool.not_eq_true] at haborted
      split_ifs with hwatches
      · obtain ⟨rfl, hopen⟩ := hwatches
        have hfree : d.abandoned = false := by
          cases hd : d.abandoned with
          | false => rfl
          | true => rw [hsound.stuck hd] at haborted; cases haborted
        have hanswered := hsound.answered
        have hresults := hsound.results
        rw [hopen, haborted, Bool.or_false] at hanswered
        rw [hanswered] at hresults
        rw [Call.onAbort, Call.answer_eq]
        exact ⟨hsound.done, fun _ => ⟨hopen, hfree, by simp [has_set_aborted]⟩,
          fun _ => by simp [has_set_aborted], by simp [has_set_aborted],
          by simpa [hanswered] using hresults⟩
      · refine ⟨hsound.done, fun ht => ?_, fun hs => ?_, ?_, hsound.results⟩
        · obtain ⟨h₁, h₂, h₃⟩ := hsound.timer ht
          exact ⟨h₁, h₂, by simp [has_set_aborted, h₃]⟩
        · simp [has_set_aborted, hsound.stuck hs]
        · rw [has_set_aborted, hsound.answered]
          by_cases heq : d.signal = signal
          · have hsettled : d.settled = true := by simpa [heq] using hwatches
            simp [hsettled]
          · simp [heq]

theorem Sound.end_ (h : Sound o s) (hi : s.slots[i]? = some slot) (key : JSString) (signal : ℕ)
    (run : HoleRun T E) : Sound o (s.end_ i key signal run) := by
  refine ⟨h.books.end_ hi key signal run, h.pending.concat_not rfl, h.abandoned.concat_not rfl, ?_⟩
  intro c hc
  rcases List.mem_append.mp hc with hc | hc
  · exact h.call c hc
  · rw [List.mem_singleton.mp hc]
    exact ⟨rfl, nofun, nofun, rfl, rfl⟩

theorem Sound.runHole (h : Sound o s) (hi : s.slots[i]? = some slot) (hopen : slot.sealed = false)
    (key : JSString) (signal : ℕ) : Sound o (s.runHole o i key signal) := by
  rw [State.runHole]
  split_ifs with haborted
  · exact h.end_ hi key signal _
  · split
    · next level _ =>
      have hcounted : Sound o { s with admission := s.admission.countDenied level } :=
        ⟨⟨h.books.slot_lt, h.books.slot, h.books.slotsInUse, h.books.bounded⟩, h.pending,
          h.abandoned, h.call⟩
      exact hcounted.end_ hi key signal _
    · refine ⟨h.books.invoke hi hopen key signal, ?_, ?_, ?_⟩
      · exact Tally.concat (c := { slot := i, key := key, signal := signal }) h.pending rfl
      · exact Tally.concat_not h.abandoned rfl
      intro c hc
      rcases List.mem_append.mp hc with hc | hc
      · exact h.call c hc
      · rw [List.mem_singleton.mp hc]
        refine ⟨rfl, nofun, nofun, ?_, rfl⟩
        change false = (false || s.aborted.has signal)
        simpa using haborted

theorem Sound.step (h : Sound o s) {e : Event T E} {t : State T E} (ht : step o s e = some t) :
    Sound o t := by
  cases e with
  | slot =>
    obtain rfl := Option.some.inj ht
    have hbooks := h.books.takeSlot
    rw [State.takeSlot] at hbooks ⊢
    split_ifs at hbooks ⊢ <;> exact ⟨hbooks, h.pending, h.abandoned, h.call⟩
  | run i key signal =>
    obtain ⟨slot, hi, rfl⟩ := Option.map_eq_some_iff.mp ht
    split_ifs with hsealed
    · exact h
    · exact h.runHole hi (by simpa using hsealed) key signal
  | abort signal reason now =>
    obtain rfl := Option.some.inj ht
    exact h.abort signal reason now
  | fire n =>
    obtain ⟨c, hc, hfire⟩ := Option.bind_eq_some_iff.mp ht
    split_ifs at hfire with htimer
    exact Option.some.inj hfire ▸ h.fire hc htimer
  | settle n outcome now =>
    obtain ⟨c, hc, hsettle⟩ := Option.bind_eq_some_iff.mp ht
    split_ifs at hsettle with hopen
    exact Option.some.inj hsettle ▸ h.settle hc (by simpa using hopen) outcome now
  | sealSlot i =>
    obtain ⟨slot, hi, rfl⟩ := Option.map_eq_some_iff.mp ht
    have halike := alike_maybeRelease { s with
      slots := s.slots.modify i fun slot => { slot with sealed := true } } i
    refine ⟨h.books.sealSlot i, ?_, ?_, ?_⟩
    · rw [State.sealSlot, halike.pending, halike.pendingBy, calls_maybeRelease]
      exact h.pending
    · rw [State.sealSlot, halike.abandoned, halike.abandonedBy, calls_maybeRelease]
      exact h.abandoned
    · rw [State.sealSlot, halike.aborted, calls_maybeRelease]
      exact h.call

theorem sound_init (o : AdmissionOptions) : Sound o (State.init : State T E) := by
  refine ⟨⟨nofun, nofun, rfl, ?_⟩, ⟨rfl, fun _ => rfl, rfl⟩, ⟨rfl, fun _ => rfl, rfl⟩, nofun⟩
  exact Int.natCast_nonneg _

end Steps

section Kept

variable {o : AdmissionOptions} {s t : State T E}

/-- Every call of one list stands in the other, with the result that it had. -/
def AllKept (calls later : List (Call T E)) : Prop :=
  ∀ (n : ℕ) (c : Call T E), calls[n]? = some c → ∃ d, later[n]? = some d ∧ c.Kept d

theorem allKept_concat (calls : List (Call T E)) (c : Call T E) : AllKept calls (calls ++ [c]) := by
  intro n d hd
  have hlt := (List.getElem?_eq_some_iff.mp hd).1
  exact ⟨d, by rw [List.getElem?_append_left hlt, hd], .refl d⟩

theorem allKept_map {calls : List (Call T E)} {f : Call T E → Call T E} (hf : ∀ c : Call T E, c.Kept (f c)) :
    AllKept calls (calls.map f) := fun n c hc =>
  ⟨f c, by rw [List.getElem?_map, hc, Option.map_some], hf c⟩

theorem allKept_modify {calls : List (Call T E)} {f : Call T E → Call T E} (hf : ∀ c : Call T E, c.Kept (f c))
    (n : ℕ) : AllKept calls (calls.modify n f) := by
  intro m c hc
  rw [List.getElem?_modify, hc]
  split_ifs
  · exact ⟨f c, rfl, hf c⟩
  · exact ⟨c, rfl, .refl c⟩

theorem allKept_step {e : Event T E} (ht : step o s e = some t) : AllKept s.calls t.calls := by
  have hrefl : AllKept s.calls s.calls := fun n c hc => ⟨c, hc, .refl c⟩
  cases e with
  | slot =>
    obtain rfl := Option.some.inj ht
    rw [State.takeSlot]
    split_ifs <;> exact hrefl
  | run i key signal =>
    obtain ⟨slot, hi, rfl⟩ := Option.map_eq_some_iff.mp ht
    split_ifs
    · exact hrefl
    · rw [State.runHole]
      split_ifs
      · exact allKept_concat _ _
      · split <;> exact allKept_concat _ _
  | abort signal reason now =>
    obtain rfl := Option.some.inj ht
    rw [State.abort]
    split_ifs
    · exact hrefl
    · apply allKept_map
      intro c
      split_ifs
      · rw [Call.onAbort, Call.answer_eq]
        exact ⟨rfl, rfl, rfl, fun hc => ⟨rfl, if_pos hc⟩⟩
      · exact .refl c
  | fire n =>
    obtain ⟨c, hc, hfire⟩ := Option.bind_eq_some_iff.mp ht
    split_ifs at hfire
    rw [← Option.some.inj hfire, calls_fire]
    apply allKept_modify
    exact fun c => ⟨rfl, rfl, rfl, fun hc => ⟨hc, rfl⟩⟩
  | settle n outcome now =>
    obtain ⟨c, hc, hsettle⟩ := Option.bind_eq_some_iff.mp ht
    split_ifs at hsettle
    rw [← Option.some.inj hsettle, calls_settle]
    apply allKept_modify
    exact fun c => ⟨rfl, rfl, rfl, fun hc => ⟨rfl, if_pos hc⟩⟩
  | sealSlot i =>
    obtain ⟨slot, hi, rfl⟩ := Option.map_eq_some_iff.mp ht
    rw [State.sealSlot, calls_maybeRelease]
    exact hrefl

end Kept

section Accounts

variable {o : AdmissionOptions} {s : State T E}

theorem Sound.releases_eq (h : Sound o s) {i : ℕ} {slot : HoleSlot} (hi : s.slots[i]? = some slot) :
    slot.releases = if slot.sealed = true ∧ ∀ c ∈ s.calls, c.slot = i →
      c.settled = true ∨ c.abandoned = true then 1 else 0 := by
  have hsound := h.books.slot i slot hi
  have hzero : slot.outstanding = 0 ↔
      ∀ c ∈ s.calls, c.slot = i → c.settled = true ∨ c.abandoned = true := by
    rw [hsound.outstanding, Int.natCast_eq_zero, List.countP_eq_zero]
    apply forall₂_congr
    intro c hc
    simp only [Call.holds, (h.call c hc).done, Bool.and_eq_true, decide_eq_true_eq,
      Bool.not_eq_true', Bool.or_eq_false_iff, not_and]
    cases c.settled <;> simp
  have hreleased : (slot.sealed = true ∧ ∀ c ∈ s.calls, c.slot = i →
      c.settled = true ∨ c.abandoned = true) ↔ slot.released = true := by
    rw [← hzero]
    exact ⟨fun hover => hsound.released nofun hover.1 hover.2, hsound.settled⟩
  rw [hsound.releases]
  simp only [hreleased]
  cases slot.released <;> rfl

theorem Sound.denial (h : Sound o s) {key : JSString}
    (hkey : ∀ c ∈ s.calls, c.key = key → c.abandoned = true → c.settled = true) :
    s.admission.denial o key = if o.admissionStop ≤ s.admission.abandoned then some .stop else none := by
  have hmine : (s.admission.abandonedBy.get key).getD 0 = 0 := by
    rw [h.abandoned.each, Int.natCast_eq_zero, List.countP_eq_zero]
    intro c hc hstuck
    simp only [Call.stuck, Bool.and_eq_true, Bool.not_eq_true', decide_eq_true_eq] at hstuck
    rw [hkey c hc hstuck.2 hstuck.1.1] at hstuck
    cases hstuck.1.2
  have htrip := o.boundaryAbandonedTrip_pos
  rw [HoleAdmission.denial, hmine]
  simp only [lt_irrefl, and_false, if_false]
  rw [if_neg (show ¬(o.boundaryAbandonedTrip : ℤ) ≤ 0 by omega)]

/-- The admission accounts for every call. -/
theorem ppr_admission_accounts (o : AdmissionOptions) (s : State T E)
    (h : Runs.Reachable (step o) State.init s) :
    (s.admission.slotsInUse = s.slots.countP (!·.released) ∧
      s.admission.slotsInUse ≤ o.maxHoleWork) ∧
    (∀ i slot, s.slots[i]? = some slot → slot.releases = slot.released.toNat ∧
      slot.releases = if slot.sealed = true ∧ ∀ c ∈ s.calls, c.slot = i →
        c.settled = true ∨ c.abandoned = true then 1 else 0) ∧
    (s.admission.abandoned = s.admission.abandonedBy.values.sum ∧
      s.admission.abandoned ≤ s.admission.pending ∧
      s.admission.abandoned = s.calls.countP Call.stuck ∧
      s.admission.pending = s.calls.countP Call.pending) ∧
    (∀ key, (∀ c ∈ s.calls, c.key = key → c.abandoned = true → c.settled = true) →
      s.admission.denial o key =
        if o.admissionStop ≤ s.admission.abandoned then some .stop else none) ∧
    (∀ c ∈ s.calls, c.results.length =
      if c.settled = true ∨ s.aborted.has c.signal = true then 1 else 0) ∧
    ∀ (e : Event T E) (t : State T E), step o s e = some t →
      ∀ (n : ℕ) (c : Call T E), s.calls[n]? = some c → ∃ d : Call T E, t.calls[n]? = some d ∧
        d.slot = c.slot ∧ d.key = c.key ∧ d.signal = c.signal ∧
          (c.results ≠ [] → d.results = c.results) := by
  have hsound : Sound o s := h.invariant (sound_init o) fun _ _ _ hs ht => hs.step ht
  refine ⟨⟨hsound.books.slotsInUse, hsound.books.bounded⟩, ?_, ⟨hsound.abandoned.sum.symm, ?_,
    hsound.abandoned.all, hsound.pending.all⟩, fun _ => hsound.denial, ?_, ?_⟩
  · intro i slot hi
    exact ⟨(hsound.books.slot i slot hi).releases, hsound.releases_eq hi⟩
  · rw [hsound.abandoned.all, hsound.pending.all, Int.ofNat_le]
    apply List.countP_mono_left
    intro c _ hstuck
    simp only [Call.stuck, Bool.and_eq_true] at hstuck
    exact hstuck.2
  · intro c hc
    rw [(hsound.call c hc).results, (hsound.call c hc).answered]
    cases c.settled <;> cases s.aborted.has c.signal <;> rfl
  · intro e t ht n c hc
    obtain ⟨d, hd, hkept⟩ := allKept_step ht n c hc
    refine ⟨d, hd, hkept.slot, hkept.key, hkept.signal, fun hne => (hkept.results ?_).2⟩
    have hlength := (hsound.call c (List.mem_of_getElem? hc)).results
    cases hanswered : c.answered with
    | true => rfl
    | false =>
      rw [hanswered] at hlength
      exact absurd (List.length_eq_zero_iff.mp hlength) hne

def abandonedRun : List (Event ℕ ℕ) :=
  [.slot, .run 0 (js "feed") 7, .abort 7 0 3, .fire 0, .sealSlot 0]

theorem ppr_admission_accounts_abandonedRun : ∃ s : State ℕ ℕ,
    Runs.run (step ⟨1, 1, 5, 0, 1, le_rfl⟩) State.init abandonedRun = some s ∧
      s.admission.slotsInUse = 0 ∧ s.admission.abandoned = s.calls.countP Call.stuck := by
  have haccounts := ppr_admission_accounts ⟨1, 1, 5, 0, 1, le_rfl⟩ _ ⟨abandonedRun, rfl⟩
  exact ⟨_, rfl, rfl, haccounts.2.2.1.2.2.1⟩

end Accounts

end Nifra.Ppr
