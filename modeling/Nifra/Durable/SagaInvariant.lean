import Nifra.Durable.SagaSound

/-! # The invariant of the saga machine

The store accepts a write only on the record that it was computed from, because versions
increase. So whatever the threads do, the log of a reachable state is a history.
-/

namespace Nifra.Durable.SagaEngine

open Runs

variable {V : Type} {definition : SagaDefinition} {sagaId : JSString} {s t : State V}
variable {i j : ℕ} {thread other : Thread V} {wait : Wait V} {operation : Operation V}
variable {answer : Answer V} {next : Next V} {o : Oracle}

inductive Performed (s : State V) (i : ℕ) (wait : Wait V) :
    Operation V → Answer V → State V → Prop
  | loaded : Performed s i wait .get (.loaded s.stored) s
  | notCreated {record : SagaRecord V} :
      Performed s i wait (.create record) (.created false) s
  | created {record : SagaRecord V} (hstored : s.stored = none) :
      Performed s i wait (.create record) (.created true) { s with stored := some record }
  | refused {input : DurableSagaTransitionInput V} :
      Performed s i wait (.compareAndSet input) (.saved input false) s
  | saved {input : DurableSagaTransitionInput V} {base : SagaRecord V}
      (hstored : s.stored = some base) (hversion : base.version = input.version)
      (hnext : input.record.version = input.version + 1) :
      Performed s i wait (.compareAndSet input) (.saved input true) { s with
        stored := some input.record
        log := .wrote i wait base input.record :: s.log }

theorem performed_of_perform (h : s.perform i wait operation = some (answer, t)) :
    Performed s i wait operation answer t := by
  cases operation with
  | none => cases h
  | get =>
    obtain ⟨rfl, rfl⟩ := Prod.mk.inj (Option.some.inj h)
    exact .loaded
  | create record =>
    simp only [State.perform] at h
    split at h
    · obtain ⟨rfl, rfl⟩ := Prod.mk.inj (Option.some.inj h)
      exact .notCreated
    · rename_i hnone
      obtain ⟨rfl, rfl⟩ := Prod.mk.inj (Option.some.inj h)
      exact .created (by simpa using hnone)
  | compareAndSet input =>
    obtain ⟨rfl, rfl⟩ := Prod.mk.inj (Option.some.inj h)
    unfold State.compareAndSet
    split
    · exact .refused
    rename_i base hbase
    split
    · exact .refused
    rename_i written hwritten
    obtain ⟨rfl, hnext, -, hsame⟩ := transitionSaga_eq_some hwritten
    exact .saved hbase (hsame base rfl).2 hnext
  | answered => cases h

/-- The record was stored: its version is past, or it is stored still. -/
def Known (s : State V) (record : SagaRecord V) : Prop :=
  ∃ stored, s.stored = some stored ∧ record.version ≤ stored.version ∧
    (record.version = stored.version → record = stored)

theorem known_stored {record : SagaRecord V} (h : s.stored = some record) : Known s record :=
  ⟨record, h, le_rfl, fun _ => rfl⟩

structure Extends (s t : State V) : Prop where
  known : ∀ record, Known s record → Known t record
  log : s.log ⊆ t.log

theorem extends_of_performed (h : Performed s i wait operation answer t) : Extends s t := by
  cases h with
  | loaded => exact ⟨fun _ => id, fun _ => id⟩
  | notCreated => exact ⟨fun _ => id, fun _ => id⟩
  | refused => exact ⟨fun _ => id, fun _ => id⟩
  | created hstored =>
    refine ⟨?_, fun _ => id⟩
    rintro record ⟨stored, hsome, -⟩
    simp [hstored] at hsome
  | saved hstored hversion hnext =>
    refine ⟨?_, fun _ => List.mem_cons_of_mem _⟩
    rintro record ⟨stored, hsome, hle, -⟩
    obtain rfl := Option.some.inj (hstored.symm.trans hsome)
    refine ⟨_, rfl, by omega, fun heq => by omega⟩

/-- A write under way does what its wait says, and a record to create is empty. -/
structure Sent (definition : SagaDefinition) (s : State V) (wait : Wait V)
    (operation : Operation V) : Prop where
  issued : ∀ input, operation = .compareAndSet input →
    Issued definition s.log (Known s) wait input
  created : ∀ record, operation = .create record → record.steps = []

structure Thread.Sound (definition : SagaDefinition) (s : State V) (i : ℕ)
    (thread : Thread V) : Prop where
  holds : thread.wait.Holds definition s.log
  carries : ∀ record ∈ thread.wait.carries, Known s record
  sent : Sent definition s thread.wait thread.operation
  loaded : ∀ record, thread.operation = .answered (.loaded (some record)) → Known s record
  saved : ∀ input, thread.operation = .answered (.saved input true) →
    Known s input.record ∧ ∃ base, .wrote i thread.wait base input.record ∈ s.log
  first : ∀ input index step record, thread.operation = .answered (.saved input true) →
    thread.wait = .compensateExecuting index step record → ¬ Invoked s.log step

theorem Sent.extends (h : Sent definition s wait operation) (hst : Extends s t) :
    Sent definition t wait operation := by
  refine ⟨fun input hinput => ?_, h.created⟩
  obtain ⟨base, hknown, hversion, hwrites⟩ := h.issued input hinput
  exact ⟨base, hst.known base hknown, hversion, hwrites.mono hst.log⟩

theorem Wait.Holds.mono {log log' : List (Entry V)} (hsub : log ⊆ log')
    (h : wait.Holds definition log) : wait.Holds definition log' := by
  have hinvoked {step : SagaStepRecord V} : Invoked log step → Invoked log' step :=
    fun ⟨i, index, stored, hmem⟩ => ⟨i, index, stored, hsub hmem⟩
  cases wait with
  | compensating => exact ⟨h.1, hinvoked h.2⟩
  | compensateCommitted => exact ⟨h.1, hinvoked h.2⟩
  | compensateFailed => exact Failing.mono hsub h
  | _ => exact h

theorem Thread.Sound.extends (h : thread.Sound definition s i) (hst : Extends s t)
    (hinvoked : ∀ input index step record, thread.operation = .answered (.saved input true) →
      thread.wait = .compensateExecuting index step record → Invoked t.log step →
        Invoked s.log step) : thread.Sound definition t i where
  holds := h.holds.mono hst.log
  carries record hrecord := hst.known record (h.carries record hrecord)
  sent := h.sent.extends hst
  loaded record hrecord := hst.known record (h.loaded record hrecord)
  saved input hinput := by
    obtain ⟨hknown, base, hmem⟩ := h.saved input hinput
    exact ⟨hst.known _ hknown, base, hst.log hmem⟩
  first input index step record hoperation hwait hinv :=
    h.first input index step record hoperation hwait
      (hinvoked input index step record hoperation hwait hinv)

def Wait.Ends (wait : Wait V) (effectId : JSString) : Prop :=
  wait = .commitSave effectId ∨ wait = .failSave effectId

theorem pastIntent_wrote_iff {base record : SagaRecord V} {effectId : JSString} :
    (Entry.wrote i wait base record).PastIntent effectId ↔ wait.Ends effectId := by
  cases wait <;> simp [Entry.PastIntent, Wait.Ends]

theorem Wait.Ends.executionId {effectId : JSString} (h : wait.Ends effectId) :
    wait.executionId = some effectId ∧ ∀ name, wait ≠ .stepIntent name effectId := by
  rcases h with rfl | rfl <;> exact ⟨rfl, by simp⟩

/-- Execution ids were drawn, and an execution whose intent is under way is only there. -/
structure Fresh (s : State V) : Prop where
  thread : ∀ (i : ℕ) (thread : Thread V), s.threads[i]? = some thread →
    ∀ id ∈ thread.wait.executionId, id ∈ s.uuids
  lost : ∀ entry ∈ s.lost, ∀ id, entry.2.1.Ends id → id ∈ s.uuids
  log : ∀ entry ∈ s.log, ∀ id, entry.PastIntent id → id ∈ s.uuids
  only : ∀ (i : ℕ) (thread : Thread V) (name id : JSString), s.threads[i]? = some thread →
    thread.wait = .stepIntent name id →
      (∀ (j : ℕ) (other : Thread V), s.threads[j]? = some other →
        other.wait.executionId = some id → j = i) ∧
      (∀ entry ∈ s.lost, ¬ entry.2.1.Ends id) ∧ ∀ entry ∈ s.log, ¬ entry.PastIntent id

/-- The log is a history, and every thread goes on from it soundly. -/
structure Inv (definition : SagaDefinition) (s : State V) : Prop where
  history : History definition s.stored s.log
  threads : ∀ (i : ℕ) (thread : Thread V), s.threads[i]? = some thread →
    thread.Sound definition s i
  lost : ∀ entry ∈ s.lost, Sent definition s entry.2.1 entry.2.2
  fresh : Fresh s

theorem inv_init : Inv definition ({} : State V) where
  history := .absent
  threads := by simp
  lost := by simp
  fresh := ⟨by simp, by simp, by simp, by simp⟩

/-- No intent is under way for an execution whose outcome this wait writes. -/
def Settling (s : State V) (wait : Wait V) : Prop :=
  ∀ id, wait.Ends id → id ∈ s.uuids ∧
    ∀ (k : ℕ) (other : Thread V) (name : JSString), s.threads[k]? = some other →
      other.wait ≠ .stepIntent name id

theorem Fresh.settling (h : Fresh s) (hthread : s.threads[i]? = some thread) :
    Settling s thread.wait := by
  intro id hends
  obtain ⟨hid, hne⟩ := hends.executionId
  refine ⟨h.thread i thread hthread id hid, fun k other name hother hwait => ?_⟩
  obtain rfl := (h.only k other name id hother hwait).1 i thread hthread hid
  obtain rfl := Option.some.inj (hthread.symm.trans hother)
  exact hne name hwait

theorem Fresh.settling_lost (h : Fresh s) {entry : ℕ × Wait V × Operation V}
    (hentry : entry ∈ s.lost) : Settling s entry.2.1 := by
  intro id hends
  exact ⟨h.lost entry hentry id hends, fun k other name hother hwait =>
    (h.only k other name id hother hwait).2.1 entry hentry hends⟩

theorem Inv.performed (h : Inv definition s) (hsent : Sent definition s wait operation)
    (hsettling : Settling s wait) (hperformed : Performed s i wait operation answer t) :
    Inv definition t := by
  have hst := extends_of_performed hperformed
  cases hperformed with
  | loaded => exact h
  | notCreated => exact h
  | refused => exact h
  | @created record hstored =>
    have hlog : s.log = [] := by
      have hhistory := h.history
      rw [hstored] at hhistory
      exact hhistory.eq_nil
    refine ⟨hlog ▸ .created (hsent.created record rfl), fun k other hother => ?_,
      fun entry hentry => (h.lost entry hentry).extends hst, ⟨h.fresh.thread, h.fresh.lost,
        h.fresh.log, h.fresh.only⟩⟩
    exact (h.threads k other hother).extends hst fun _ _ _ _ _ _ => id
  | @saved input base hstored hversion hnext =>
    obtain ⟨known, ⟨stored, hsome, -, hsame⟩, hknown, hwrites⟩ := hsent.issued input rfl
    obtain rfl := Option.some.inj (hstored.symm.trans hsome)
    obtain rfl := hsame (hknown.symm.trans hversion.symm)
    refine ⟨.wrote (hstored ▸ h.history) hwrites, fun k other hother => ?_,
      fun entry hentry => (h.lost entry hentry).extends hst, ⟨h.fresh.thread, h.fresh.lost, ?_, ?_⟩⟩
    · refine (h.threads k other hother).extends hst ?_
      rintro _ _ step _ - - ⟨j, index, was, hmem⟩
      exact ⟨j, index, was, (List.mem_cons.mp hmem).resolve_left (by simp)⟩
    · rintro entry hentry id hpast
      rcases List.mem_cons.mp hentry with rfl | hentry
      · exact (hsettling id (pastIntent_wrote_iff.mp hpast)).1
      · exact h.fresh.log entry hentry id hpast
    · intro k other name id hother hwait
      obtain ⟨honly, hlost, hlog⟩ := h.fresh.only k other name id hother hwait
      refine ⟨honly, hlost, fun entry hentry hpast => ?_⟩
      rcases List.mem_cons.mp hentry with rfl | hentry
      · exact (hsettling id (pastIntent_wrote_iff.mp hpast)).2 k other name hother hwait
      · exact hlog entry hentry hpast

theorem Inv.await (h : Inv definition s) (hthread : s.threads[i]? = some thread)
    (hsound : Thread.Sound definition s i { thread with operation := operation }) :
    Inv definition (s.await i thread operation) := by
  have hold {k : ℕ} {other : Thread V}
      (hother : (s.threads.set i { thread with operation := operation })[k]? = some other) :
      ∃ was, s.threads[k]? = some was ∧ was.wait = other.wait := by
    rcases Runs.getElem?_set_cases hother with ⟨rfl, rfl⟩ | ⟨-, hother⟩
    · exact ⟨thread, hthread, rfl⟩
    · exact ⟨other, hother, rfl⟩
  refine ⟨h.history, fun k other hother => ?_, fun entry hentry => ?_,
    ⟨fun k other hother id hid => ?_, h.fresh.lost, h.fresh.log, fun k other name id hother hwait => ?_⟩⟩
  · rcases Runs.getElem?_set_cases hother with ⟨rfl, rfl⟩ | ⟨-, hother⟩
    · exact hsound.extends ⟨fun _ => id, fun _ => id⟩ fun _ _ _ _ _ _ => id
    · exact (h.threads k other hother).extends ⟨fun _ => id, fun _ => id⟩ fun _ _ _ _ _ _ => id
  · exact (h.lost entry hentry).extends ⟨fun _ => id, fun _ => id⟩
  · obtain ⟨was, hwas, hwait⟩ := hold hother
    exact h.fresh.thread k was hwas id (hwait ▸ hid)
  · obtain ⟨was, hwas, heq⟩ := hold hother
    obtain ⟨honly, hrest⟩ := h.fresh.only k was name id hwas (heq.trans hwait)
    refine ⟨fun j third hthird hid => ?_, hrest⟩
    obtain ⟨was', hwas', heq'⟩ := hold hthird
    exact honly j was' hwas' (heq' ▸ hid)

theorem Fresh.advance (h : Fresh s) (hthread : s.threads[i]? = some thread) {thread' : Thread V}
    (ht : t.threads = s.threads.set i thread') (hlost : t.lost = s.lost)
    (hlog : ∀ entry ∈ t.log, entry ∈ s.log ∨
      ∀ id, entry.PastIntent id → thread.wait.executionId = some id)
    (hsub : s.uuids ⊆ t.uuids)
    (hids : ∀ id ∈ thread'.wait.executionId, (id ∈ t.uuids ∧ id ∉ s.uuids) ∨
      thread.wait.executionId = some id ∧ ∀ name, thread'.wait ≠ .stepIntent name id) :
    Fresh t := by
  refine ⟨fun k other hother id hid => ?_, fun entry hentry id hends => ?_,
    fun entry hentry id hpast => ?_, fun k other name id hother hwait => ?_⟩
  · rw [ht] at hother
    rcases Runs.getElem?_set_cases hother with ⟨rfl, rfl⟩ | ⟨-, hother⟩
    · rcases hids id hid with ⟨hnew, -⟩ | ⟨hheld, -⟩
      · exact hnew
      · exact hsub (h.thread k thread hthread id hheld)
    · exact hsub (h.thread k other hother id hid)
  · exact hsub (h.lost entry (hlost ▸ hentry) id hends)
  · rcases hlog entry hentry with hold | hnew
    · exact hsub (h.log entry hold id hpast)
    · exact hsub (h.thread i thread hthread id (hnew id hpast))
  rw [ht] at hother
  rcases Runs.getElem?_set_cases hother with ⟨rfl, rfl⟩ | ⟨hne, hother'⟩
  · -- the id is drawn now
    obtain ⟨-, hnew⟩ := (hids id (by simp [hwait, Wait.executionId])).resolve_right
      fun hheld => hheld.2 name hwait
    refine ⟨fun j third hthird hid => ?_, fun entry hentry hends => ?_,
      fun entry hentry hpast => ?_⟩
    · rw [ht] at hthird
      rcases Runs.getElem?_set_cases hthird with ⟨rfl, -⟩ | ⟨-, hthird⟩
      · rfl
      · exact absurd (h.thread j third hthird id hid) hnew
    · exact hnew (h.lost entry (hlost ▸ hentry) id hends)
    · rcases hlog entry hentry with hold | hown
      · exact hnew (h.log entry hold id hpast)
      · exact hnew (h.thread k thread hthread id (hown id hpast))
  · obtain ⟨honly, hrest, hrest'⟩ := h.only k other name id hother' hwait
    refine ⟨fun j third hthird hid => ?_, hlost ▸ hrest, fun entry hentry hpast => ?_⟩
    · rw [ht] at hthird
      rcases Runs.getElem?_set_cases hthird with ⟨rfl, rfl⟩ | ⟨-, hthird⟩
      · rcases hids id hid with ⟨-, hnew⟩ | ⟨hheld, -⟩
        · exact absurd (h.thread k other hother' id (by simp [hwait, Wait.executionId])) hnew
        · exact honly j thread hthread hheld
      · exact honly j third hthird hid
    · rcases hlog entry hentry with hold | hown
      · exact hrest' entry hold hpast
      · exact hne (honly i thread hthread (hown id hpast)).symm

theorem Next.Sound.resumed {drawn held : Option JSString}
    (h : next.Sound definition s.log (Known s) drawn held) (i : ℕ) {thread' : Thread V}
    (hwait : thread'.wait = next.wait) (hoperation : thread'.operation = next.operation) :
    thread'.Sound definition s i where
  holds := hwait ▸ h.holds
  carries := hwait ▸ h.carries
  sent := ⟨hwait ▸ hoperation ▸ h.issued, hoperation ▸ h.created⟩
  loaded _ hrecord := absurd (hoperation ▸ hrecord) (h.unanswered _)
  saved _ hinput := absurd (hoperation ▸ hinput) (h.unanswered _)
  first _ _ _ _ hinput := absurd (hoperation ▸ hinput) (h.unanswered _)

theorem Inv.advance (h : Inv definition s) (hthread : s.threads[i]? = some thread)
    {drawn : Option JSString} {uuids : List JSString}
    (hsound : next.Sound definition s.log (Known s) drawn thread.wait.executionId)
    (hdrawn : ∀ id ∈ drawn, id ∈ uuids ∧ id ∉ s.uuids) (hsub : s.uuids ⊆ uuids) :
    Inv definition { s.advance i thread next with uuids := uuids } := by
  have hnote : ∃ contexts, s.advance i thread next = { s with
      threads := s.threads.set i { thread with wait := next.wait, operation := next.operation }
      contexts := contexts } := by
    unfold State.advance
    rcases hsound.note with hnote | hnote <;> rw [hnote] <;> exact ⟨_, rfl⟩
  obtain ⟨contexts, heq⟩ := hnote
  rw [heq]
  refine ⟨h.history, fun k other hother => ?_, fun entry hentry => ?_, ?_⟩
  · rcases Runs.getElem?_set_cases hother with ⟨rfl, rfl⟩ | ⟨-, hother⟩
    · exact (hsound.resumed k rfl rfl).extends ⟨fun _ => id, fun _ => id⟩ fun _ _ _ _ _ _ => id
    · exact (h.threads k other hother).extends ⟨fun _ => id, fun _ => id⟩ fun _ _ _ _ _ _ => id
  · exact (h.lost entry hentry).extends ⟨fun _ => id, fun _ => id⟩
  · refine h.fresh.advance hthread rfl rfl (fun _ => Or.inl) hsub fun id hid => ?_
    exact (hsound.ids id hid).imp_left fun hd => hdrawn id hd

theorem Inv.executing (h : Inv definition s) (hthread : s.threads[i]? = some thread)
    {name effectId : JSString} (hwait : thread.wait = .stepIntent name effectId)
    {input : DurableSagaTransitionInput V}
    (hoperation : thread.operation = .answered (.saved input true)) {uuids : List JSString}
    (hsub : s.uuids ⊆ uuids) :
    Inv definition { s.advance i thread ⟨.executing name effectId, .none,
      some (.executed name effectId)⟩ with uuids := uuids } := by
  obtain ⟨-, base, hmem⟩ := (h.threads i thread hthread).saved input hoperation
  rw [hwait] at hmem
  have hfirst := (h.fresh.only i thread name effectId hthread hwait).2.2
  have hst : Extends s { s.advance i thread ⟨.executing name effectId, .none,
      some (.executed name effectId)⟩ with uuids := uuids } :=
    ⟨fun _ => id, fun _ => List.mem_cons_of_mem _⟩
  refine ⟨.executed h.history hmem hfirst, fun k other hother => ?_,
    fun entry hentry => (h.lost entry hentry).extends hst, ?_⟩
  · rcases Runs.getElem?_set_cases hother with ⟨rfl, rfl⟩ | ⟨-, hother⟩
    · exact ⟨trivial, by simp [Wait.carries], ⟨by simp, by simp⟩, by simp, by simp, by simp⟩
    · refine (h.threads k other hother).extends hst ?_
      rintro _ _ step _ - - ⟨j, index, was, hmem⟩
      exact ⟨j, index, was, (List.mem_cons.mp hmem).resolve_left (by simp)⟩
  · refine h.fresh.advance hthread rfl rfl (fun entry hentry => ?_) hsub ?_
    · rcases List.mem_cons.mp hentry with rfl | hentry
      · refine Or.inr fun id hpast => ?_
        obtain rfl : effectId = id := hpast
        simp [hwait, Wait.executionId]
      · exact Or.inl hentry
    · rintro id ⟨⟩
      exact Or.inr ⟨by simp [hwait, Wait.executionId], by simp⟩

theorem Inv.compensating (h : Inv definition s) (hthread : s.threads[i]? = some thread)
    {index : ℕ} {step : SagaStepRecord V} {record : SagaRecord V}
    (hwait : thread.wait = .compensateExecuting index step record)
    {input : DurableSagaTransitionInput V}
    (hoperation : thread.operation = .answered (.saved input true)) {uuids : List JSString}
    (hsub : s.uuids ⊆ uuids) :
    Inv definition { s.advance i thread ⟨.compensating index step input.record, .none,
      some (.compensated index step.name step.attempts)⟩ with uuids := uuids } := by
  have hsound := h.threads i thread hthread
  obtain ⟨hknown, base, hmem⟩ := hsound.saved input hoperation
  rw [hwait] at hmem
  have hfirst := hsound.first input index step record hoperation hwait
  obtain ⟨after, before, hsplit⟩ := List.append_of_mem hmem
  have hwrites := (hsplit ▸ h.history).at_write.2
  obtain ⟨rfl, -⟩ := hwrites.of_compensateExecuting
  have hst : Extends s { s.advance i thread ⟨.compensating index step input.record, .none,
      some (.compensated index step.name step.attempts)⟩ with uuids := uuids } :=
    ⟨fun _ => id, fun _ => List.mem_cons_of_mem _⟩
  refine ⟨.compensated h.history hmem hfirst, fun k other hother => ?_,
    fun entry hentry => (h.lost entry hentry).extends hst, ?_⟩
  · rcases Runs.getElem?_set_cases hother with ⟨rfl, rfl⟩ | ⟨hne, hother⟩
    · refine ⟨⟨hwrites.attempted, k, index, s.stored, List.mem_cons_self⟩, ?_, ⟨by simp, by simp⟩,
        by simp, by simp, by simp⟩
      rintro _ ⟨⟩
      exact hst.known _ hknown
    · -- another thread's attempt has another number
      have hother' := h.threads k other hother
      refine hother'.extends hst ?_
      rintro input' index' step' record' hoperation' hwait' ⟨j, l, was, hmem'⟩
      rcases List.mem_cons.mp hmem' with heq | hmem'
      · obtain ⟨-, -, hname, hattempts, -⟩ : _ ∧ _ ∧ _ ∧ _ ∧ _ := by simpa using heq
        obtain ⟨-, base', hauth⟩ := hother'.saved input' hoperation'
        rw [hwait'] at hauth
        exact absurd (h.history.attempt_unique hauth hmem hname.symm hattempts.symm) hne
      · exact ⟨j, l, was, hmem'⟩
  · refine h.fresh.advance hthread rfl rfl (fun entry hentry => ?_) hsub (by simp [Wait.executionId])
    rcases List.mem_cons.mp hentry with rfl | hentry
    · exact Or.inr fun id hpast => hpast.elim
    · exact Or.inl hentry

theorem Inv.fork (h : Inv definition s) {owner : JSString} {leaseMs : ℕ} {uuids : List JSString}
    (hsound : next.Sound definition s.log (Known s) none none) (hsub : s.uuids ⊆ uuids) :
    Inv definition { s.fork owner leaseMs next with uuids := uuids } := by
  have hid : next.wait.executionId = none := by
    by_contra hne
    obtain ⟨id, hid⟩ := Option.ne_none_iff_exists'.mp hne
    simpa using hsound.ids id hid
  have hcases {k : ℕ} {other : Thread V}
      (hother : (s.threads ++ [⟨owner, leaseMs, next.wait, next.operation⟩])[k]? = some other) :
      s.threads[k]? = some other ∨ other = ⟨owner, leaseMs, next.wait, next.operation⟩ := by
    rw [List.getElem?_append] at hother
    split_ifs at hother
    · exact Or.inl hother
    · rw [List.getElem?_singleton] at hother
      split_ifs at hother
      exact Or.inr (Option.some.inj hother).symm
  refine ⟨h.history, fun k other hother => ?_, fun entry hentry => ?_,
    ⟨fun k other hother id hid' => ?_, fun entry hentry id hends => hsub (h.fresh.lost entry hentry id hends),
      fun entry hentry id hpast => hsub (h.fresh.log entry hentry id hpast),
      fun k other name id hother hwait => ?_⟩⟩
  · rcases hcases hother with hother | rfl
    · exact (h.threads k other hother).extends ⟨fun _ => id, fun _ => id⟩ fun _ _ _ _ _ _ => id
    · exact (hsound.resumed k rfl rfl).extends ⟨fun _ => id, fun _ => id⟩ fun _ _ _ _ _ _ => id
  · exact (h.lost entry hentry).extends ⟨fun _ => id, fun _ => id⟩
  · rcases hcases hother with hother | rfl
    · exact hsub (h.fresh.thread k other hother id hid')
    · simp [hid] at hid'
  · rcases hcases hother with hother | rfl
    · obtain ⟨honly, hrest⟩ := h.fresh.only k other name id hother hwait
      refine ⟨fun j third hthird hid' => ?_, hrest⟩
      rcases hcases hthird with hthird | rfl
      · exact honly j third hthird hid'
      · simp [hid] at hid'
    · have : next.wait.executionId = some id := by
        rw [show next.wait = .stepIntent name id from hwait]
        rfl
      simp [hid] at this

theorem Inv.lose (h : Inv definition s) (hsent : Sent definition s wait operation)
    (hsettling : Settling s wait) :
    Inv definition { s with lost := s.lost ++ [(i, wait, operation)] } := by
  have hst : Extends s { s with lost := s.lost ++ [(i, wait, operation)] } :=
    ⟨fun _ => id, fun _ => id⟩
  refine ⟨h.history, fun k other hother => ?_, fun entry hentry => ?_, ⟨h.fresh.thread,
    fun entry hentry id hends => ?_, h.fresh.log, fun k other name id hother hwait => ?_⟩⟩
  · exact (h.threads k other hother).extends hst fun _ _ _ _ _ _ => id
  · rcases List.mem_append.mp hentry with hentry | hentry
    · exact (h.lost entry hentry).extends hst
    · obtain rfl := List.mem_singleton.mp hentry
      exact hsent.extends hst
  · rcases List.mem_append.mp hentry with hentry | hentry
    · exact h.fresh.lost entry hentry id hends
    · obtain rfl := List.mem_singleton.mp hentry
      exact (hsettling id hends).1
  · obtain ⟨honly, hlost, hlog⟩ := h.fresh.only k other name id hother hwait
    refine ⟨honly, fun entry hentry hends => ?_, hlog⟩
    rcases List.mem_append.mp hentry with hentry | hentry
    · exact hlost entry hentry hends
    · obtain rfl := List.mem_singleton.mp hentry
      exact (hsettling id hends).2 k other name hother hwait

theorem Thread.Sound.answered (h : thread.Sound definition s i)
    (hperformed : Performed s i thread.wait operation answer t) (ht : Inv definition t) :
    Thread.Sound definition t i { thread with operation := .answered answer } := by
  have hst := extends_of_performed hperformed
  refine ⟨h.holds.mono hst.log, fun record hrecord => hst.known record (h.carries record hrecord),
    ⟨by simp, by simp⟩, ?_, ?_, ?_⟩
  · rintro record hanswer
    cases hperformed with
    | loaded => exact known_stored (by simpa using hanswer)
    | _ => simp at hanswer
  · rintro input hanswer
    cases hperformed with
    | saved =>
      obtain rfl : _ = input := by simpa using hanswer
      exact ⟨known_stored rfl, _, List.mem_cons_self⟩
    | _ => simp at hanswer
  · rintro input index step record hanswer (hwait : thread.wait = _)
    cases hperformed with
    | @saved _ base =>
      -- the write that was just accepted is the intent, so nothing was invoked for it yet
      have hhistory : History definition _ ([] ++ .wrote i thread.wait base _ :: s.log) := ht.history
      rw [hwait] at hhistory
      rintro ⟨j, k, was, hmem⟩
      exact hhistory.not_invoked ⟨j, k, was, (List.mem_cons.mp hmem).resolve_left (by simp)⟩
    | _ => simp at hanswer

theorem advance_uuids : (s.advance i thread next).uuids = s.uuids := by
  unfold State.advance State.note
  split <;> rfl

theorem Inv.step {event : Event V} (h : Inv definition s)
    (hstep : step definition sagaId s event = some t) : Inv definition t := by
  cases event with
  | call call owner leaseMs o =>
    simp only [SagaEngine.step] at hstep
    split_ifs at hstep
    obtain ⟨next, hnext, rfl⟩ := Option.map_eq_some_iff.mp hstep
    exact h.fork (sound_start hnext) fun _ => List.mem_cons_of_mem _
  | step context name compensationArgs =>
    simp only [SagaEngine.step] at hstep
    split at hstep
    · cases hstep
    split_ifs at hstep
    obtain rfl := Option.some.inj hstep
    refine h.fork (sound_get ?_) fun _ => id
    exact ⟨rfl, rfl, fun _ _ => trivial⟩
  | perform i =>
    obtain ⟨thread, hthread, hstep⟩ := Option.bind_eq_some_iff.mp hstep
    obtain ⟨⟨answer, u⟩, hperform, rfl⟩ := Option.map_eq_some_iff.mp hstep
    have hperformed := performed_of_perform hperform
    have hsound := h.threads i thread hthread
    have hu := h.performed hsound.sent (h.fresh.settling hthread) hperformed
    have hthread' : u.threads[i]? = some thread := by
      generalize thread.operation = operation at hperformed
      cases hperformed <;> exact hthread
    exact hu.await hthread' (hsound.answered hperformed hu)
  | raise i =>
    obtain ⟨thread, hthread, hstep⟩ := Option.bind_eq_some_iff.mp hstep
    have hsound := h.threads i thread hthread
    split at hstep
    · cases hstep
    obtain rfl := Option.some.inj hstep
    have hlose : Inv definition { s with lost := s.lost ++ [(i, thread.wait, thread.operation)] } :=
      h.lose hsound.sent (h.fresh.settling hthread)
    refine hlose.await hthread ⟨hsound.holds, fun record hrecord => ?_, ⟨by simp, by simp⟩,
      by simp, by simp, by simp⟩
    exact hsound.carries record hrecord
  | performLost k =>
    obtain ⟨lost, hlost, hstep⟩ := Option.bind_eq_some_iff.mp hstep
    obtain ⟨⟨answer, u⟩, hperform, rfl⟩ := Option.map_eq_some_iff.mp hstep
    have hmem := List.mem_of_getElem? hlost
    exact h.performed (h.lost lost hmem) (h.fresh.settling_lost hmem) (performed_of_perform hperform)
  | proceed i o =>
    obtain ⟨thread, hthread, hstep⟩ := Option.bind_eq_some_iff.mp hstep
    have hsound := h.threads i thread hthread
    split at hstep
    case h_2 => cases hstep
    rename_i answer hanswer
    split_ifs at hstep with hdraws
    obtain rfl := Option.some.inj hstep
    have hsub : s.uuids ⊆ thread.draws o ++ s.uuids := List.subset_append_right _ _
    have hdrawn : ∀ id ∈ thread.drawnId o, id ∈ thread.draws o ++ s.uuids ∧ id ∉ s.uuids := by
      intro id hid
      have hmem : id ∈ thread.draws o := by
        unfold Thread.drawnId at hid
        unfold Thread.draws
        split at hid <;> simp_all
      exact ⟨List.mem_append_left _ hmem, hdraws.2 id hmem⟩
    have hplain {next : Next V} (hnext : next.Sound definition s.log (Known s) (thread.drawnId o)
        thread.wait.executionId) :
        Inv definition { s.advance i thread next with uuids := thread.draws o ++ s.uuids } :=
      h.advance hthread hnext hdrawn hsub
    cases answer with
    | created accepted =>
      simp only [proceed]
      split
      · exact hplain sound_resumeStart
      · exact hplain Next.sound_finished
    | loaded stored =>
      refine hplain (sound_readAnswered fun record hrecord => ?_)
      exact hsound.loaded record (by rw [hanswer, Option.mem_def.mp hrecord])
    | saved input accepted =>
      cases accepted with
      | false => exact hplain (sound_saveRefused hsound.holds hsound.carries)
      | true =>
        obtain ⟨hknown, base, hmem⟩ := hsound.saved input hanswer
        obtain ⟨after, before, hsplit⟩ := List.append_of_mem hmem
        have hwrites : Writes definition s.log base input.record thread.wait :=
          (hsplit ▸ h.history).at_write.2.mono (by rw [hsplit]; simp)
        rcases saveAccepted_cases (o := o) hknown hwrites with
          ⟨index, step, record, hwait, heq⟩ | ⟨name, effectId, hwait, heq⟩ | hnext
        · simp only [proceed, heq]
          exact h.compensating hthread hwait hanswer hsub
        · simp only [proceed, heq]
          exact h.executing hthread hwait hanswer hsub
        · exact hplain hnext
    | raised => exact hplain (sound_saveRefused hsound.holds hsound.carries)
  | settle i o outcome =>
    obtain ⟨thread, hthread, hstep⟩ := Option.bind_eq_some_iff.mp hstep
    have hsound := h.threads i thread hthread
    split at hstep
    case h_2 => cases hstep
    obtain rfl := Option.some.inj hstep
    have hnext : (settle definition thread o outcome).Sound definition s.log (Known s) none
        thread.wait.executionId := sound_settle hsound.holds hsound.carries
    have hadvance := h.advance hthread hnext (by simp) (List.Subset.refl s.uuids)
    rwa [← (advance_uuids : (s.advance i thread (settle definition thread o outcome)).uuids = _)]
      at hadvance

theorem inv_of_reachable (h : Reachable (step definition sagaId) {} s) : Inv definition s :=
  h.invariant inv_init fun _ _ _ hs hstep => hs.step hstep

end Nifra.Durable.SagaEngine
