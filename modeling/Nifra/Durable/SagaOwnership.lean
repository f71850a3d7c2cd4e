import Nifra.Durable.SagaInvariant

/-! # Who writes a saga

A write that carries an owner renews the lease. Every call but a resolution writes under its
own owner id, so only a resolution can renew the lease of another call.
-/

namespace Nifra.Durable.SagaEngine

open Next Runs

variable {V : Type} {definition : SagaDefinition} {sagaId owner : JSString} {s t : State V}
variable {record after : SagaRecord V} {input : DurableSagaTransitionInput V}
variable {wait : Wait V} {next thrown : Next V} {index k leaseMs : ℕ} {o : Oracle}
variable {known : SagaRecord V → Prop} {thread : Thread V} {i : ℕ}

def renewed (leaseMs reading : ℕ) (record : SagaRecord V) : Option ℕ :=
  if record.owner.isSome then some (reading + leaseMs) else record.leaseUntil

theorem readClock_eq_some_iff {reading now : ℕ} :
    readClock reading = some now ↔ reading = now ∧ isSafeInteger reading = true := by
  simp [readClock, and_comm]

theorem transitionSaga_self_iff {written : SagaRecord V} :
    transitionSaga (some record) ⟨record.sagaId, record.version, after⟩ = some written ↔
      after.version = record.version + 1 ∧ after.sagaId = record.sagaId ∧ written = after := by
  simp [transitionSaga, not_or, and_assoc, eq_comm (a := after)]

theorem save_eq_some_iff {reading : ℕ} {update : SagaRecord V} :
    save leaseMs reading record update = some input ↔
      update.sagaId = record.sagaId ∧
        (update.owner.isSome →
          isSafeInteger reading = true ∧ isSafeInteger (reading + leaseMs) = true) ∧
        input = ⟨record.sagaId, record.version, { update with
          leaseUntil := renewed leaseMs reading update
          version := record.version + 1 }⟩ := by
  cases howner : update.owner with
  | none =>
    simp only [save, howner, renewed, Option.map_eq_some_iff, transitionSaga_self_iff]
    constructor
    · rintro ⟨written, ⟨-, hid, rfl⟩, rfl⟩
      exact ⟨hid, by simp, rfl⟩
    · rintro ⟨hid, -, rfl⟩
      exact ⟨_, ⟨trivial, hid, rfl⟩, rfl⟩
  | some owner =>
    simp only [save, howner, renewed, addDuration, Option.bind_eq_some_iff, readClock_eq_some_iff,
      Option.map_eq_some_iff, transitionSaga_self_iff]
    constructor
    · rintro ⟨_, ⟨rfl, hsafe⟩, _, ⟨rfl, hsafe'⟩, written, ⟨-, hid, rfl⟩, rfl⟩
      exact ⟨hid, fun _ => ⟨hsafe, hsafe'⟩, rfl⟩
    · rintro ⟨hid, hsafe, rfl⟩
      obtain ⟨hsafe, hsafe'⟩ := hsafe rfl
      exact ⟨_, ⟨rfl, hsafe⟩, _, ⟨rfl, hsafe'⟩, _, ⟨trivial, hid, rfl⟩, rfl⟩

theorem save_lease {reading : ℕ} {update : SagaRecord V}
    (h : save leaseMs reading record update = some input) :
    input.record.owner = update.owner ∧
      input.record.leaseUntil = renewed leaseMs reading update := by
  obtain ⟨-, -, rfl⟩ := save_eq_some_iff.mp h
  exact ⟨rfl, rfl⟩

theorem saveState_owner {state : SagaState}
    (h : saveState leaseMs o k record state = some input) : input.record.owner = record.owner := by
  obtain ⟨now, -, h⟩ := Option.bind_eq_some_iff.mp h
  exact (save_lease h).1

theorem saveStep_lease {step : SagaStepRecord V} {state : SagaState}
    (h : saveStep leaseMs o k record index step state = some input) :
    input.record.owner = record.owner ∧
      input.record.leaseUntil = renewed leaseMs (o.now (k + 1)) record := by
  obtain ⟨now, -, h⟩ := Option.bind_eq_some_iff.mp h
  have hlease := save_lease h
  exact hlease

theorem claim_owner (h : claim leaseMs o owner record = some (some input)) :
    input.record.owner = some owner := by
  unfold claim at h
  split_ifs at h
  · simp at h
  · obtain ⟨now, -, h⟩ := Option.bind_eq_some_iff.mp h
    obtain ⟨_, hsave, heq⟩ := Option.map_eq_some_iff.mp h
    obtain rfl := Option.some.inj heq
    exact (save_lease hsave).1

theorem owner_of_claim_none (h : claim leaseMs o owner record = some none) :
    record.owner = some owner := by
  unfold claim at h
  split_ifs at h with howner
  · exact howner
  · simp [Option.bind_eq_some_iff] at h

theorem owner_of_loadOwned {found : Option (SagaRecord V)}
    (h : loadOwned sagaId owner found = some record) : record.owner = some owner := by
  simpa using (Option.filter_eq_some_iff.mp h).2

/-- A resolution leaves owner and lease as it found them, a release gives up the call's own
lease, and every other write holds the saga for its own call. -/
def WritesAs (owner : JSString) (base next : SagaRecord V) : Wait V → Prop
  | .resolveSave _ => next.owner = base.owner ∧ next.leaseUntil = base.leaseUntil
  | .releaseSave => base.owner = some owner ∧ next.owner = none
  | _ => next.owner = some owner

def RenewedByOwner (s : State V) : Prop :=
  ∀ i wait base next, .wrote i wait base next ∈ s.log →
    ∃ thread, s.threads[i]? = some thread ∧ WritesAs thread.owner base next wait

def keepsLease (leaseMs : ℕ) (o : Oracle) (record : SagaRecord V) : Bool :=
  record.owner.isNone || record.leaseUntil == some (o.now 1 + leaseMs)

/-- A thread that goes on to write a resolution leaves the lease on the record that it read. -/
def eventKeepsLease (s : State V) : Event V → Bool
  | .proceed i o =>
    match s.threads[i]? with
    | some ⟨_, leaseMs, .resolveLoad _, .answered (.loaded (some record))⟩ =>
      keepsLease leaseMs o record
    | _ => true
  | _ => true

def IssuesAs (known : SagaRecord V → Prop) (owner : JSString)
    (input : DurableSagaTransitionInput V) (wait : Wait V) : Prop :=
  ∃ base, known base ∧ input.version = base.version ∧ WritesAs owner base input.record wait

structure Next.Leased (known : SagaRecord V → Prop) (owner : JSString) (next : Next V) : Prop where
  carries : ∀ record ∈ next.wait.carries, record.owner = some owner
  issued : ∀ input, next.operation = .compareAndSet input →
    IssuesAs known owner input next.wait
  unanswered : ∀ answer, next.operation ≠ .answered answer

namespace Next

theorem leased_get (hwait : wait.carries = none) :
    (⟨wait, .get, none⟩ : Next V).Leased known owner :=
  ⟨by simp [hwait], by simp, by simp⟩

theorem leased_finished : (finished : Next V).Leased known owner :=
  ⟨by simp [finished, Wait.carries], by simp [finished], by simp [finished]⟩

theorem leased_release : (release : Next V).Leased known owner := leased_get rfl

theorem leased_write {update : Option (DurableSagaTransitionInput V)} (hknown : known record)
    (hcarries : ∀ other ∈ wait.carries, other.owner = some owner)
    (hupdate : ∀ input, update = some input →
      input.version = record.version ∧ WritesAs owner record input.record wait)
    (hthrown : thrown.Leased known owner) : (write wait update thrown).Leased known owner := by
  unfold write
  split
  · rename_i input
    refine ⟨hcarries, ?_, by simp⟩
    rintro _ ⟨⟩
    exact ⟨record, hknown, hupdate input rfl⟩
  · exact hthrown

end Next

section Calls

variable {step : SagaStepRecord V} {effectId : JSString} {found : Option (SagaRecord V)}

theorem leased_saveState {state : SagaState} (hknown : known record)
    (howner : record.owner = some owner) (hcarries : wait.carries = none)
    (hown : ∀ base next : SagaRecord V, WritesAs owner base next wait = (next.owner = some owner))
    (hthrown : thrown.Leased known owner) :
    (write wait (saveState leaseMs o k record state) thrown).Leased known owner := by
  apply leased_write hknown (by simp [hcarries]) _ hthrown
  intro input hinput
  rw [hown]
  exact ⟨(saveState_eq_some hinput).1, (saveState_owner hinput).trans howner⟩

theorem leased_saveStep {state : SagaState} (hknown : known record)
    (howner : record.owner = some owner) (hcarries : ∀ other ∈ wait.carries, other = record)
    (hown : ∀ base next : SagaRecord V, WritesAs owner base next wait = (next.owner = some owner))
    (hthrown : thrown.Leased known owner) :
    (write wait (saveStep leaseMs o k record index step state) thrown).Leased known owner := by
  apply leased_write hknown (fun other hother => hcarries other hother ▸ howner) _ hthrown
  intro input hinput
  rw [hown]
  exact ⟨(saveStep_eq_some hinput).1, (saveStep_lease hinput).1.trans howner⟩

theorem leased_invalidRetryPolicy (hknown : known record) (howner : record.owner = some owner) :
    (invalidRetryPolicy leaseMs o index step record).Leased known owner :=
  leased_saveStep hknown howner (by simp [Wait.carries]) (fun _ _ => rfl) leased_release

theorem leased_compensationFailed (hknown : known record) (howner : record.owner = some owner) :
    (compensationFailed definition leaseMs o index step record).Leased known owner := by
  apply leased_write hknown (by simp [Wait.carries, howner]) _
    (leased_invalidRetryPolicy hknown howner)
  intro input hinput
  split_ifs at hinput
  · exact ⟨(saveStep_eq_some hinput).1, (saveStep_lease hinput).1.trans howner⟩
  · obtain ⟨delay, -, hinput⟩ := Option.bind_eq_some_iff.mp hinput
    obtain ⟨now, -, hinput⟩ := Option.bind_eq_some_iff.mp hinput
    obtain ⟨nextAttemptAt, -, hinput⟩ := Option.bind_eq_some_iff.mp hinput
    exact ⟨(saveStep_eq_some hinput).1, (saveStep_lease hinput).1.trans howner⟩

theorem leased_compensateFrom (hknown : known record) (howner : record.owner = some owner) :
    (compensateFrom definition leaseMs o record index).Leased known owner := by
  have hstop : (write .compensateStop (saveState leaseMs o 0 record .manualReview)
      release).Leased known owner :=
    leased_saveState hknown howner rfl (fun _ _ => rfl) leased_release
  induction index with
  | zero => exact leased_saveState hknown howner rfl (fun _ _ => rfl) leased_release
  | succ index ih =>
    unfold compensateFrom
    split
    · exact leased_release
    split
    · exact ih
    split
    · exact ih
    split
    · exact leased_release
    split
    · exact hstop
    split
    · split
      · exact leased_release
      · exact hstop
    have hthrown (step : SagaStepRecord V) :
        (compensationFailed definition leaseMs o index step record).Leased known owner :=
      leased_compensationFailed hknown howner
    dsimp only
    split
    · exact hthrown _
    · exact leased_saveStep hknown howner (by simp [Wait.carries]) (fun _ _ => rfl) (hthrown _)

theorem leased_compensateClaimed (hknown : known record) (howner : record.owner = some owner) :
    (compensateClaimed definition leaseMs o record).Leased known owner := by
  unfold compensateClaimed
  split
  · split
    · exact leased_release
    · exact leased_saveState hknown howner rfl (fun _ _ => rfl) leased_release
  split
  · exact leased_compensateFrom hknown howner
  · exact leased_saveState hknown howner rfl (fun _ _ => rfl) leased_release

theorem leased_executionFailed {began : Bool} {notCommitted : Option JSString} :
    (executionFailed effectId began notCommitted : Next V).Leased known owner :=
  leased_get rfl

theorem leased_stepLoaded {name : JSString} {compensationArgs : V} (hknown : known record)
    (howner : record.owner = some owner) :
    (stepLoaded leaseMs o name compensationArgs record).Leased known owner := by
  unfold stepLoaded
  split
  · exact leased_finished
  split
  · split
    · exact leased_saveState hknown howner rfl (fun _ _ => rfl) leased_finished
    · exact leased_finished
  dsimp only
  split
  · exact leased_executionFailed
  apply leased_write hknown (by simp [Wait.carries]) _ leased_executionFailed
  intro input hinput
  obtain ⟨now, -, hinput⟩ := Option.bind_eq_some_iff.mp hinput
  exact ⟨(save_eq_some _ hinput).1, (save_lease hinput).1.trans howner⟩

theorem leased_executionCommitted {result : V} (hknown : known record)
    (howner : record.owner = some owner) :
    (executionCommitted leaseMs o effectId result record).Leased known owner := by
  unfold executionCommitted
  dsimp only
  split
  · exact leased_executionFailed
  · exact leased_saveStep hknown howner (by simp [Wait.carries]) (fun _ _ => rfl)
      leased_executionFailed

theorem leased_failureLoaded {began : Bool} {notCommitted : Option JSString} (hknown : known record)
    (howner : record.owner = some owner) :
    (failureLoaded leaseMs o effectId began notCommitted record).Leased known owner := by
  unfold failureLoaded
  dsimp only
  split
  · exact leased_finished
  · exact leased_saveStep hknown howner (by simp [Wait.carries]) (fun _ _ => rfl) leased_finished

theorem renewed_of_keepsLease (h : keepsLease leaseMs o record = true) :
    renewed leaseMs (o.now 1) record = record.leaseUntil := by
  unfold renewed
  rcases (Bool.or_eq_true_iff.mp h) with hnone | hsame
  · simp [Option.isNone_iff_eq_none.mp hnone]
  · rw [eq_of_beq hsame, ite_self]

theorem leased_resolutionLoaded {resolution : Resolution V} (hknown : known record)
    (hkeeps : keepsLease leaseMs o record = true) :
    (resolutionLoaded definition leaseMs o resolution record).Leased known owner := by
  unfold resolutionLoaded
  dsimp only
  split
  · exact leased_finished
  split
  · exact leased_finished
  apply leased_write hknown (by simp [Wait.carries]) _ leased_finished
  intro input hinput
  obtain ⟨howner, hlease⟩ := saveStep_lease hinput
  exact ⟨(saveStep_eq_some hinput).1, howner, hlease.trans (renewed_of_keepsLease hkeeps)⟩

theorem leased_resumeStart : (resumeStart o : Next V).Leased known owner := by
  unfold resumeStart
  split
  · exact leased_release
  · exact leased_get rfl

theorem leased_compensateStart : (compensateStart o : Next V).Leased known owner := by
  unfold compensateStart
  split
  · exact leased_release
  · exact leased_get rfl

theorem leased_resumeClaimed : (resumeClaimed o : Next V).Leased known owner := by
  unfold resumeClaimed
  split
  · exact leased_get rfl
  · exact ⟨by simp [Wait.carries], by simp, by simp⟩

theorem leased_claimed {owned : Next V} (hknown : known record) (hcarries : wait.carries = none)
    (hown : ∀ base next : SagaRecord V, WritesAs owner base next wait = (next.owner = some owner))
    (howned : record.owner = some owner → owned.Leased known owner) :
    (claimed leaseMs o owner record wait owned).Leased known owner := by
  unfold claimed
  split
  · exact leased_release
  · rename_i hclaim
    exact howned (owner_of_claim_none hclaim)
  · rename_i input hclaim
    refine ⟨by simp [hcarries], ?_, by simp⟩
    rintro _ ⟨⟩
    refine ⟨record, hknown, (claim_eq_some hclaim).1, ?_⟩
    rw [hown]
    exact claim_owner hclaim

theorem leased_readAnswered (hknown : ∀ record ∈ found, known record)
    (hkeeps : ∀ resolution record, thread.wait = .resolveLoad resolution → found = some record →
      keepsLease thread.leaseMs o record = true) :
    (readAnswered definition sagaId thread o found).Leased known thread.owner := by
  unfold readAnswered
  split
  · split
    · exact leased_release
    rename_i record hload
    split
    · exact leased_release
    · exact leased_claimed (hknown _ (loadFor_eq_some hload)) rfl (fun _ _ => rfl)
        fun _ => leased_resumeClaimed
  · split
    · exact leased_get rfl
    rename_i record hload
    split
    · rename_i howned
      exact leased_saveState (hknown _ (load_eq_some hload)) howned.1 rfl (fun _ _ => rfl)
        (leased_get rfl)
    · exact leased_release
  · split
    · exact leased_release
    split
    · exact leased_release
    · exact leased_compensateStart
  · split
    · exact leased_release
    rename_i record hload
    split
    · exact leased_release
    · have hrecord := hknown _ (loadFor_eq_some hload)
      exact leased_claimed hrecord rfl (fun _ _ => rfl) (leased_compensateClaimed hrecord)
  · split
    · exact leased_finished
    rename_i record hload
    apply leased_write (hknown _ (loadOwned_eq_some hload)) (by simp [Wait.carries]) _
      leased_finished
    intro input hinput
    obtain ⟨now, -, hinput⟩ := Option.bind_eq_some_iff.mp hinput
    exact ⟨(save_eq_some _ hinput).1, owner_of_loadOwned hload, (save_lease hinput).1⟩
  · split
    · exact leased_finished
    · rename_i record hload
      exact leased_stepLoaded (hknown _ (loadOwned_eq_some hload)) (owner_of_loadOwned hload)
  · split
    · exact leased_executionFailed
    · rename_i record hload
      exact leased_executionCommitted (hknown _ (loadOwned_eq_some hload))
        (owner_of_loadOwned hload)
  · split
    · exact leased_finished
    · rename_i record hload
      exact leased_failureLoaded (hknown _ (loadOwned_eq_some hload)) (owner_of_loadOwned hload)
  · rename_i resolution hwait
    split
    · exact leased_finished
    · rename_i record hload
      exact leased_resolutionLoaded (hknown _ (loadFor_eq_some hload))
        (hkeeps resolution record hwait (loadFor_eq_some hload))
  · exact leased_finished

theorem leased_saveAccepted (hknown : known input.record)
    (hissued : IssuesAs known thread.owner input thread.wait) :
    (saveAccepted definition thread o input.record).Leased known thread.owner := by
  obtain ⟨base, -, -, howner⟩ := hissued
  unfold saveAccepted
  split <;> rename_i hwait <;> try rw [hwait] at howner
  · exact leased_resumeClaimed
  · exact leased_compensateClaimed hknown howner
  · exact leased_compensateFrom hknown howner
  · refine ⟨?_, by simp, by simp⟩
    rintro _ ⟨⟩
    exact howner
  · exact leased_compensateFrom hknown howner
  · split
    · exact leased_executionFailed
    · exact ⟨by simp [Wait.carries], by simp, by simp⟩
  all_goals first | exact leased_finished | exact leased_release

theorem leased_saveRefused {raised : Bool} (hknown : ∀ record ∈ thread.wait.carries, known record)
    (hcarries : ∀ record ∈ thread.wait.carries, record.owner = some thread.owner) :
    (saveRefused definition thread o raised).Leased known thread.owner := by
  unfold saveRefused
  split <;> rename_i hwait <;> try rw [hwait] at hknown hcarries
  · split
    · exact leased_get rfl
    · exact leased_release
  · split
    · exact leased_get rfl
    · exact leased_release
  · exact leased_compensationFailed (hknown _ rfl) (hcarries _ rfl)
  · exact leased_compensationFailed (hknown _ rfl) (hcarries _ rfl)
  · exact leased_invalidRetryPolicy (hknown _ rfl) (hcarries _ rfl)
  · exact leased_executionFailed
  · exact leased_executionFailed
  · exact leased_executionFailed
  all_goals first | exact leased_finished | exact leased_release

theorem leased_settle {outcome : Outcome V} (hknown : ∀ record ∈ thread.wait.carries, known record)
    (hcarries : ∀ record ∈ thread.wait.carries, record.owner = some thread.owner) :
    (settle definition thread o outcome).Leased known thread.owner := by
  unfold settle
  split
  · exact leased_get rfl
  · exact leased_release
  · exact leased_get rfl
  · exact leased_get rfl
  · exact leased_executionFailed
  · exact leased_executionFailed
  · rename_i hwait
    rw [hwait] at hknown hcarries
    exact leased_saveStep (hknown _ rfl) (hcarries _ rfl) (by simp [Wait.carries])
      (fun _ _ => rfl) (leased_compensationFailed (hknown _ rfl) (hcarries _ rfl))
  · rename_i hwait _
    rw [hwait] at hknown hcarries
    exact leased_compensationFailed (hknown _ rfl) (hcarries _ rfl)
  · exact leased_finished

theorem leased_start {call : Call V} (h : start definition sagaId o call = some next) :
    next.Leased known owner := by
  cases call with
  | execute input =>
    simp only [start, Option.ite_none_right_eq_some, Option.map_eq_some_iff] at h
    obtain ⟨-, now, -, rfl⟩ := h
    exact ⟨by simp [Wait.carries], by simp, by simp⟩
  | resume =>
    obtain rfl := Option.some.inj h
    split
    · exact leased_resumeStart
    · exact leased_release
  | compensate =>
    obtain rfl := Option.some.inj h
    split
    · exact leased_compensateStart
    · exact leased_release
  | resolveAmbiguity resolution =>
    simp only [start, Option.ite_none_right_eq_some, Option.some.injEq] at h
    obtain ⟨-, rfl⟩ := h
    exact leased_get rfl

end Calls

theorem IssuesAs.mono {known' : SagaRecord V → Prop} (h : IssuesAs known owner input wait)
    (hsub : ∀ record, known record → known' record) : IssuesAs known' owner input wait := by
  obtain ⟨base, hknown, hrest⟩ := h
  exact ⟨base, hsub base hknown, hrest⟩

structure Thread.Leased (s : State V) (thread : Thread V) : Prop where
  carries : ∀ record ∈ thread.wait.carries, record.owner = some thread.owner
  issued : ∀ input, thread.operation = .compareAndSet input →
    IssuesAs (Known s) thread.owner input thread.wait
  saved : ∀ input, thread.operation = .answered (.saved input true) →
    IssuesAs (Known s) thread.owner input thread.wait

/-- Every write that was issued, and every write in the log, is the own write of a call or
leaves the lease alone. -/
structure Leased (s : State V) : Prop where
  threads : ∀ (i : ℕ) (thread : Thread V), s.threads[i]? = some thread → thread.Leased s
  lost : ∀ i wait input, (i, wait, .compareAndSet input) ∈ s.lost →
    ∃ thread, s.threads[i]? = some thread ∧ IssuesAs (Known s) thread.owner input wait
  renewed : RenewedByOwner s

theorem leased_init : Leased ({} : State V) where
  threads := by simp
  lost := by simp
  renewed := by simp [RenewedByOwner]

theorem Thread.Leased.extends (h : thread.Leased s) (hst : Extends s t) : thread.Leased t where
  carries := h.carries
  issued input hinput := (h.issued input hinput).mono hst.known
  saved input hinput := (h.saved input hinput).mono hst.known

theorem Next.Leased.resumed (h : next.Leased (Known s) thread.owner) :
    Thread.Leased s { thread with
      wait := next.wait
      operation := next.operation } where
  carries := h.carries
  issued := h.issued
  saved _ hinput := absurd hinput (h.unanswered _)

def Follows (s t : State V) : Prop :=
  ∀ (i : ℕ) (thread : Thread V), s.threads[i]? = some thread →
    ∃ thread', t.threads[i]? = some thread' ∧ thread'.owner = thread.owner

theorem Follows.refl : Follows s s := fun _ thread h => ⟨thread, h, rfl⟩

theorem follows_set {thread' : Thread V} (hthread : s.threads[i]? = some thread)
    (ht : t.threads = s.threads.set i thread') (howner : thread'.owner = thread.owner) :
    Follows s t := by
  rintro k other hother
  rw [ht, List.getElem?_set]
  split_ifs with hk hlt
  · subst hk
    obtain rfl := Option.some.inj (hthread.symm.trans hother)
    exact ⟨thread', rfl, howner⟩
  · subst hk
    exact absurd (List.getElem?_eq_some_iff.mp hother).1 hlt
  · exact ⟨other, hother, rfl⟩

theorem Leased.follow (h : Leased s) (hst : Extends s t) (hfollows : Follows s t)
    (hthreads : ∀ (i : ℕ) (thread : Thread V), t.threads[i]? = some thread →
      s.threads[i]? = some thread ∨ thread.Leased t)
    (hlost : ∀ i wait input, (i, wait, .compareAndSet input) ∈ t.lost →
      (i, wait, .compareAndSet input) ∈ s.lost ∨
        ∃ thread, s.threads[i]? = some thread ∧ IssuesAs (Known t) thread.owner input wait)
    (hlog : ∀ i wait base record, .wrote i wait base record ∈ t.log →
      .wrote i wait base record ∈ s.log ∨
        ∃ thread, s.threads[i]? = some thread ∧ WritesAs thread.owner base record wait) :
    Leased t where
  threads i thread hthread := by
    rcases hthreads i thread hthread with hold | hnew
    · exact (h.threads i thread hold).extends hst
    · exact hnew
  lost i wait input hmem := by
    obtain ⟨thread, hthread, hissued⟩ : ∃ thread, s.threads[i]? = some thread ∧
        IssuesAs (Known t) thread.owner input wait := by
      rcases hlost i wait input hmem with hold | hnew
      · obtain ⟨thread, hthread, hissued⟩ := h.lost i wait input hold
        exact ⟨thread, hthread, hissued.mono hst.known⟩
      · exact hnew
    obtain ⟨thread', hthread', howner⟩ := hfollows i thread hthread
    exact ⟨thread', hthread', howner ▸ hissued⟩
  renewed i wait base record hmem := by
    obtain ⟨thread, hthread, hwrites⟩ : ∃ thread, s.threads[i]? = some thread ∧
        WritesAs thread.owner base record wait :=
      (hlog i wait base record hmem).elim (h.renewed i wait base record) id
    obtain ⟨thread', hthread', howner⟩ := hfollows i thread hthread
    exact ⟨thread', hthread', howner ▸ hwrites⟩

theorem Leased.performed {operation : Operation V} {answer : Answer V} (h : Leased s)
    (hthread : s.threads[i]? = some thread)
    (hissued : ∀ input, operation = .compareAndSet input →
      IssuesAs (Known s) thread.owner input wait)
    (hperformed : Performed s i wait operation answer t) : Leased t := by
  have hst := extends_of_performed hperformed
  cases hperformed with
  | loaded => exact h
  | notCreated => exact h
  | refused => exact h
  | created =>
    exact h.follow hst .refl (fun _ _ => Or.inl) (fun _ _ _ => Or.inl) fun _ _ _ _ => Or.inl
  | @saved input base hstored hversion hnext =>
    apply h.follow hst .refl (fun _ _ => Or.inl) (fun _ _ _ => Or.inl)
    rintro k wait' base' record hmem
    rcases List.mem_cons.mp hmem with heq | hmem
    · obtain ⟨rfl, rfl, rfl, rfl⟩ : _ ∧ _ ∧ _ ∧ _ := by simpa using heq
      obtain ⟨read, ⟨stored, hsome, -, hsame⟩, hread, hwrites⟩ := hissued input rfl
      obtain rfl := Option.some.inj (hstored.symm.trans hsome)
      obtain rfl := hsame (hread.symm.trans hversion.symm)
      exact Or.inr ⟨thread, hthread, hwrites⟩
    · exact Or.inl hmem

theorem Leased.advance (h : Leased s) (hthread : s.threads[i]? = some thread)
    (hnext : next.Leased (Known s) thread.owner) (uuids : List JSString) :
    Leased { s.advance i thread next with uuids := uuids } := by
  have hthreads : (s.advance i thread next).threads = s.threads.set i { thread with
      wait := next.wait
      operation := next.operation } := by
    unfold State.advance State.note
    split <;> rfl
  have hstored : (s.advance i thread next).stored = s.stored := by
    unfold State.advance State.note
    split <;> rfl
  have hlost : (s.advance i thread next).lost = s.lost := by
    unfold State.advance State.note
    split <;> rfl
  have hlog : s.log ⊆ (s.advance i thread next).log ∧ ∀ j wait base record,
      .wrote j wait base record ∈ (s.advance i thread next).log →
        .wrote j wait base record ∈ s.log := by
    unfold State.advance State.note
    split <;> simp [List.subset_def] <;> tauto
  have hst : Extends s { s.advance i thread next with uuids := uuids } := by
    refine ⟨?_, hlog.1⟩
    rintro record ⟨stored, hsome, hrest⟩
    exact ⟨stored, hstored.trans hsome, hrest⟩
  apply h.follow hst (follows_set hthread hthreads rfl)
  · rintro k other hother
    rw [hthreads] at hother
    rcases getElem?_set_cases hother with ⟨-, rfl⟩ | ⟨-, hother⟩
    · exact Or.inr (hnext.resumed.extends hst)
    · exact Or.inl hother
  · exact fun k wait input hmem => Or.inl (hlost ▸ hmem)
  · exact fun k wait base record hmem => Or.inl (hlog.2 k wait base record hmem)

theorem Leased.await {operation : Operation V} (h : Leased s)
    (hthread : s.threads[i]? = some thread)
    (hleased : Thread.Leased s { thread with operation := operation }) :
    Leased (s.await i thread operation) := by
  have hst : Extends s (s.await i thread operation) := ⟨fun _ => id, fun _ => id⟩
  apply h.follow hst (follows_set hthread rfl rfl)
  · rintro k other hother
    rcases getElem?_set_cases hother with ⟨-, rfl⟩ | ⟨-, hother⟩
    · exact Or.inr (hleased.extends hst)
    · exact Or.inl hother
  · exact fun _ _ _ => Or.inl
  · exact fun _ _ _ _ => Or.inl

theorem Leased.fork {uuids : List JSString} (h : Leased s)
    (hnext : next.Leased (Known s) owner) :
    Leased { s.fork owner leaseMs next with uuids := uuids } := by
  have hst : Extends s { s.fork owner leaseMs next with uuids := uuids } :=
    ⟨fun _ => id, fun _ => id⟩
  apply h.follow hst
  · rintro k other hother
    refine ⟨other, ?_, rfl⟩
    exact (List.getElem?_append_left (List.getElem?_eq_some_iff.mp hother).1).trans hother
  · rintro k other hother
    rw [State.fork, List.getElem?_append] at hother
    split_ifs at hother
    · exact Or.inl hother
    · rw [List.getElem?_singleton] at hother
      split_ifs at hother
      obtain rfl := Option.some.inj hother
      exact Or.inr ⟨hnext.carries, hnext.issued, fun _ hinput => absurd hinput (hnext.unanswered _)⟩
  · exact fun _ _ _ => Or.inl
  · exact fun _ _ _ _ => Or.inl

theorem Leased.step {event : Event V} (hinv : Inv definition s) (h : Leased s)
    (hkeeps : eventKeepsLease s event = true) (hstep : step definition sagaId s event = some t) :
    Leased t := by
  cases event with
  | call call owner leaseMs o =>
    simp only [SagaEngine.step] at hstep
    split_ifs at hstep
    obtain ⟨next, hnext, rfl⟩ := Option.map_eq_some_iff.mp hstep
    exact h.fork (leased_start hnext)
  | step context name compensationArgs =>
    simp only [SagaEngine.step] at hstep
    split at hstep
    · cases hstep
    split_ifs at hstep
    obtain rfl := Option.some.inj hstep
    exact h.fork (leased_get rfl)
  | perform i =>
    obtain ⟨thread, hthread, hstep⟩ := Option.bind_eq_some_iff.mp hstep
    obtain ⟨⟨answer, u⟩, hperform, rfl⟩ := Option.map_eq_some_iff.mp hstep
    have hperformed := performed_of_perform hperform
    have hst := extends_of_performed hperformed
    have hleased := h.threads i thread hthread
    have hu := h.performed hthread hleased.issued hperformed
    have hthread' : u.threads[i]? = some thread := by
      generalize thread.operation = operation at hperformed
      cases hperformed <;> exact hthread
    apply hu.await hthread'
    refine ⟨hleased.carries, by simp, ?_⟩
    rintro input hanswer
    have hoperation : thread.operation = .compareAndSet input := by
      generalize thread.operation = operation at hperformed
      cases hperformed <;> simp_all
    exact (hleased.issued input hoperation).mono hst.known
  | raise i =>
    obtain ⟨thread, hthread, hstep⟩ := Option.bind_eq_some_iff.mp hstep
    have hleased := h.threads i thread hthread
    split at hstep
    · cases hstep
    obtain rfl := Option.some.inj hstep
    have hst : Extends s { s with lost := s.lost ++ [(i, thread.wait, thread.operation)] } :=
      ⟨fun _ => id, fun _ => id⟩
    have hlose : Leased { s with lost := s.lost ++ [(i, thread.wait, thread.operation)] } := by
      apply h.follow hst .refl (fun _ _ => Or.inl)
      · rintro k wait input hmem
        rcases List.mem_append.mp hmem with hmem | hmem
        · exact Or.inl hmem
        · obtain ⟨rfl, rfl, hoperation⟩ : _ ∧ _ ∧ _ := by simpa using hmem
          exact Or.inr ⟨thread, hthread, hleased.issued input hoperation.symm⟩
      · exact fun _ _ _ _ => Or.inl
    exact hlose.await hthread ⟨hleased.carries, by simp, by simp⟩
  | performLost k =>
    obtain ⟨⟨i, wait, operation⟩, hlost, hstep⟩ := Option.bind_eq_some_iff.mp hstep
    obtain ⟨⟨answer, u⟩, hperform, rfl⟩ := Option.map_eq_some_iff.mp hstep
    have hmem := List.mem_of_getElem? hlost
    have hperformed := performed_of_perform hperform
    cases operation with
    | compareAndSet input =>
      obtain ⟨thread, hthread, hissued⟩ := h.lost i wait input hmem
      apply h.performed hthread _ hperformed
      rintro _ ⟨⟩
      exact hissued
    | create record =>
      cases hperformed with
      | notCreated => exact h
      | created =>
        exact h.follow (extends_of_performed (performed_of_perform hperform)) .refl
          (fun _ _ => Or.inl) (fun _ _ _ => Or.inl) fun _ _ _ _ => Or.inl
    | get =>
      cases hperformed
      exact h
    | _ => cases hperformed
  | proceed i o =>
    obtain ⟨thread, hthread, hstep⟩ := Option.bind_eq_some_iff.mp hstep
    have hsound := hinv.threads i thread hthread
    have hleased := h.threads i thread hthread
    split at hstep
    case h_2 => cases hstep
    rename_i answer hanswer
    split_ifs at hstep
    obtain rfl := Option.some.inj hstep
    apply h.advance hthread
    cases answer with
    | created accepted =>
      simp only [proceed]
      split
      · exact leased_resumeStart
      · exact leased_finished
    | loaded found =>
      apply leased_readAnswered
      · rintro record hrecord
        exact hsound.loaded record (by rw [hanswer, Option.mem_def.mp hrecord])
      · rintro resolution record hwait rfl
        obtain ⟨owner, leaseMs, wait, operation⟩ := thread
        obtain rfl : wait = .resolveLoad resolution := hwait
        obtain rfl : operation = .answered (.loaded (some record)) := hanswer
        simpa [eventKeepsLease, hthread] using hkeeps
    | saved input accepted =>
      cases accepted with
      | false => exact leased_saveRefused hsound.carries hleased.carries
      | true =>
        exact leased_saveAccepted (hsound.saved input hanswer).1 (hleased.saved input hanswer)
    | raised => exact leased_saveRefused hsound.carries hleased.carries
  | settle i o outcome =>
    obtain ⟨thread, hthread, hstep⟩ := Option.bind_eq_some_iff.mp hstep
    split at hstep
    case h_2 => cases hstep
    obtain rfl := Option.some.inj hstep
    have hnext : (settle definition thread o outcome).Leased (Known s) thread.owner :=
      leased_settle (hinv.threads i thread hthread).carries (h.threads i thread hthread).carries
    have hadvance := h.advance hthread hnext s.uuids
    rwa [← (advance_uuids : (s.advance i thread (settle definition thread o outcome)).uuids = _)]
      at hadvance

theorem renewedByOwner_of_run {es : List (Event V)}
    (hrun : run (step definition sagaId) ({} : State V) es = some s)
    (hkeeps : Along (step definition sagaId) (fun s e => eventKeepsLease s e = true) {} es) :
    RenewedByOwner s := by
  have hboth : Inv definition s ∧ Leased s :=
    run_invariant_along (I := fun s : State V => Inv definition s ∧ Leased s)
      (fun _ _ _ h hP hstep => ⟨h.1.step hstep, h.2.step h.1 hP hstep⟩) hrun hkeeps
      ⟨inv_init, leased_init⟩
  exact hboth.2.renewed

end Nifra.Durable.SagaEngine
