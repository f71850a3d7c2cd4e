import Nifra.Tools.Deeds

/-! # The stops of a call

Where a call goes on, its account stays sound, and nothing but the answer of `begin` gives it a
reservation or enters its executor.
-/

namespace Nifra.Tools

open Idempotency (EntryKey)

variable {O : Type*}

namespace Call
variable {c : Call O}

def facts (c : Call O) : Facts :=
  ⟨c.tool, c.options, c.aborted, c.reservation, c.executed, c.deeds⟩

structure Sound (c : Call O) : Prop where
  facts : c.facts.Sound
  holds : c.stop.Holds c.facts

@[simp] theorem facts_record (stage : EvidenceStage) (outcome : EvidenceOutcome)
    (code : Option ErrorCode) : (c.record stage outcome code).facts = c.facts := by
  unfold record
  split_ifs <;> rfl

theorem sound_finish (h : c.facts.Sound) (hsettled : c.facts.Settled) {outcome : CallOutcome O}
    (hearned : outcome.Earned c.facts) : (c.finish outcome).Sound :=
  ⟨h, hsettled, hearned⟩

theorem sound_record_finish (h : c.facts.Sound) (hsettled : c.facts.Settled)
    {outcome : CallOutcome O} (hearned : outcome.Earned c.facts) (stage : EvidenceStage)
    (result : EvidenceOutcome) (code : Option ErrorCode) :
    ((c.record stage result code).finish outcome).Sound := by
  apply sound_finish
  · rwa [facts_record]
  · rwa [facts_record]
  · rwa [facts_record]

theorem earned_error (f : Facts) (error : ToolError) :
    CallOutcome.Earned f (.error error : CallOutcome O) :=
  trivial

theorem sound_deny (h : c.facts.Sound) (hsettled : c.facts.Settled) (stage : EvidenceStage)
    (code : ErrorCode) : (c.deny stage code).Sound :=
  sound_record_finish h hsettled (earned_error _ _) _ _ _

theorem sound_throw (h : c.facts.Sound) (hstop : c.facts.Running ∨ c.facts.Unentered)
    (abort : Bool) : (c.throw abort).Sound := by
  refine ⟨h, ?_⟩
  rcases hstop with hrunning | hunentered
  · have hthrow : (c.throw abort).stop = .completing (.caught abort) := if_pos hrunning.1
    rw [hthrow]
    exact ⟨hrunning, trivial⟩
  · have hthrow : (c.throw abort).stop = .abandoning (.caught abort) :=
      if_neg (Bool.eq_false_iff.mp hunentered.1)
    rw [hthrow]
    exact ⟨hunentered, trivial⟩

theorem sound_stop {s : Stop O} (h : c.facts.Sound) (hs : s.Holds c.facts) :
    Sound { c with stop := s } :=
  ⟨h, hs⟩

theorem sound_approve (h : c.facts.Sound) (hfresh : c.facts.Fresh) (hcleared : c.facts.Cleared)
    (hceiling : c.facts.UnderCeiling)
    (hpolicy : c.facts.tool.capabilityCeiling.isSome → Deed.policySatisfied ∈ c.facts.deeds) :
    c.approve.Sound := by
  unfold approve
  split
  · exact sound_deny h hfresh.settled _ _
  · rename_i happroval
    have happroved : c.facts.Approved := ⟨hcleared, hceiling, hpolicy, happroval⟩
    simp only
    generalize hc' : c.record .approval _ none = c'
    have hfacts : c'.facts = c.facts := by rw [← hc', facts_record]
    rw [← hfacts] at h hfresh happroved
    split
    · rename_i hnone
      have hnone' : c'.facts.tool.idempotency = none := hnone
      exact sound_stop h ⟨hfresh, happroved, hnone'⟩
    · split_ifs
      · exact sound_deny h hfresh.settled _ _
      · exact sound_stop h ⟨hfresh, happroved⟩
      · exact sound_deny h hfresh.settled _ _
      · exact sound_deny h hfresh.settled _ _

theorem sound_afterInput (h : c.facts.Sound) (hfresh : c.facts.Fresh)
    (a : Except Bool (Option (List JSString))) : (c.afterInput a).Sound := by
  match a with
  | .error abort => exact sound_throw h (Or.inr hfresh.unentered) abort
  | .ok (some issues) =>
    exact sound_record_finish h hfresh.settled (earned_error _ _) _ _ _
  | .ok none =>
    unfold afterInput
    simp only
    generalize hc' : record { c with deeds := .inputValid :: c.deeds } .input .passed none = c'
    have hfacts : c'.facts = { c.facts with deeds := .inputValid :: c.facts.deeds } := by
      rw [← hc', facts_record]
      rfl
    have h' : c'.facts.Sound := hfacts ▸ h.plain Facts.plain_inputValid
    have hfresh' : c'.facts.Fresh := hfacts ▸ hfresh.plain Facts.plain_inputValid
    split_ifs with haborted hcapability
    · exact sound_deny h' hfresh'.settled _ _
    · have hcleared : c'.facts.Cleared := by
        constructor
        · rw [hfacts]
          exact List.mem_cons_self
        · exact hcapability
      generalize hc'' : c'.record .capability .passed none = c''
      have hfacts' : c''.facts = c'.facts := by rw [← hc'', facts_record]
      rw [← hfacts'] at h' hfresh' hcleared
      split
      · rename_i hnone
        have hceiling : c''.facts.tool.capabilityCeiling = none := hnone
        refine sound_approve h' hfresh' hcleared ?_ ?_
        · intro ceiling hmem
          rw [hceiling] at hmem
          cases hmem
        · intro hsome
          rw [hceiling] at hsome
          cases hsome
      · rename_i ceiling hsome
        split_ifs with hdenied
        · exact sound_deny h' hfresh'.settled _ _
        · rw [not_or, not_not, not_not] at hdenied
          refine sound_stop h' ⟨hfresh', hcleared, ?_⟩
          intro ceiling' hmem
          have hceiling : c''.facts.tool.capabilityCeiling = some ceiling := hsome
          rw [hceiling] at hmem
          obtain rfl := Option.some.inj hmem
          exact ⟨List.contains_iff_mem.mp hdenied.1, hdenied.2⟩
    · exact sound_deny h' hfresh'.settled _ _

theorem sound_afterPolicy (h : c.facts.Sound) (hfresh : c.facts.Fresh)
    (hcleared : c.facts.Cleared) (hceiling : c.facts.UnderCeiling) (a : Except Bool Bool) :
    (c.afterPolicy a).Sound := by
  match a with
  | .error abort => exact sound_throw h (Or.inr hfresh.unentered) abort
  | .ok false => exact sound_deny h hfresh.settled _ _
  | .ok true =>
    unfold afterPolicy
    simp only
    apply sound_approve
    · rw [facts_record]
      exact h.plain Facts.plain_policySatisfied
    · rw [facts_record]
      exact hfresh.plain Facts.plain_policySatisfied
    · rw [facts_record]
      exact ⟨List.mem_cons_of_mem _ hcleared.1, hcleared.2⟩
    · rw [facts_record]
      exact hceiling
    · rw [facts_record]
      exact fun _ => List.mem_cons_self

theorem sound_afterKey (h : c.facts.Sound) (hfresh : c.facts.Fresh)
    (happroved : c.facts.Approved) (a : Except Bool JSString) : (c.afterKey a).Sound := by
  match a with
  | .error abort => exact sound_throw h (Or.inr hfresh.unentered) abort
  | .ok key =>
    unfold afterKey
    simp only
    split_ifs
    · exact sound_stop h ⟨hfresh, happroved⟩
    · exact sound_deny h hfresh.settled _ _

theorem sound_enter (h : c.facts.Sound) (hunentered : c.facts.Unentered)
    (happroved : c.facts.Approved)
    (hreserved : c.facts.tool.idempotency.isSome → Deed.reserved ∈ c.facts.deeds)
    (a : Except Bool Bool) : (c.enter a).Sound := by
  unfold enter
  simp only
  generalize hc' : c.record .idempotency _ none = c'
  have hfacts : c'.facts = c.facts := by rw [← hc', facts_record]
  rw [← hfacts] at h hunentered happroved hreserved
  split
  · exact sound_throw h (Or.inr hunentered) _
  · exact sound_stop h ⟨hunentered, trivial⟩
  · generalize hc'' : record { c' with deeds := .consumed :: c'.deeds } .budget _ none = c''
    have hfacts' : c''.facts = { c'.facts with deeds := .consumed :: c'.facts.deeds } := by
      rw [← hc'', facts_record]
      rfl
    have h' : c''.facts.Sound := hfacts' ▸ h.plain Facts.plain_consumed
    have hunentered' : c''.facts.Unentered :=
      ⟨hfacts' ▸ hunentered.1, hfacts' ▸ hunentered.2.plain Facts.plain_consumed⟩
    split_ifs with haborted hdry
    · exact sound_stop h' ⟨hunentered', trivial⟩
    · exact sound_stop h' ⟨hunentered', hunentered'.1, hdry⟩
    · have hexecuted : c''.facts.executed = false := hunentered'.1
      have hadmitted : c''.facts.AdmittedBy c''.facts.deeds := by
        obtain ⟨⟨hinput, hcapability⟩, hceiling, hpolicy, happroval⟩ := happroved
        refine ⟨?_, ?_, ?_, ?_, ?_, ?_, ?_, ?_, ?_⟩
        · rw [hfacts']
          exact List.mem_cons_of_mem _ hinput
        · rw [hfacts']
          exact hcapability
        · intro ceiling hmem
          rw [hfacts'] at hmem ⊢
          exact hceiling ceiling hmem
        · intro hsome
          rw [hfacts'] at hsome ⊢
          exact List.mem_cons_of_mem _ (hpolicy hsome)
        · rw [hfacts']
          exact happroval
        · intro hsome
          rw [hfacts'] at hsome ⊢
          exact List.mem_cons_of_mem _ (hreserved hsome)
        · rw [hfacts']
          exact List.mem_cons_self
        · exact fun hmem => haborted (h'.aborted hmem)
        · exact Bool.eq_false_iff.mpr hdry
      refine ⟨h'.enter hexecuted hadmitted, rfl, ?_, ?_⟩
      · exact (List.countP_cons_of_neg (by decide)).trans hunentered'.2.1
      · exact (List.countP_cons_of_neg (by decide)).trans hunentered'.2.2

theorem sound_afterBegin (h : c.facts.Sound) (hfresh : c.facts.Fresh)
    (happroved : c.facts.Approved) (input : EntryKey) (result : Except JSError BeginResult)
    (a : Except Bool Bool) : (c.afterBegin input result a).Sound := by
  match result with
  | .error _ => exact sound_throw h (Or.inr hfresh.unentered) _
  | .ok .duplicate => exact sound_deny h hfresh.settled _ _
  | .ok .inFlight => exact sound_deny h hfresh.settled _ _
  | .ok .capacity => exact sound_deny h hfresh.settled _ _
  | .ok (.new value) =>
    unfold afterBegin
    apply sound_enter
    · exact h.reserve hfresh ⟨input, value⟩
    · exact ⟨hfresh.1, hfresh.2.2.plain Facts.plain_reserved⟩
    · exact happroved.cons _ c.aborted
    · exact fun _ => List.mem_cons_self

theorem sound_afterExecute (h : c.facts.Sound) (hrunning : c.facts.Running)
    (a : Except Bool Unit) : (c.afterExecute a).Sound := by
  match a with
  | .error abort => exact sound_throw h (Or.inl hrunning) abort
  | .ok () =>
    unfold afterExecute
    apply sound_stop
    · rwa [facts_record]
    · rw [facts_record]
      exact hrunning

theorem sound_afterOutput (h : c.facts.Sound) (hrunning : c.facts.Running)
    (a : Except Bool (Except (List JSString) O)) : (c.afterOutput a).Sound := by
  match a with
  | .error abort => exact sound_throw h (Or.inl hrunning) abort
  | .ok (.error issues) => exact sound_stop h ⟨hrunning, trivial⟩
  | .ok (.ok value) =>
    unfold afterOutput
    apply sound_stop
    · rw [facts_record]
      exact h.plain Facts.plain_outputValid
    · rw [facts_record]
      exact ⟨⟨hrunning.1, hrunning.2.plain Facts.plain_outputValid⟩, hrunning.1,
        List.mem_cons_self⟩

theorem sound_afterSettled (h : c.facts.Sound) {next : Next O} {completed : Bool}
    (hsettled : c.facts.Settled) (hready : next.Ready c.facts)
    (haccepted : completed = true → c.facts.Accepted) :
    (c.afterSettled next completed).Sound := by
  match next with
  | .denied stage code => exact sound_deny h hsettled _ _
  | .dryRun =>
    have hearned : CallOutcome.Earned c.facts (.ok none : CallOutcome O) := hready
    exact sound_record_finish h hsettled hearned _ _ _
  | .output value =>
    unfold afterSettled
    simp only
    split_ifs with hcompleted
    · exact sound_finish h hsettled ⟨hready.1, hready.2, haccepted hcompleted⟩
    · exact sound_record_finish h hsettled (earned_error _ _) _ _ _
  | .outputInvalid issues =>
    unfold afterSettled
    simp only
    split_ifs
    · exact sound_record_finish h hsettled (earned_error _ _) _ _ _
    · exact sound_record_finish h hsettled (earned_error _ _) _ _ _
  | .caught abort => exact sound_record_finish h hsettled (earned_error _ _) _ _ _

theorem sound_afterFinish (h : c.facts.Sound) {outcome : CallOutcome O}
    (hsettled : c.facts.Settled) (hearned : outcome.Earned c.facts) (sealed : Bool) :
    (c.afterFinish outcome sealed).Sound := by
  cases sealed with
  | false => exact ⟨h, hsettled, trivial⟩
  | true => exact ⟨h, hsettled, hearned⟩

theorem Sound.answer (h : c.Sound) {a : Answer O} {c' : Call O} (ha : c.answer a = some c') :
    c'.Sound := by
  obtain ⟨hfacts, hholds⟩ := h
  unfold Call.answer at ha
  split at ha <;> cases ha
  all_goals
    rename_i hstop
    rw [hstop] at hholds
  · exact sound_afterInput hfacts hholds _
  · exact sound_afterPolicy hfacts hholds.1 hholds.2.1 hholds.2.2 _
  · exact sound_afterKey hfacts hholds.1 hholds.2 _
  · exact sound_afterExecute hfacts hholds _
  · exact sound_afterOutput hfacts hholds _
  · exact sound_afterSettled hfacts hholds.1 hholds.2.1 hholds.2.2
  · exact sound_afterFinish hfacts hholds.1 hholds.2 _

theorem sound_settle_none (h : c.facts.Sound) (hnone : c.reservation = none) {next : Next O}
    (hunsettled : c.facts.Unsettled) (hready : next.Ready c.facts) (completed : Bool) :
    (c.settle next none completed).Sound := by
  refine ⟨h, ?_, hready, ?_⟩
  · have hlength : c.facts.reservation.toList.length = 0 := by
      rw [show c.facts.reservation = none from hnone]
      rfl
    change c.facts.Settled
    unfold Facts.Settled
    rw [hlength]
    split_ifs
    · exact hunsettled
    · exact ⟨hunsettled.2, hunsettled.1⟩
  · rintro - r hr
    exact absurd (hnone.symm.trans hr) nofun

theorem sound_settle_abandoned (h : c.facts.Sound) {r : Reservation}
    (hr : c.reservation = some r) {next : Next O} (hunentered : c.facts.Unentered)
    (hready : next.Ready c.facts) : (c.settle next (some (.abandoned r)) false).Sound := by
  obtain ⟨hexecuted, habandons, hcompletes⟩ := hunentered
  have hone : 1 = c.facts.reservation.toList.length := by
    rw [show c.facts.reservation = some r from hr]
    rfl
  refine ⟨h.cons (by simp) ?_ ?_, ?_, ?_, by rintro ⟨⟩⟩
  · rintro (haborted | heq)
    · exact haborted
    · cases heq
  · rintro r' accepted (heq | heq)
    · exact hr.trans (congrArg some (Deed.abandoned.inj heq))
    · cases heq
  · have hexecuted' : c.executed = false := hexecuted
    simp only [Facts.Settled, settle, facts, hexecuted', Bool.false_eq_true, if_false]
    refine ⟨(List.countP_cons_of_neg (by simp [Deed.isCompleted])).trans hcompletes, ?_⟩
    exact (List.countP_cons_of_pos rfl).trans ((congrArg (· + 1) habandons).trans hone)
  · cases next with
    | denied stage code => trivial
    | dryRun => exact hready
    | output value => exact Bool.noConfusion (hexecuted.symm.trans hready.1)
    | outputInvalid issues => trivial
    | caught code => trivial

theorem sound_settle_completed (h : c.facts.Sound) {r : Reservation}
    (hr : c.reservation = some r) {next : Next O} (hrunning : c.facts.Running)
    (hready : next.Ready c.facts) (accepted : Bool) :
    (c.settle next (some (.completed r accepted)) accepted).Sound := by
  obtain ⟨hexecuted, habandons, hcompletes⟩ := hrunning
  have hone : 1 = c.facts.reservation.toList.length := by
    rw [show c.facts.reservation = some r from hr]
    rfl
  refine ⟨h.cons (by simp) ?_ ?_, ?_, ?_, ?_⟩
  · rintro (haborted | heq)
    · exact haborted
    · cases heq
  · rintro r' accepted' (heq | heq)
    · cases heq
    · exact hr.trans (congrArg some (Deed.completed.inj heq).1)
  · have hexecuted' : c.executed = true := hexecuted
    simp only [Facts.Settled, settle, facts, hexecuted', if_true]
    refine ⟨(List.countP_cons_of_neg (by simp [Deed.isAbandoned])).trans habandons, ?_⟩
    exact (List.countP_cons_of_pos rfl).trans ((congrArg (· + 1) hcompletes).trans hone)
  · cases next with
    | denied stage code => trivial
    | dryRun => exact Bool.noConfusion (hexecuted.symm.trans hready.1)
    | output value => exact ⟨hready.1, List.mem_cons_of_mem _ hready.2⟩
    | outputInvalid issues => trivial
    | caught code => trivial
  · rintro rfl r' hr'
    obtain rfl := Option.some.inj (hr.symm.trans hr')
    exact List.mem_cons_self

theorem Sound.abort (h : c.Sound) : c.abort.Sound := by
  obtain ⟨hfacts, hholds⟩ := h
  constructor
  · apply hfacts.cons (by simp) (fun _ => rfl)
    rintro r accepted (heq | heq) <;> cases heq
  · exact hholds.afterAbort

def Keeps (c c' : Call O) : Prop := c'.reservation = c.reservation ∧ c'.executed = c.executed

theorem Keeps.refl : c.Keeps c := ⟨rfl, rfl⟩

theorem keeps_stop (s : Stop O) : c.Keeps { c with stop := s } := ⟨rfl, rfl⟩

theorem keeps_abort : c.Keeps c.abort := ⟨rfl, rfl⟩

theorem keeps_settle (next : Next O) (deed : Option Deed) (completed : Bool) :
    c.Keeps (c.settle next deed completed) := ⟨rfl, rfl⟩

theorem Keeps.trans {c' c'' : Call O} (h : c.Keeps c') (h' : c'.Keeps c'') : c.Keeps c'' :=
  ⟨h'.1.trans h.1, h'.2.trans h.2⟩

theorem Keeps.of_facts {c' : Call O} (h : c'.facts = c.facts) : c.Keeps c' :=
  ⟨congrArg Facts.reservation h, congrArg Facts.executed h⟩

theorem keeps_record (stage : EvidenceStage) (outcome : EvidenceOutcome)
    (code : Option ErrorCode) : c.Keeps (c.record stage outcome code) :=
  .of_facts (facts_record stage outcome code)

theorem keeps_deny (stage : EvidenceStage) (code : ErrorCode) : c.Keeps (c.deny stage code) :=
  keeps_record stage .denied (some code)

theorem keeps_throw (abort : Bool) : c.Keeps (c.throw abort) := .refl

theorem keeps_approve : c.Keeps c.approve := by
  unfold approve
  split
  · exact keeps_deny _ _
  · simp only
    generalize hc' : c.record .approval _ none = c'
    have hkeeps : c.Keeps c' := hc' ▸ keeps_record _ _ _
    split
    · exact hkeeps
    · split_ifs
      · exact hkeeps.trans (keeps_deny _ _)
      · exact hkeeps
      · exact hkeeps.trans (keeps_deny _ _)
      · exact hkeeps.trans (keeps_deny _ _)

theorem keeps_afterInput (a : Except Bool (Option (List JSString))) :
    c.Keeps (c.afterInput a) := by
  match a with
  | .error abort => exact keeps_throw abort
  | .ok (some issues) => exact keeps_record .input .denied (some .inputInvalid)
  | .ok none =>
    have hvalid : c.Keeps (record { c with deeds := .inputValid :: c.deeds } .input .passed none) :=
      keeps_record (c := { c with deeds := .inputValid :: c.deeds }) _ _ _
    unfold afterInput
    simp only
    generalize record { c with deeds := .inputValid :: c.deeds } .input .passed none = c' at *
    by_cases haborted : c'.aborted
    · rw [if_pos haborted]
      exact hvalid.trans (keeps_deny _ _)
    rw [if_neg haborted]
    by_cases hcapability : hasCapability c'.options.capabilities c'.tool.capability
    · rw [if_neg (not_not.mpr hcapability)]
      have hcapable := hvalid.trans (keeps_record .capability .passed none)
      generalize c'.record .capability .passed none = c'' at *
      split
      · exact hcapable.trans keeps_approve
      · split_ifs
        · exact hcapable.trans (keeps_deny _ _)
        · exact hcapable
    · rw [if_pos hcapability]
      exact hvalid.trans (keeps_deny _ _)

theorem keeps_afterPolicy (a : Except Bool Bool) : c.Keeps (c.afterPolicy a) := by
  match a with
  | .error abort => exact keeps_throw abort
  | .ok false => exact keeps_deny _ _
  | .ok true =>
    have hsatisfied : c.Keeps
        (record { c with deeds := .policySatisfied :: c.deeds } .policy .passed none) :=
      keeps_record (c := { c with deeds := .policySatisfied :: c.deeds }) _ _ _
    exact hsatisfied.trans keeps_approve

theorem keeps_afterKey (a : Except Bool JSString) : c.Keeps (c.afterKey a) := by
  match a with
  | .error abort => exact keeps_throw abort
  | .ok key =>
    unfold afterKey
    simp only
    split_ifs
    · exact .refl
    · exact keeps_deny _ _

theorem keeps_afterExecute (a : Except Bool Unit) : c.Keeps (c.afterExecute a) := by
  match a with
  | .error abort => exact keeps_throw abort
  | .ok () => exact keeps_record .execution .committed none

theorem keeps_afterFinish (outcome : CallOutcome O) (sealed : Bool) :
    c.Keeps (c.afterFinish outcome sealed) := by
  cases sealed <;> exact .refl

theorem keeps_afterOutput (a : Except Bool (Except (List JSString) O)) :
    c.Keeps (c.afterOutput a) := by
  match a with
  | .error abort => exact keeps_throw abort
  | .ok (.error issues) => exact .refl
  | .ok (.ok value) =>
    exact keeps_record (c := { c with deeds := .outputValid :: c.deeds }) .output .passed none

theorem keeps_afterSettled (next : Next O) (completed : Bool) :
    c.Keeps (c.afterSettled next completed) := by
  match next with
  | .denied stage code => exact keeps_deny _ _
  | .dryRun => exact keeps_record _ _ _
  | .output value =>
    unfold afterSettled
    simp only
    split_ifs
    · exact .refl
    · exact keeps_record .idempotency .failed (some .idempotencyCapacity)
  | .outputInvalid issues =>
    unfold afterSettled
    simp only
    split_ifs
    · exact keeps_record .output .failed (some .outputInvalid)
    · exact keeps_record .idempotency .failed (some .idempotencyCapacity)
  | .caught abort => exact keeps_record _ _ _

theorem keeps_answer {a : Answer O} {c' : Call O} (ha : c.answer a = some c') : c.Keeps c' := by
  unfold Call.answer at ha
  split at ha <;> cases ha
  · exact keeps_afterInput _
  · exact keeps_afterPolicy _
  · exact keeps_afterKey _
  · exact keeps_afterExecute _
  · exact keeps_afterOutput _
  · exact keeps_afterSettled _ _
  · exact keeps_afterFinish _ _

theorem answer_begun (hstop : c.stop = .begun) (a : Answer O) : c.answer a = none := by
  unfold Call.answer
  rw [hstop]
  cases a <;> rfl

theorem keeps_enter (a : Except Bool Bool) : (c.enter a).reservation = c.reservation := by
  unfold enter
  simp only
  have hrecord := (keeps_record (c := c) .idempotency
    (if c.tool.idempotency.isNone then .skipped else .passed) none).1
  generalize c.record .idempotency _ none = c' at *
  split
  · exact hrecord
  · exact hrecord
  · have hbudget := (keeps_record (c := { c' with deeds := .consumed :: c'.deeds }) .budget
      (if c'.tool.cost then .passed else .skipped) none).1
    generalize record { c' with deeds := .consumed :: c'.deeds } .budget _ none = c'' at *
    split_ifs
    · exact hbudget.trans hrecord
    · exact hbudget.trans hrecord
    · exact hbudget.trans hrecord

theorem reservation_afterBegin {input : EntryKey} {result : Except JSError BeginResult}
    {a : Except Bool Bool} {r : Reservation} (hnone : c.reservation = none)
    (hr : (c.afterBegin input result a).reservation = some r) :
    result = .ok (.new r.value) ∧ r.entryKey = input := by
  match result with
  | .error _ => exact absurd (hnone.symm.trans hr) nofun
  | .ok .duplicate => exact absurd (hnone.symm.trans ((keeps_deny _ _).1.symm.trans hr)) nofun
  | .ok .inFlight => exact absurd (hnone.symm.trans ((keeps_deny _ _).1.symm.trans hr)) nofun
  | .ok .capacity => exact absurd (hnone.symm.trans ((keeps_deny _ _).1.symm.trans hr)) nofun
  | .ok (.new value) =>
    obtain rfl : ⟨input, value⟩ = r := Option.some.inj ((keeps_enter a).symm.trans hr)
    exact ⟨rfl, rfl⟩

theorem sound_executeTool (tool : ToolContract) (options : CallOptions)
    (intent : Except Bool Unit) : (executeTool tool options intent : Call O).Sound := by
  have hfresh : (⟨tool, options, false, none, false, []⟩ : Facts).Fresh := ⟨rfl, rfl, rfl, rfl⟩
  have hsound : (⟨tool, options, false, none, false, []⟩ : Facts).Sound := by
    constructor
    · exact nofun
    · rfl
    · exact nofun
    · rintro post pre heq
      exact absurd heq (by simp)
  match intent with
  | .ok () => exact ⟨hsound, hfresh⟩
  | .error abort =>
    have hstart : (⟨tool, options, false, none, false, [], [], .input, []⟩ : Call O).facts =
        ⟨tool, options, false, none, false, []⟩ := rfl
    rw [← hstart] at hsound hfresh
    exact sound_throw hsound (Or.inr hfresh.unentered) abort

end Call

end Nifra.Tools
