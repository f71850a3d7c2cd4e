import Nifra.Durable.ApprovalHistory

/-! # Approvals are single-use

The answers of every history are those of the sequential store in some linearization. A
consume that expires the sequential record leaves the stored one approved, so that a call
already under way may still be granted: such a call is scheduled before the expiry.
-/

namespace Nifra.Durable.DurableApprovals

open Linearization ApprovalRecord MemoryApprovalStore

variable {approvalId : JSString} {s t : State} {i : ℕ}
variable {call : ApprovalCall}

theorem getElem?_calls_answer (a : ApprovalAnswer) (stored : Option ApprovalRecord) (j : ℕ) :
    (s.answer i a stored).calls[j]? =
      (s.calls[j]?).map fun c => if i = j then { c with answered := some (a, s.moment) } else c :=
  getElem?_answer s.calls i j a s.moment

theorem answered_answer_iff (hcall : s.calls[i]? = some call) (hopen : call.answered = none)
    {a b : ApprovalAnswer} {stored : Option ApprovalRecord} {j moment : ℕ}
    {operation : ApprovalOperation} :
    (s.answer i a stored).Answered j operation b moment ↔
      s.Answered j operation b moment ∨
        j = i ∧ call.op = operation ∧ a = b ∧ s.moment = moment := by
  unfold State.Answered
  rw [getElem?_calls_answer]
  by_cases hij : i = j
  · subst hij
    simp [hcall, hopen]
  · simp [hij, Ne.symm hij]

theorem getElem?_calls_invoke {op : ApprovalOperation} {j : ℕ}
    {c : ApprovalCall} (hc : (s.invoke op).calls[j]? = some c) :
    s.calls[j]? = some c ∨ c = ⟨op, s.moment, none⟩ := by
  simp only [State.invoke, List.getElem?_append] at hc
  split_ifs at hc
  · exact Or.inl hc
  · rw [List.getElem?_singleton] at hc
    split_ifs at hc
    exact Or.inr (Option.some.inj hc).symm

theorem getElem?_calls_invoke_of_some {op : ApprovalOperation} {j : ℕ}
    {c : ApprovalCall} (hc : s.calls[j]? = some c) :
    (s.invoke op).calls[j]? = some c := by
  simp only [State.invoke]
  rw [List.getElem?_append_left (List.getElem?_eq_some_iff.mp hc).1, hc]

theorem answered_invoke_iff {operation op : ApprovalOperation} {b : ApprovalAnswer}
    {j moment : ℕ} : (s.invoke op).Answered j operation b moment ↔
      s.Answered j operation b moment := by
  constructor
  · rintro ⟨c, hc, ho, ha⟩
    rcases getElem?_calls_invoke hc with hc | rfl
    · exact ⟨c, hc, ho, ha⟩
    · cases ha
  · rintro ⟨c, hc, ha⟩
    exact ⟨c, getElem?_calls_invoke_of_some hc, ha⟩

/-- Calls were invoked and answered before this moment, with clock readings up to the last. -/
structure Timely (s : State) : Prop where
  invoked : ∀ (i : ℕ) (call : ApprovalCall), s.calls[i]? = some call → call.invokedAt < s.moment
  answered : ∀ (i : ℕ) (call : ApprovalCall), s.calls[i]? = some call → ∀ a ∈ call.answered, a.2 < s.moment
  clock : ∀ (i : ℕ) (call : ApprovalCall), s.calls[i]? = some call → ∀ n ∈ call.op.now, n ≤ s.clock

theorem Timely.answer (h : Timely s) (a : ApprovalAnswer) (stored : Option ApprovalRecord) :
    Timely (s.answer i a stored) := by
  have hold {j : ℕ} {c : ApprovalCall}
      (hc : (s.answer i a stored).calls[j]? = some c) :
      ∃ d, s.calls[j]? = some d ∧ c.op = d.op ∧ c.invokedAt = d.invokedAt ∧
        ∀ b ∈ c.answered, b ∈ d.answered ∨ b.2 = s.moment := by
    rw [getElem?_calls_answer, Option.map_eq_some_iff] at hc
    obtain ⟨d, hd, rfl⟩ := hc
    refine ⟨d, hd, ?_⟩
    split_ifs
    · exact ⟨rfl, rfl, fun b hb => Or.inr (by rw [← Option.some.inj hb])⟩
    · exact ⟨rfl, rfl, fun b hb => Or.inl hb⟩
  refine ⟨fun j c hc => ?_, fun j c hc b hb => ?_, fun j c hc n hn => ?_⟩
  · obtain ⟨d, hd, -, hi, -⟩ := hold hc
    rw [hi]
    exact Nat.lt_succ_of_lt (h.invoked j d hd)
  · obtain ⟨d, hd, -, -, ha⟩ := hold hc
    rcases ha b hb with hb | hb
    · exact Nat.lt_succ_of_lt (h.answered j d hd b hb)
    · exact hb ▸ Nat.lt_succ_self _
  · obtain ⟨d, hd, ho, -⟩ := hold hc
    exact h.clock j d hd n (ho ▸ hn)

theorem Timely.step (h : Timely s) (hs : Step s t) : Timely t := by
  cases hs with
  | invoke operation hclock =>
    have hle : s.clock ≤ operation.now.getD s.clock := by
      cases ho : operation.now with
      | none => exact le_rfl
      | some n => exact hclock n ho
    refine ⟨fun j c hc => ?_, fun j c hc a ha => ?_, fun j c hc n hn => ?_⟩
    · rcases getElem?_calls_invoke hc with hc | rfl
      · exact Nat.lt_succ_of_lt (h.invoked j c hc)
      · exact Nat.lt_succ_self _
    · rcases getElem?_calls_invoke hc with hc | rfl
      · exact Nat.lt_succ_of_lt (h.answered j c hc a ha)
      · cases ha
    · rcases getElem?_calls_invoke hc with hc | rfl
      · exact (h.clock j c hc n hn).trans hle
      · change operation.now = some n at hn
        simp [State.invoke, hn]
  | answer hcall hopen hsame => exact h.answer _ _
  | create hcall hopen record pending hop hnone => exact h.answer _ _
  | issue hcall hopen hstored hnext =>
    exact ⟨fun j c hc => Nat.lt_succ_of_lt (h.invoked j c hc),
      fun j c hc a ha => Nat.lt_succ_of_lt (h.answered j c hc a ha), h.clock⟩
  | write hcall hopen hstored hnext => exact h.answer _ _

theorem issued_answer_of_ne {a : ApprovalAnswer} {stored : Option ApprovalRecord} {j : ℕ}
    {w : ApprovalRecord × ApprovalRecord} (h : (s.answer i a stored).issued j = some w) :
    j ≠ i ∧ s.issued j = some w := by
  simp only [State.answer, Function.update_apply] at h
  split_ifs at h with hj
  exact ⟨hj, h⟩

theorem Current.answer (h : Current s) (a : ApprovalAnswer) {stored : Option ApprovalRecord}
    (hlive : ∀ record, stored = some record → record.state ≠ .expired)
    (hchange : ∀ record, s.stored = some record → ∃ next, stored = some next ∧
      (next = record ∨ next.core = record.core ∧ record.version < next.version ∧
        next.state ≠ .pending ∧ (record.state = .approved → next.state = .consumed) ∧
        record.state ≠ .consumed)) : Current (s.answer i a stored) := by
  refine ⟨fun j current next hj => ?_, hlive⟩
  obtain ⟨-, hj⟩ := issued_answer_of_ne hj
  obtain ⟨call, record, hcall, hop, hs, hr⟩ := h.issued j current next hj
  obtain ⟨new, hnew, hn⟩ := hchange record hs
  refine ⟨if i = j then { call with answered := some (a, s.moment) } else call, new, ?_, ?_,
    hnew, ?_⟩
  · rw [getElem?_calls_answer, hcall]
    rfl
  · split_ifs <;> exact hop
  · rcases hn with rfl | ⟨hcore, hversion, hpending, happroved, hopen⟩
    · exact hr
    · rcases hr with rfl | ⟨hcore', hversion', -, happroved'⟩
      · exact Or.inr ⟨hcore, hversion, hpending, happroved⟩
      · exact Or.inr ⟨hcore.trans hcore', by omega, hpending,
          fun hc => absurd (happroved' hc) hopen⟩

theorem Current.step (h : Current s) (hs : Step s t) : Current t := by
  cases hs with
  | invoke operation hclock =>
    refine ⟨fun j current next hj => ?_, h.live⟩
    obtain ⟨call, record, hcall, hrest⟩ := h.issued j current next hj
    exact ⟨call, record, getElem?_calls_invoke_of_some hcall, hrest⟩
  | answer hcall hopen hsame =>
    exact h.answer _ h.live fun record hr => ⟨record, hr, Or.inl rfl⟩
  | create hcall hopen record pending hop hnone =>
    refine h.answer _ ?_ fun old hold => ?_
    · rintro _ ⟨⟩
      rw [pending]
      exact nofun
    · rw [hnone] at hold
      cases hold
  | @issue i call hcall hopen current next hstored hnext =>
    refine ⟨fun j c n hj => ?_, h.live⟩
    simp only [State.issue, Function.update_apply] at hj
    split_ifs at hj with hij
    · obtain ⟨rfl, rfl⟩ := Prod.mk.inj (Option.some.inj hj)
      exact ⟨call, current, by rw [hij]; exact hcall, hnext, hstored, Or.inl rfl⟩
    · exact h.issued j c n hj
  | @write i call hcall hopen current next hstored hnext =>
    have hstates := hnext.states
    refine h.answer _ ?_ fun record hr => ⟨next, rfl, Or.inr ?_⟩
    · rintro _ ⟨⟩ hexpired
      rcases hstates with ⟨-, hn | hn⟩ | ⟨-, hn⟩ <;> rw [hexpired] at hn <;> cases hn
    · obtain rfl := Option.some.inj (hstored.symm.trans hr)
      refine ⟨hnext.core, by rw [hnext.version]; omega, ?_⟩
      rcases hstates with ⟨hc, hn | hn⟩ | ⟨hc, hn⟩ <;> simp [hc, hn]

abbrev State.replay (s : State) (schedule : List (ℕ × ℕ)) : Option ApprovalRecord :=
  Linearization.perform MemoryApprovalStore.perform s.calls none (schedule.map Prod.snd)

/-- The stored record and the sequential one differ in versions and times at most. -/
abbrev Alike : Option ApprovalRecord → Option ApprovalRecord → Prop := Option.Rel Like

theorem perform_alike {m r : Option ApprovalRecord} (h : Alike m r)
    (operation : ApprovalOperation) :
    (MemoryApprovalStore.perform m operation).1 = (MemoryApprovalStore.perform r operation).1 ∧
      Alike (MemoryApprovalStore.perform m operation).2
        (MemoryApprovalStore.perform r operation).2 := by
  cases h with
  | none =>
    refine ⟨rfl, ?_⟩
    cases (MemoryApprovalStore.perform none operation).2 with
    | none => exact .none
    | some r => exact .some (Like.refl r)
  | some h =>
    obtain ⟨hanswer, m', r', hm, hr, hlike⟩ := perform_like h operation
    exact ⟨hanswer, by rw [hm, hr]; exact .some hlike⟩

/-- Some schedule of the answered calls leads the sequential store to the stored record. -/
def Settled (s : State) : Prop :=
  ∃ schedule, Schedules s.calls schedule ∧ Alike (s.replay schedule) s.stored

/-- From some moment on the sequential record has expired, while calls that carry an earlier
clock reading and were invoked before that moment may still be granted the stored one. -/
structure Lapsed (s : State) (record : ApprovalRecord) (before after : List (ℕ × ℕ))
    (moment : ℕ) : Prop where
  before_le : ∀ e ∈ before, e.1 ≤ moment
  le_after : ∀ e ∈ after, moment ≤ e.1
  le_now : moment ≤ s.moment
  expired : record.expiresAt ≤ s.clock
  invoked : ∀ (i : ℕ) (call : ApprovalCall), s.calls[i]? = some call →
    ∀ n ∈ call.op.now, n < record.expiresAt → call.invokedAt ≤ moment
  replay : ∃ m, s.replay (before ++ after) = some m ∧ m.core = record.core ∧ m.state = .expired

/-- Some schedule leads the sequential store to the approved record and, once that record has
expired in it, stays there. -/
def Granted (s : State) (record : ApprovalRecord) : Prop :=
  ∃ before after, Schedules s.calls (before ++ after) ∧
    Alike (s.replay before) (some record) ∧
    (after = [] ∨ ∃ moment, Lapsed s record before after moment)

structure Scheduled (s : State) : Prop where
  granted : ∀ record, s.stored = some record → record.state = .approved → Granted s record
  settled : (∀ record, s.stored = some record → record.state ≠ .approved) → Settled s

/-- The sequential store gives the call this answer in some schedule. -/
def Explained (s : State) (i : ℕ) (a : ApprovalAnswer) : Prop :=
  ∃ before moment after, Schedules s.calls (before ++ (moment, i) :: after) ∧
    ∃ call : ApprovalCall, s.calls[i]? = some call ∧
      (MemoryApprovalStore.perform (s.replay before) call.op).1 = a

variable {schedule before after : List (ℕ × ℕ)}

theorem replay_append (s : State) (l l' : List (ℕ × ℕ)) : s.replay (l ++ l') =
    Linearization.perform MemoryApprovalStore.perform s.calls (s.replay l)
      (l'.map Prod.snd) := by
  rw [State.replay, List.map_append, perform_append]

@[simp] theorem replay_answer (a : ApprovalAnswer) (stored : Option ApprovalRecord)
    (schedule : List (ℕ × ℕ)) : (s.answer i a stored).replay schedule = s.replay schedule := by
  refine perform_congr fun j _ => ?_
  rw [getElem?_calls_answer, Option.map_map]
  congr 1
  funext c
  simp only [Function.comp_apply]
  split_ifs <;> rfl

theorem replay_invoke (h : Schedules s.calls schedule) (operation : ApprovalOperation)
    {part : List (ℕ × ℕ)} (hpart : ∀ e ∈ part, e ∈ schedule) :
    (s.invoke operation).replay part = s.replay part := by
  refine perform_congr fun j hj => ?_
  obtain ⟨e, he, rfl⟩ := List.mem_map.mp hj
  obtain ⟨c, hc, -⟩ := (h.mem_iff e.2).mp (List.mem_map_of_mem (hpart e he))
  rw [getElem?_calls_invoke_of_some hc, hc]

theorem replay_snoc (hcall : s.calls[i]? = some call) (schedule : List (ℕ × ℕ)) (moment : ℕ) :
    s.replay (schedule ++ [(moment, i)]) =
      (MemoryApprovalStore.perform (s.replay schedule) call.op).2 := by
  rw [replay_append]
  exact perform_singleton hcall

theorem moment_lt (hT : Timely s) (h : Schedules s.calls schedule) :
    ∀ e ∈ schedule, e.1 < s.moment := by
  intro e he
  obtain ⟨c, hc, ha⟩ := (h.mem_iff e.2).mp (List.mem_map_of_mem he)
  obtain ⟨a, ha⟩ := Option.isSome_iff_exists.mp ha
  have hle := (h.within e he c hc).2 a ha
  have := hT.answered e.2 c hc a ha
  omega

theorem schedules_snoc (hT : Timely s) (h : Schedules s.calls schedule)
    (hcall : s.calls[i]? = some call) (hopen : call.answered = none) (a : ApprovalAnswer)
    (stored : Option ApprovalRecord) :
    Schedules (s.answer i a stored).calls (schedule ++ [(s.moment, i)]) :=
  Schedules.answer (by rwa [List.append_nil]) hcall hopen a (hT.invoked i call hcall).le le_rfl
    (fun e he => (moment_lt hT h e he).le) (by simp)

theorem Explained.answer (hT : Timely s) {j : ℕ} {b : ApprovalAnswer} (h : Explained s j b)
    (hcall : s.calls[i]? = some call) (hopen : call.answered = none) (a : ApprovalAnswer)
    (stored : Option ApprovalRecord) : Explained (s.answer i a stored) j b := by
  obtain ⟨before, moment, after, hs, c, hc, hb⟩ := h
  refine ⟨before, moment, after ++ [(s.moment, i)], ?_, ?_⟩
  · simpa only [List.append_assoc, List.cons_append] using
      schedules_snoc hT hs hcall hopen a stored
  · refine ⟨_, by rw [getElem?_calls_answer, hc]; rfl, ?_⟩
    rw [replay_answer]
    split_ifs <;> exact hb

/-- A call whose answer the sequential store gives at some moment since its invocation is
explained by a schedule that puts it there. -/
theorem explained_answer (h : Schedules s.calls (before ++ after))
    (hcall : s.calls[i]? = some call) (hopen : call.answered = none) {moment : ℕ}
    (hinvoked : call.invokedAt ≤ moment) (hnow : moment ≤ s.moment)
    (hbefore : ∀ e ∈ before, e.1 ≤ moment) (hafter : ∀ e ∈ after, moment ≤ e.1)
    {a : ApprovalAnswer} (stored : Option ApprovalRecord)
    (ha : (MemoryApprovalStore.perform (s.replay before) call.op).1 = a) :
    Explained (s.answer i a stored) i a := by
  refine ⟨before, moment, after,
    Schedules.answer h hcall hopen a hinvoked hnow hbefore hafter, ?_⟩
  refine ⟨_, by rw [getElem?_calls_answer, hcall]; rfl, ?_⟩
  rw [replay_answer]
  simpa using ha

theorem explained_snoc (hT : Timely s) (h : Schedules s.calls schedule)
    (hcall : s.calls[i]? = some call) (hopen : call.answered = none) {a : ApprovalAnswer}
    (stored : Option ApprovalRecord)
    (ha : (MemoryApprovalStore.perform (s.replay schedule) call.op).1 = a) :
    Explained (s.answer i a stored) i a :=
  explained_answer (by rwa [List.append_nil]) hcall hopen (hT.invoked i call hcall).le le_rfl
    (fun e he => (moment_lt hT h e he).le) (by simp) stored ha

theorem perform_eq_expired {stored : Option ApprovalRecord} {operation : ApprovalOperation}
    (h : (MemoryApprovalStore.perform stored operation).1 = .result .expired) :
    ∃ record input, stored = some record ∧ operation = .consume input ∧ record.Admits input ∧
      (record.state = .expired ∨ record.state = .approved ∧ record.expiresAt ≤ input.now) := by
  cases operation with
  | create record pending => cases h
  | decide input => cases h
  | consume input =>
    have hr : (consumeApproval stored input).result = .expired := ApprovalAnswer.result.inj h
    cases stored with
    | none => cases hr
    | some record =>
      refine ⟨record, input, rfl, rfl, ?_⟩
      by_cases hadmits : record.Admits input
      · rw [consumeApproval_admits hadmits, settle] at hr
        refine ⟨hadmits, ?_⟩
        cases hs : record.state <;> simp only [hs] at hr
        case expired => exact Or.inl rfl
        case approved =>
          split_ifs at hr with hle
          exact Or.inr ⟨rfl, hle⟩
        all_goals cases hr
      · rw [consumeApproval_refuses hadmits] at hr
        dsimp only at hr
        split_ifs at hr

theorem perform_expired_like {m r : ApprovalRecord} (hcore : m.core = r.core)
    (hm : m.state = .expired) (hr : r.state = .approved) {operation : ApprovalOperation}
    (h : (MemoryApprovalStore.perform (some r) operation).2 = some r ∨
      (MemoryApprovalStore.perform (some r) operation).1 = .result .expired) :
    (MemoryApprovalStore.perform (some m) operation).1 =
      (MemoryApprovalStore.perform (some r) operation).1 := by
  cases operation with
  | create record pending => rfl
  | decide input =>
    have h₁ : decideApproval (some m) input = none :=
      decideApproval_of_not_pending (by rw [hm]; exact nofun) input
    have h₂ : decideApproval (some r) input = none :=
      decideApproval_of_not_pending (by rw [hr]; exact nofun) input
    simp [MemoryApprovalStore.perform, MemoryApprovalStore.decide, h₁, h₂]
  | consume input =>
    by_cases hadmits : r.Admits input
    · have hm' : (MemoryApprovalStore.perform (some m) (.consume input)).1 = .result .expired := by
        simp [MemoryApprovalStore.perform, MemoryApprovalStore.consume,
          consumeApproval_admits ((admits_congr hcore).mpr hadmits), settle, hm]
      rw [hm']
      rcases h with h | h
      · have hc := consumeApproval_admits hadmits
        rw [settle_of_approved hr] at hc
        simp only [MemoryApprovalStore.perform, MemoryApprovalStore.consume, hc, Prod.map_snd,
          id_eq] at h
        split_ifs at h <;> exact absurd (congrArg ApprovalRecord.version (Option.some.inj h))
          (Nat.succ_ne_self _)
      · exact h.symm
    · have hadmits' := (admits_congr hcore).not.mpr hadmits
      simp [MemoryApprovalStore.perform, MemoryApprovalStore.consume,
        consumeApproval_refuses hadmits, consumeApproval_refuses hadmits', bound_congr hcore]

theorem Settled.answer (hT : Timely s) (h : Settled s) (hcall : s.calls[i]? = some call)
    (hopen : call.answered = none) {a : ApprovalAnswer} {stored : Option ApprovalRecord}
    (ha : (MemoryApprovalStore.perform s.stored call.op).1 = a)
    (hstored : (MemoryApprovalStore.perform s.stored call.op).2 = stored) :
    Settled (s.answer i a stored) ∧ Explained (s.answer i a stored) i a := by
  obtain ⟨schedule, hs, halike⟩ := h
  obtain ⟨hanswer, hnext⟩ := perform_alike halike call.op
  refine ⟨⟨schedule ++ [(s.moment, i)], schedules_snoc hT hs hcall hopen a stored, ?_⟩,
    explained_snoc hT hs hcall hopen stored (hanswer.trans ha)⟩
  rw [replay_answer, replay_snoc hcall]
  exact hstored ▸ hnext

theorem Granted.answer (hT : Timely s) {record : ApprovalRecord} (h : Granted s record)
    (hstored : s.stored = some record) (happroved : record.state = .approved)
    (hcall : s.calls[i]? = some call) (hopen : call.answered = none)
    (hsame : (MemoryApprovalStore.perform s.stored call.op).2 = s.stored ∨
      (MemoryApprovalStore.perform s.stored call.op).1 = .result .expired) {a : ApprovalAnswer}
    (ha : (MemoryApprovalStore.perform s.stored call.op).1 = a) :
    Granted (s.answer i a s.stored) record ∧ Explained (s.answer i a s.stored) i a := by
  obtain ⟨before, after, hs, halike, rfl | ⟨moment, hl⟩⟩ := h
  · rw [List.append_nil] at hs
    obtain ⟨hanswer, hnext⟩ := perform_alike halike call.op
    rw [← hstored] at hanswer hnext
    refine ⟨?_, explained_snoc hT hs hcall hopen _ (hanswer.trans ha)⟩
    have hsnoc := schedules_snoc hT hs hcall hopen a s.stored
    by_cases hexpired : (MemoryApprovalStore.perform s.stored call.op).1 = .result .expired
    · refine ⟨before, [(s.moment, i)], hsnoc, by rwa [replay_answer],
        Or.inr ⟨s.moment, fun e he => (moment_lt hT hs e he).le, by simp,
          Nat.le_succ _, ?_, fun j c hc n hn hlt => ?_, ?_⟩⟩
      · obtain ⟨r, input, hr, hop, -, hx⟩ := perform_eq_expired hexpired
        obtain rfl := Option.some.inj (hstored.symm.trans hr)
        rcases hx with hx | ⟨-, hle⟩
        · rw [happroved] at hx
          cases hx
        · exact hle.trans (hT.clock i call hcall _ (by rw [hop]; rfl))
      · rw [getElem?_calls_answer, Option.map_eq_some_iff] at hc
        obtain ⟨d, hd, rfl⟩ := hc
        have := (hT.invoked j d hd).le
        split_ifs <;> exact this
      · rw [replay_answer, replay_snoc hcall]
        rw [hexpired] at hanswer
        cases hm : s.replay before with
        | none =>
          rw [hm] at halike
          cases halike
        | some m =>
          rw [hm] at hanswer halike
          cases halike with
          | some hlike =>
            obtain ⟨r, input, hr, hop, hadmits, hx⟩ := perform_eq_expired hanswer
            obtain rfl := Option.some.inj hr
            have hms : m.state = .approved := hlike.2.trans happroved
            have hle : m.expiresAt ≤ input.now := by
              rcases hx with hx | ⟨-, hle⟩
              · rw [hms] at hx
                cases hx
              · exact hle
            refine ⟨m.close .expired input.now, ?_, hlike.1, rfl⟩
            rw [hop]
            simp [MemoryApprovalStore.perform, MemoryApprovalStore.consume,
              consumeApproval_admits hadmits, settle_of_approved hms, hle]
    · have hkeep := hsame.resolve_right hexpired
      refine ⟨before ++ [(s.moment, i)], [], by rwa [List.append_nil], ?_, Or.inl rfl⟩
      rw [replay_answer, replay_snoc hcall]
      rwa [hkeep, hstored] at hnext
  · obtain ⟨m, hm, hcore, hexpired⟩ := hl.replay
    have hanswer : (MemoryApprovalStore.perform (some m) call.op).1 =
        (MemoryApprovalStore.perform (some record) call.op).1 :=
      perform_expired_like hcore hexpired happroved (by rwa [← hstored])
    have hpending : m.state ≠ .pending := by
      rw [hexpired]
      rintro ⟨⟩
    have hunapproved : m.state ≠ .approved := by
      rw [hexpired]
      rintro ⟨⟩
    have hclosed := perform_closed hpending hunapproved call.op
    rw [← hstored] at hanswer
    refine ⟨⟨before, after ++ [(s.moment, i)], ?_, by rwa [replay_answer],
      Or.inr ⟨moment, hl.before_le, ?_, Nat.le_succ_of_le hl.le_now, hl.expired, ?_, ?_⟩⟩, ?_⟩
    · rw [← List.append_assoc]
      exact schedules_snoc hT hs hcall hopen a s.stored
    · intro e he
      rcases List.mem_append.mp he with he | he
      · exact hl.le_after e he
      · rw [List.mem_singleton.mp he]
        exact hl.le_now
    · intro j c hc n hn hlt
      rw [getElem?_calls_answer, Option.map_eq_some_iff] at hc
      obtain ⟨d, hd, rfl⟩ := hc
      have hop : (if i = j then { d with answered := some (a, s.moment) } else d).op = d.op := by
        split_ifs <;> rfl
      have := hl.invoked j d hd n (hop ▸ hn) hlt
      split_ifs <;> exact this
    · refine ⟨m, ?_, hcore, hexpired⟩
      rw [replay_answer, ← List.append_assoc, replay_snoc hcall, hm, hclosed]
    · exact explained_snoc hT hs hcall hopen _ (by rw [hm, hanswer, ha])

theorem Scheduled.answer (hT : Timely s) (hC : Current s) (h : Scheduled s)
    (hcall : s.calls[i]? = some call) (hopen : call.answered = none)
    (hsame : (MemoryApprovalStore.perform s.stored call.op).2 = s.stored ∨
      (MemoryApprovalStore.perform s.stored call.op).1 = .result .expired) {a : ApprovalAnswer}
    (ha : (MemoryApprovalStore.perform s.stored call.op).1 = a) :
    Scheduled (s.answer i a s.stored) ∧ Explained (s.answer i a s.stored) i a := by
  by_cases hstate : ∃ record, s.stored = some record ∧ record.state = .approved
  · obtain ⟨record, hstored, happroved⟩ := hstate
    obtain ⟨hg, he⟩ := (h.granted record hstored happroved).answer hT hstored happroved hcall
      hopen hsame ha
    refine ⟨⟨fun r hr _ => ?_, fun hn => absurd happroved (hn record hstored)⟩, he⟩
    obtain rfl := Option.some.inj (hstored.symm.trans hr)
    exact hg
  · have hn : ∀ record, s.stored = some record → record.state ≠ .approved :=
      fun record hr hs => hstate ⟨record, hr, hs⟩
    have hkeep : (MemoryApprovalStore.perform s.stored call.op).2 = s.stored := by
      refine hsame.resolve_right fun hexpired => ?_
      obtain ⟨record, -, hr, -, -, hs | ⟨hs, -⟩⟩ := perform_eq_expired hexpired
      · exact hC.live record hr hs
      · exact hn record hr hs
    obtain ⟨hsettled, he⟩ := (h.settled hn).answer hT hcall hopen ha hkeep
    exact ⟨⟨fun r hr hs => absurd hs (hn r hr), fun _ => hsettled⟩, he⟩

theorem Settled.write (hT : Timely s) (h : Settled s) (hcall : s.calls[i]? = some call)
    (hopen : call.answered = none) {current next : ApprovalRecord}
    (hstored : s.stored = some current) (hnext : Issues call.op current next) :
    Scheduled (s.answer i (written true call.op) (some next)) ∧
      Explained (s.answer i (written true call.op) (some next)) i (written true call.op) := by
  have hperform := hnext.perform
  rw [← hstored] at hperform
  obtain ⟨⟨schedule, hs, halike⟩, he⟩ := h.answer hT hcall hopen
    (congrArg Prod.fst hperform) (congrArg Prod.snd hperform)
  refine ⟨⟨fun record hr _ => ?_, fun _ => ⟨schedule, hs, halike⟩⟩, he⟩
  obtain rfl := Option.some.inj hr
  exact ⟨schedule, [], by rwa [List.append_nil], halike, Or.inl rfl⟩

/-- A consume that is granted although the sequential record may have expired by now: it is
scheduled before the call that found it expired. -/
theorem Granted.write (hT : Timely s) {current next : ApprovalRecord} (h : Granted s current)
    (hcall : s.calls[i]? = some call) (hopen : call.answered = none)
    (happroved : current.state = .approved) (hnext : Issues call.op current next) :
    Scheduled (s.answer i (written true call.op) (some next)) ∧
      Explained (s.answer i (written true call.op) (some next)) i (written true call.op) := by
  obtain ⟨before, after, hs, halike, hlapsed⟩ := h
  have hconsumed : next.state = .consumed := by
    rcases hnext.states with ⟨hp, -⟩ | ⟨-, hn⟩
    · rw [happroved] at hp
      cases hp
    · exact hn
  obtain ⟨moment, hinvoked, hnow, hbefore, hafter⟩ : ∃ moment, call.invokedAt ≤ moment ∧
      moment ≤ s.moment ∧ (∀ e ∈ before, e.1 ≤ moment) ∧ ∀ e ∈ after, moment ≤ e.1 := by
    rcases hlapsed with rfl | ⟨moment, hl⟩
    · rw [List.append_nil] at hs
      exact ⟨s.moment, (hT.invoked i call hcall).le, le_rfl,
        fun e he => (moment_lt hT hs e he).le, by simp⟩
    · refine ⟨moment, ?_, hl.le_now, hl.before_le, hl.le_after⟩
      cases hop : call.op with
      | create record pending =>
        rw [hop] at hnext
        cases hnext
      | decide input =>
        rw [hop] at hnext
        cases hnext with
        | decide hd =>
          obtain ⟨_, ⟨⟩, -, hp, -⟩ := decideApproval_eq_some_iff.mp hd
          rw [happroved] at hp
          cases hp
      | consume input =>
        rw [hop] at hnext
        cases hnext with
        | consume hc =>
          obtain ⟨-, -, hlt, -⟩ := consumeApproval_consumed_iff.mp hc
          exact hl.invoked i call hcall input.now (by rw [hop]; rfl) hlt
  have hperform := hnext.perform
  obtain ⟨hanswer, halike'⟩ := perform_alike halike call.op
  rw [hperform] at hanswer halike'
  refine ⟨⟨fun record hr happ => ?_, fun _ => ⟨before ++ (moment, i) :: after,
    Schedules.answer hs hcall hopen _ hinvoked hnow hbefore hafter, ?_⟩⟩,
    explained_answer hs hcall hopen hinvoked hnow hbefore hafter _ hanswer⟩
  · obtain rfl := Option.some.inj hr
    rw [hconsumed] at happ
    cases happ
  · rw [replay_answer, ← List.singleton_append, ← List.append_assoc, replay_append,
      replay_snoc hcall]
    generalize (MemoryApprovalStore.perform (s.replay before) call.op).2 = m at halike'
    cases halike' with
    | some hlike =>
      rw [perform_fixed]
      · exact .some hlike
      · intro j _ c _
        have hm := hlike.2.trans hconsumed
        exact perform_closed (by rw [hm]; exact nofun) (by rw [hm]; exact nofun) c.op

theorem Scheduled.invoke (h : Scheduled s) {operation : ApprovalOperation}
    (hclock : ∀ n ∈ operation.now, s.clock ≤ n) : Scheduled (s.invoke operation) := by
  have hle : s.clock ≤ (s.invoke operation).clock := by
    simp only [State.invoke]
    cases ho : operation.now with
    | none => exact le_rfl
    | some n => exact hclock n ho
  refine ⟨fun record hr hs => ?_, fun hn => ?_⟩
  · obtain ⟨before, after, hsch, halike, hl⟩ := h.granted record hr hs
    refine ⟨before, after, hsch.invoke operation s.moment, ?_, hl.imp_right ?_⟩
    · rwa [replay_invoke hsch operation fun e he => List.mem_append_left _ he]
    · rintro ⟨moment, hl⟩
      refine ⟨moment, hl.before_le, hl.le_after, Nat.le_succ_of_le hl.le_now,
        hl.expired.trans hle, fun j c hc n hn hlt => ?_, ?_⟩
      · rcases getElem?_calls_invoke hc with hc | rfl
        · exact hl.invoked j c hc n hn hlt
        · exact absurd (hl.expired.trans (hclock n hn)) (not_le.mpr hlt)
      · rw [replay_invoke hsch operation fun e he => he]
        exact hl.replay
  · obtain ⟨schedule, hsch, halike⟩ := h.settled hn
    refine ⟨schedule, hsch.invoke operation s.moment, ?_⟩
    rwa [replay_invoke hsch operation fun e he => he]

theorem scheduled_step (hT : Timely s) (hC : Current s) (h : Scheduled s) (hs : Step s t) :
    Scheduled t := by
  cases hs with
  | invoke operation hclock => exact h.invoke hclock
  | answer hcall hopen hsame => exact (h.answer hT hC hcall hopen hsame rfl).1
  | @create i call hcall hopen record pending hop hnone =>
    have hsettled := h.settled fun r hr => by
      rw [hnone] at hr
      cases hr
    have hperform : MemoryApprovalStore.perform s.stored call.op =
        (.accepted true, some record) := by rw [hop, hnone]; rfl
    obtain ⟨hsettled, -⟩ := hsettled.answer hT hcall hopen (congrArg Prod.fst hperform)
      (congrArg Prod.snd hperform)
    refine ⟨fun r hr hs => ?_, fun _ => hsettled⟩
    obtain rfl := Option.some.inj hr
    rw [pending] at hs
    cases hs
  | issue hcall hopen hstored hnext =>
    refine ⟨fun record hr hs => ?_, fun hn => h.settled hn⟩
    obtain ⟨before, after, hsch, halike, hl⟩ := h.granted record hr hs
    refine ⟨before, after, hsch, halike, hl.imp_right fun ⟨moment, hl⟩ => ⟨moment, ?_⟩⟩
    exact ⟨hl.before_le, hl.le_after, Nat.le_succ_of_le hl.le_now, hl.expired, hl.invoked,
      hl.replay⟩
  | @write i call hcall hopen current next hstored hnext =>
    by_cases happroved : current.state = .approved
    · exact ((h.granted current hstored happroved).write hT hcall hopen happroved hnext).1
    · refine ((h.settled fun r hr => ?_).write hT hcall hopen hstored hnext).1
      rwa [← Option.some.inj (hstored.symm.trans hr)]

def AllExplained (s : State) : Prop :=
  ∀ j operation b moment, s.Answered j operation b moment → Explained s j b

theorem AllExplained.answer (hT : Timely s) (h : AllExplained s)
    (hcall : s.calls[i]? = some call) (hopen : call.answered = none) {a : ApprovalAnswer}
    {stored : Option ApprovalRecord} (hnew : Explained (s.answer i a stored) i a) :
    AllExplained (s.answer i a stored) := by
  intro j operation b moment hb
  rcases (answered_answer_iff hcall hopen).mp hb with hb | ⟨rfl, -, rfl, -⟩
  · exact (h j operation b moment hb).answer hT hcall hopen a stored
  · exact hnew

theorem allExplained_step (hT : Timely s) (hC : Current s) (hS : Scheduled s)
    (h : AllExplained s) (hs : Step s t) : AllExplained t := by
  cases hs with
  | invoke operation hclock =>
    intro j op b moment hb
    obtain ⟨before, at', after, hsch, c, hc, hanswer⟩ :=
      h j op b moment (answered_invoke_iff.mp hb)
    refine ⟨before, at', after, hsch.invoke operation s.moment, c,
      getElem?_calls_invoke_of_some hc, ?_⟩
    rwa [replay_invoke hsch operation fun e he => List.mem_append_left _ he]
  | answer hcall hopen hsame =>
    exact h.answer hT hcall hopen (hS.answer hT hC hcall hopen hsame rfl).2
  | @create i call hcall hopen record pending hop hnone =>
    have hsettled := hS.settled fun r hr => by
      rw [hnone] at hr
      cases hr
    have hperform : MemoryApprovalStore.perform s.stored call.op =
        (.accepted true, some record) := by rw [hop, hnone]; rfl
    exact h.answer hT hcall hopen (hsettled.answer hT hcall hopen (congrArg Prod.fst hperform)
      (congrArg Prod.snd hperform)).2
  | issue hcall hopen hstored hnext =>
    intro j op b moment hb
    exact h j op b moment hb
  | @write i call hcall hopen current next hstored hnext =>
    by_cases happroved : current.state = .approved
    · exact h.answer hT hcall hopen
        ((hS.granted current hstored happroved).write hT hcall hopen happroved hnext).2
    · refine h.answer hT hcall hopen
        ((hS.settled fun r hr => ?_).write hT hcall hopen hstored hnext).2
      rwa [← Option.some.inj (hstored.symm.trans hr)]

/-- A decide for the record's tenant approved it before it expired, at this moment. -/
def ApprovedAt (s : State) (record : ApprovalRecord) (moment : ℕ) : Prop :=
  ∃ j input, s.Answered j (.decide input) (.accepted true) moment ∧
    input.decision = .approved ∧ input.tenantId = record.tenantId ∧ input.now < record.expiresAt

structure SingleUse (s : State) : Prop where
  consumed : ∀ i operation moment, s.Answered i operation (.result .consumed) moment →
    ∃ record input approved, s.stored = some record ∧ record.state = .consumed ∧
      operation = .consume input ∧ record.Admits input ∧ input.now < record.expiresAt ∧
      approved < moment ∧ ApprovedAt s record approved
  unique : ∀ i j operation operation' moment moment',
    s.Answered i operation (.result .consumed) moment →
    s.Answered j operation' (.result .consumed) moment' → i = j
  approved : ∀ record, s.stored = some record → record.state = .approved →
    ∃ moment < s.moment, ApprovedAt s record moment
  denied : ∀ i input moment, s.Answered i (.decide input) (.accepted true) moment →
    input.decision = .denied → ∃ record, s.stored = some record ∧ record.state = .denied

theorem answered_step (hs : Step s t) {j moment : ℕ} {operation : ApprovalOperation}
    {b : ApprovalAnswer} (h : s.Answered j operation b moment) :
    t.Answered j operation b moment := by
  cases hs with
  | invoke operation hclock => exact answered_invoke_iff.mpr h
  | answer hcall hopen hsame => exact (answered_answer_iff hcall hopen).mpr (Or.inl h)
  | create hcall hopen record pending hop hnone =>
    exact (answered_answer_iff hcall hopen).mpr (Or.inl h)
  | issue hcall hopen hstored hnext => exact h
  | write hcall hopen hstored hnext =>
    exact (answered_answer_iff hcall hopen).mpr (Or.inl h)

theorem ApprovedAt.step (hs : Step s t) {record : ApprovalRecord} {moment : ℕ}
    (h : ApprovedAt s record moment) : ApprovedAt t record moment := by
  obtain ⟨j, input, ha, hrest⟩ := h
  exact ⟨j, input, answered_step hs ha, hrest⟩

theorem not_granting {stored : Option ApprovalRecord} {operation : ApprovalOperation}
    (h : (MemoryApprovalStore.perform stored operation).2 = stored ∨
      (MemoryApprovalStore.perform stored operation).1 = .result .expired) :
    (MemoryApprovalStore.perform stored operation).1 ≠ .result .consumed ∧
      ∀ input, operation = .decide input →
        (MemoryApprovalStore.perform stored operation).1 ≠ .accepted true := by
  cases operation with
  | create record pending =>
    refine ⟨by rintro ⟨⟩, fun input hi => ?_⟩
    cases hi
  | decide input =>
    refine ⟨by rintro ⟨⟩, fun _ _ ha => ?_⟩
    have hsame := h.resolve_right (by rintro ⟨⟩)
    cases hd : decideApproval stored input with
    | none => simp [MemoryApprovalStore.perform, MemoryApprovalStore.decide, hd] at ha
    | some next =>
      obtain ⟨record, rfl, -, -, -, rfl⟩ := decideApproval_eq_some_iff.mp hd
      simp only [MemoryApprovalStore.perform, MemoryApprovalStore.decide, hd, Prod.map_snd,
        id_eq] at hsame
      exact absurd (congrArg ApprovalRecord.version (Option.some.inj hsame)) (Nat.succ_ne_self _)
  | consume input =>
    refine ⟨fun ha => ?_, fun input hi => by cases hi⟩
    have hsame := h.resolve_right (by rw [ha]; rintro ⟨⟩)
    cases stored with
    | none => cases ha
    | some record =>
      obtain ⟨next, hnext⟩ := consumeApproval_of_consumed (ApprovalAnswer.result.inj ha)
      rw [(Issues.consume hnext).perform] at hsame
      have := congrArg ApprovalRecord.version (Option.some.inj hsame)
      rw [(Issues.consume hnext).version] at this
      exact Nat.succ_ne_self _ this

theorem SingleUse.of_same (h : SingleUse s) (hs : Step s t) (hstored : t.stored = s.stored)
    (hmoment : s.moment ≤ t.moment)
    (hconsumed : ∀ j operation moment, t.Answered j operation (.result .consumed) moment →
      s.Answered j operation (.result .consumed) moment)
    (hdecided : ∀ j input moment, t.Answered j (.decide input) (.accepted true) moment →
      s.Answered j (.decide input) (.accepted true) moment) : SingleUse t where
  consumed i operation moment ha := by
    obtain ⟨record, input, approved, hr, hstate, hop, hadmits, hlive, hlt, happroved⟩ :=
      h.consumed i operation moment (hconsumed i operation moment ha)
    exact ⟨record, input, approved, hstored.trans hr, hstate, hop, hadmits, hlive, hlt,
      happroved.step hs⟩
  unique i j operation operation' moment moment' hi hj :=
    h.unique i j operation operation' moment moment' (hconsumed _ _ _ hi) (hconsumed _ _ _ hj)
  approved record hr hstate := by
    obtain ⟨moment, hlt, happroved⟩ := h.approved record (hstored ▸ hr) hstate
    exact ⟨moment, lt_of_lt_of_le hlt hmoment, happroved.step hs⟩
  denied i input moment ha hd := by
    rw [hstored]
    exact h.denied i input moment (hdecided i input moment ha) hd

theorem SingleUse.step (h : SingleUse s) (hs : Step s t) : SingleUse t := by
  have hstep := hs
  cases hs with
  | invoke operation hclock =>
    exact h.of_same hstep rfl (Nat.le_succ _) (fun j op m ha => answered_invoke_iff.mp ha)
      fun j input m ha => answered_invoke_iff.mp ha
  | answer hcall hopen hsame =>
    obtain ⟨hconsumed, hdecided⟩ := not_granting hsame
    refine h.of_same hstep rfl (Nat.le_succ _) (fun j op m ha => ?_) fun j input m ha => ?_
    · rcases (answered_answer_iff hcall hopen).mp ha with ha | ⟨-, -, ha, -⟩
      · exact ha
      · exact absurd ha hconsumed
    · rcases (answered_answer_iff hcall hopen).mp ha with ha | ⟨-, hop, ha, -⟩
      · exact ha
      · exact absurd ha (hdecided input hop)
  | @create i call hcall hopen record pending hop hnone =>
    have hconsumed (j : ℕ) (op : ApprovalOperation) (m : ℕ) :
        ¬ s.Answered j op (.result .consumed) m := fun ha => by
      obtain ⟨r, _, _, hr, -⟩ := h.consumed j op m ha
      rw [hnone] at hr
      cases hr
    refine ⟨fun j op m ha => ?_, fun j k op op' m m' ha => ?_, fun r hr hstate => ?_,
      fun j input m ha hd => ?_⟩
    · rcases (answered_answer_iff hcall hopen).mp ha with ha | ⟨-, -, ha, -⟩
      · exact absurd ha (hconsumed j op m)
      · cases ha
    · rcases (answered_answer_iff hcall hopen).mp ha with ha | ⟨-, -, ha, -⟩
      · exact absurd ha (hconsumed j op m)
      · cases ha
    · obtain rfl := Option.some.inj hr
      rw [pending] at hstate
      cases hstate
    · rcases (answered_answer_iff hcall hopen).mp ha with ha | ⟨-, hop', -⟩
      · obtain ⟨r, hr, -⟩ := h.denied j input m ha hd
        rw [hnone] at hr
        cases hr
      · rw [hop] at hop'
        cases hop'
  | issue hcall hopen hstored hnext =>
    exact h.of_same hstep rfl (Nat.le_succ _) (fun j op m ha => ha) fun j input m ha => ha
  | @write i call hcall hopen current next hstored hnext =>
    have hconsumed (j : ℕ) (op : ApprovalOperation) (m : ℕ) :
        ¬ s.Answered j op (.result .consumed) m := fun ha => by
      obtain ⟨r, _, _, hr, hstate, -⟩ := h.consumed j op m ha
      obtain rfl := Option.some.inj (hstored.symm.trans hr)
      rcases hnext.states with ⟨hp, -⟩ | ⟨hp, -⟩ <;> rw [hstate] at hp <;> cases hp
    have hdenied (j : ℕ) (input : ApprovalDecisionInput) (m : ℕ)
        (ha : s.Answered j (.decide input) (.accepted true) m) : input.decision ≠ .denied :=
      fun hd => by
      obtain ⟨r, hr, hstate⟩ := h.denied j input m ha hd
      obtain rfl := Option.some.inj (hstored.symm.trans hr)
      rcases hnext.states with ⟨hp, -⟩ | ⟨hp, -⟩ <;> rw [hstate] at hp <;> cases hp
    generalize hop : call.op = op at hnext hstep
    cases hnext with
    | @decide input _ _ hd =>
      obtain ⟨_, ⟨⟩, htenant, -, hlive, rfl⟩ := decideApproval_eq_some_iff.mp hd
      refine ⟨fun j op m ha => ?_, fun j k op op' m m' ha => ?_, fun r hr hstate => ?_,
        fun j input' m ha hdenies => ?_⟩
      · rcases (answered_answer_iff hcall hopen).mp ha with ha | ⟨-, -, ha, -⟩
        · exact absurd ha (hconsumed j op m)
        · cases ha
      · rcases (answered_answer_iff hcall hopen).mp ha with ha | ⟨-, -, ha, -⟩
        · exact absurd ha (hconsumed j op m)
        · cases ha
      · obtain rfl := Option.some.inj hr
        refine ⟨s.moment, Nat.lt_succ_self _, i, input,
          (answered_answer_iff hcall hopen).mpr (Or.inr ⟨rfl, hop, rfl, rfl⟩), ?_, htenant.symm,
          hlive⟩
        cases hdecision : input.decision with
        | approved => rfl
        | denied =>
          rw [hdecision] at hstate
          cases hstate
      · rcases (answered_answer_iff hcall hopen).mp ha with ha | ⟨-, hop', -⟩
        · exact absurd hdenies (hdenied j input' m ha)
        · obtain rfl := ApprovalOperation.decide.inj (hop.symm.trans hop')
          exact ⟨_, rfl, congrArg ApprovalDecision.state hdenies⟩
    | @consume input _ _ hc =>
      obtain ⟨happroved, hadmits, hlive, rfl⟩ := consumeApproval_consumed_iff.mp hc
      obtain ⟨approved, hlt, hby⟩ := h.approved current hstored happroved
      refine ⟨fun j op m ha => ?_, fun j k op op' m m' ha hb => ?_, fun r hr hstate => ?_,
        fun j input' m ha hdenies => ?_⟩
      · rcases (answered_answer_iff hcall hopen).mp ha with ha | ⟨rfl, hop', -, rfl⟩
        · exact absurd ha (hconsumed j op m)
        · exact ⟨_, input, approved, rfl, rfl, hop'.symm.trans hop, hadmits, hlive, hlt,
            hby.step hstep⟩
      · rcases (answered_answer_iff hcall hopen).mp ha with ha | ⟨rfl, -⟩
        · exact absurd ha (hconsumed j op m)
        · rcases (answered_answer_iff hcall hopen).mp hb with hb | ⟨rfl, -⟩
          · exact absurd hb (hconsumed k op' m')
          · rfl
      · obtain rfl := Option.some.inj hr
        cases hstate
      · rcases (answered_answer_iff hcall hopen).mp ha with ha | ⟨-, hop', -⟩
        · exact absurd hdenies (hdenied j input' m ha)
        · cases hop.symm.trans hop'

structure Inv (s : State) : Prop where
  timely : Timely s
  current : Current s
  scheduled : Scheduled s
  explained : AllExplained s
  singleUse : SingleUse s

theorem inv_reachable (h : Runs.Reachable (step approvalId) {} s) : Inv s := by
  refine h.invariant ⟨⟨?_, ?_, ?_⟩, ⟨?_, ?_⟩, ⟨?_, fun _ => ⟨[], .nil, .none⟩⟩, ?_, ?_⟩
    fun s e t hI he => ?_
  · simp
  · simp
  · simp
  · simp
  · simp
  · simp
  · rintro j operation b moment ⟨c, hc, -⟩
    simp at hc
  · refine ⟨?_, ?_, ?_, ?_⟩
    · rintro i operation moment ⟨c, hc, -⟩
      simp at hc
    · rintro i j operation operation' moment moment' ⟨c, hc, -⟩
      simp at hc
    · simp
    · rintro i input moment ⟨c, hc, -⟩
      simp at hc
  · have hs := step_cases hI.current he
    exact ⟨hI.timely.step hs, hI.current.step hs,
      scheduled_step hI.timely hI.current hI.scheduled hs,
      allExplained_step hI.timely hI.current hI.scheduled hI.explained hs,
      hI.singleUse.step hs⟩

theorem Explained.couldAnswer {a : ApprovalAnswer} (h : Explained s i a) :
    CouldAnswer MemoryApprovalStore.perform none s.calls i a := by
  obtain ⟨before, moment, after, hs, call, hcall, ha⟩ := h
  refine ⟨before.map Prod.snd, after.map Prod.snd, ?_, call, hcall, ha⟩
  simpa only [List.map_append, List.map_cons] using hs.isLinearization

/-- An approval is granted at most once, to a call that repeats it and carries a time before
its expiry, and only after a decide approved it for its tenant before that expiry; a denied
approval is never granted; and each answer is one that the sequential store gives in some
linearization of the same calls. -/
theorem approval_single_use (approvalId : JSString) (s : State)
    (h : Runs.Reachable (step approvalId) {} s) :
    (∀ i j operation operation' moment moment',
      s.Answered i operation (.result .consumed) moment →
      s.Answered j operation' (.result .consumed) moment' → i = j) ∧
    (∀ i operation moment, s.Answered i operation (.result .consumed) moment →
      ∃ record input, s.stored = some record ∧ operation = .consume input ∧
        record.Admits input ∧ input.now < record.expiresAt ∧
        ∃ approved < moment, ApprovedAt s record approved) ∧
    (∀ d input moment, s.Answered d (.decide input) (.accepted true) moment →
      input.decision = .denied →
      ∀ i operation moment', ¬ s.Answered i operation (.result .consumed) moment') ∧
    ∀ i operation a moment, s.Answered i operation a moment →
      CouldAnswer MemoryApprovalStore.perform none s.calls i a := by
  have hI := inv_reachable h
  refine ⟨hI.singleUse.unique, fun i operation moment ha => ?_,
    fun d input moment hd hdenied i operation moment' ha => ?_,
    fun i operation a moment ha => (hI.explained i operation a moment ha).couldAnswer⟩
  · obtain ⟨record, input, approved, hr, -, hop, hadmits, hlive, hlt, hby⟩ :=
      hI.singleUse.consumed i operation moment ha
    exact ⟨record, input, hr, hop, hadmits, hlive, approved, hlt, hby⟩
  · obtain ⟨record, hr, hstate⟩ := hI.singleUse.denied d input moment hd hdenied
    obtain ⟨record', _, _, hr', hstate', -⟩ := hI.singleUse.consumed i operation moment' ha
    obtain rfl := Option.some.inj (hr.symm.trans hr')
    rw [hstate] at hstate'
    cases hstate'

def request : ApprovalRecord where
  approvalId := js "a1"
  effectId := js "e1"
  capability := js "pay"
  tenantId := js "t1"
  principalId := js "p1"
  tokenHash := js "h1"
  state := .pending
  createdAt := 1
  expiresAt := 10
  updatedAt := 1
  version := 1

def approval : ApprovalDecisionInput := ⟨js "a1", js "t1", .approved, js "op", 4⟩

def redemption (now : ℕ) : ApprovalConsumeInput where
  approvalId := js "a1"
  tenantId := js "t1"
  principalId := js "p1"
  capability := js "pay"
  tokenHash := js "h1"
  now := now

/-- One consume reads the approval before it expires and another after; the first is granted
although the second was told of the expiry. -/
def lateGrant : List Event :=
  [.invoke (.create request rfl), .perform 0, .invoke (.decide approval), .perform 1, .perform 1,
    .invoke (.consume (redemption 5)), .invoke (.consume (redemption 12)), .perform 3, .perform 2,
    .perform 2]

def lateGrantState : State := (Runs.run (step (js "a1")) {} lateGrant).get (by decide)

theorem approval_single_use_lateGrant :
    CouldAnswer MemoryApprovalStore.perform none lateGrantState.calls 3 (.result .expired) :=
  (approval_single_use (js "a1") lateGrantState (Runs.Reachable.of_run _)).2.2.2 3
    (.consume (redemption 12)) (.result .expired) 7
    ⟨⟨.consume (redemption 12), 6, some (.result .expired, 7)⟩, by decide, rfl, rfl⟩

end Nifra.Durable.DurableApprovals
