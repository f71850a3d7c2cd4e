import Nifra.Query.MutationSafety

/-! # Runs of the mutation store

A settled promise stays settled, and a call that was stopped is never heard of again.
-/

namespace Nifra.Query

open MutationStore

variable {V D E : Type} {s t : MutationStore V D E} {i : ℕ} {call : MutateCall V D E}

theorem sound_run {es : List (MutationEvent V D E)} (h : s.Sound)
    (hrun : Runs.run mutationStep s es = some t) : t.Sound :=
  Runs.run_invariant (fun _ _ _ hsound hstep => hsound.step hstep) hrun h

/-- What a step leaves of a call: its epoch, a result, and that it was stopped. -/
structure Kept (s t : MutationStore V D E) (i : ℕ) (call later : MutateCall V D E) : Prop where
  epoch : later.epoch = call.epoch
  done : ∀ result, call.place = .done result → later.place = .done result
  stopped : Stopped s i call → Stopped t i later

theorem Kept.of_cancels {s t : MutationStore V D E} {i : ℕ} {call : MutateCall V D E}
    (hcancels : s.cancels.flatten ⊆ t.cancels.flatten) : Kept s t i call call where
  epoch := rfl
  done _ := id
  stopped := Or.imp_right (Or.imp_right fun hpending => hcancels hpending)

theorem kept_abort {pending : List ℕ} {cancels : List (List ℕ)}
    (hcancels : s.cancels = (i :: pending) :: cancels) {j : ℕ} :
    Kept s (abort s i pending cancels) j call
      (if i = j then { call with aborted := true } else call) where
  epoch := by split_ifs <;> rfl
  done result hdone := by
    split_ifs
    · exact hdone
    · exact hdone
  stopped := stopped_abort hcancels

theorem Moved.kept {place : Place D E} {outcome : Option (Except E D)} {deeds : List Deed}
    (hcall : s.HasCall i call) (hm : Moved s t i call place outcome deeds) (hlive : ¬ call.Settled)
    {j : ℕ} {other : MutateCall V D E} (hother : s.HasCall j other) :
    ∃ later, t.HasCall j later ∧ Kept s t j other later := by
  by_cases hji : j = i
  · subst hji
    obtain rfl : call = other := Option.some.inj (hcall.symm.trans hother)
    refine ⟨_, (hm.hasCall hcall).mpr (Or.inl ⟨rfl, rfl⟩), ⟨rfl, ?_, ?_⟩⟩
    · intro result hdone
      exact (hlive ⟨result, hdone⟩).elim
    · exact fun hstopped => hm.stillStopped hstopped fun hsettled => (hlive hsettled).elim
  · refine ⟨other, (hm.hasCall hcall).mpr (Or.inr ⟨hji, hother⟩), Kept.of_cancels ?_⟩
    rw [hm.cancels]
    exact List.Subset.refl _

theorem kept_cancel (hcall : s.HasCall i call) : ∃ later, s.cancel.HasCall i later ∧
    Kept s s.cancel i call later :=
  ⟨call, hcall, Kept.of_cancels (List.subset_append_right _ _)⟩

theorem kept_step {e : MutationEvent V D E} (h : s.Sound) (hstep : mutationStep s e = some t)
    (hcall : s.HasCall i call) : ∃ later, t.HasCall i later ∧ Kept s t i call later := by
  cases e with
  | mutate vars =>
    simp only [mutationStep] at hstep
    split_ifs at hstep
    obtain rfl := Option.some.inj hstep
    exact ⟨call, hasCall_mutate.mpr (Or.inl hcall), Kept.of_cancels (List.Subset.refl _)⟩
  | reset =>
    obtain rfl := Option.some.inj hstep
    exact ⟨call, hcall, Kept.of_cancels (List.Subset.refl _)⟩
  | cancel => exact Option.some.inj hstep ▸ kept_cancel hcall
  | stop =>
    simp only [mutationStep, stop] at hstep
    split at hstep
    · cases hstep
    · rename_i cancels hcancels
      obtain rfl := Option.some.inj hstep
      have hsub : s.cancels.flatten ⊆ cancels.flatten := by
        rw [hcancels, List.flatten_cons, List.nil_append]
        exact List.Subset.refl _
      simp only [stopWatchingWhenIdle]
      split_ifs
      · exact ⟨call, hcall, Kept.of_cancels hsub⟩
      · exact ⟨call, hcall, Kept.of_cancels hsub⟩
    · rename_i pending cancels hcancels
      obtain rfl := Option.some.inj hstep
      exact ⟨_, hasCall_abort.mpr ⟨call, hcall, rfl⟩, kept_abort hcancels⟩
  | resume j answer =>
    obtain ⟨other, hother, -, hlive, hcases⟩ := resume_cases hstep (h.agrees j)
    rcases hcases with ⟨-, rfl⟩ | ⟨-, -, rfl⟩ | ⟨-, -, place, outcome, deeds, hm⟩
    · exact (moved_settle hother _).kept hother hlive hcall
    · exact kept_cancel hcall
    · exact hm.kept hother hlive hcall
  | rotate =>
    obtain rfl := Option.some.inj hstep
    exact ⟨call, hcall, Kept.of_cancels (List.Subset.refl _)⟩
  | identityChanged =>
    simp only [mutationStep] at hstep
    split_ifs at hstep
    · exact Option.some.inj hstep ▸ kept_cancel hcall
    · exact Option.some.inj hstep ▸ ⟨call, hcall, Kept.of_cancels (List.Subset.refl _)⟩
  | rebind callbacks =>
    obtain rfl := Option.some.inj hstep
    exact ⟨call, hcall, Kept.of_cancels (List.Subset.refl _)⟩

theorem done_run {es : List (MutationEvent V D E)} (h : s.Sound)
    (hrun : Runs.run mutationStep s es = some t) {result : Except (Rejection E) D}
    (hcall : s.HasCall i call) (hdone : call.place = .done result) :
    ∃ later, t.HasCall i later ∧ later.place = .done result := by
  have hstep (s : MutationStore V D E) (e : MutationEvent V D E) (t : MutationStore V D E)
      (hs : s.Sound ∧ ∃ call, s.HasCall i call ∧ call.place = .done result)
      (hstep : mutationStep s e = some t) :
      t.Sound ∧ ∃ call, t.HasCall i call ∧ call.place = .done result := by
    obtain ⟨hsound, call, hcall, hdone⟩ := hs
    obtain ⟨later, hlater, hkept⟩ := kept_step hsound hstep hcall
    exact ⟨hsound.step hstep, later, hlater, hkept.done result hdone⟩
  exact (Runs.run_invariant hstep hrun ⟨h, call, hcall, hdone⟩).2

/-- The first `n` calls are over, or of an epoch before this one, and the others are not. -/
structure Past (n epoch : ℕ) (s : MutationStore V D E) : Prop where
  old : ∀ i call, i < n → s.HasCall i call → Stopped s i call ∨ call.epoch < epoch
  new : ∀ i call, n ≤ i → s.HasCall i call → epoch ≤ call.epoch
  le_documentEpoch : epoch ≤ s.documentEpoch
  le_length : n ≤ s.calls.length

/-- In this step none of the first `n` calls publishes or calls the application back. -/
structure Quiet (n : ℕ) (s : MutationStore V D E) (e : MutationEvent V D E)
    (t : MutationStore V D E) : Prop where
  log : ∃ entries, t.log = s.log ++ entries ∧ ∀ entry ∈ entries, n ≤ entry.1
  state : ∀ i answer, e = .resume i answer → i < n →
    t.state = s.state ∨ t.state = .idle ∧ ∀ j ∈ s.recent, j < n

def MutationEvent.Stops : MutationEvent V D E → Prop
  | .cancel | .rotate | .identityChanged => True
  | _ => False

/-- What a step does to the books: epochs and calls only grow, and a new call is of this epoch. -/
structure Grown (s t : MutationStore V D E) : Prop where
  documentEpoch : s.documentEpoch ≤ t.documentEpoch
  length : s.calls.length ≤ t.calls.length
  new : ∀ i call, s.calls.length ≤ i → t.HasCall i call → call.epoch = s.documentEpoch

theorem Grown.of_length (hepoch : s.documentEpoch ≤ t.documentEpoch)
    (hlength : t.calls.length = s.calls.length) : Grown s t where
  documentEpoch := hepoch
  length := hlength.ge
  new i call hle hcall := by
    have hlt : i < t.calls.length := (List.getElem?_eq_some_iff.mp hcall).1
    exact absurd hle (hlength ▸ hlt).not_ge

theorem grown_cancel (s : MutationStore V D E) : Grown s s.cancel := Grown.of_length le_rfl rfl

theorem Moved.grown {place : Place D E} {outcome : Option (Except E D)} {deeds : List Deed}
    (hm : Moved s t i call place outcome deeds) : Grown s t :=
  Grown.of_length hm.documentEpoch.ge hm.length_calls

theorem grown_step {e : MutationEvent V D E} (h : s.Sound) (hstep : mutationStep s e = some t) :
    Grown s t := by
  cases e with
  | mutate vars =>
    simp only [mutationStep] at hstep
    split_ifs at hstep with hepoch
    obtain rfl := Option.some.inj hstep
    have hlength : (s.mutate vars).calls.length = s.calls.length + 1 := List.length_append
    refine ⟨le_rfl, hlength ▸ Nat.le_succ _, fun i call hle hcall => ?_⟩
    rcases hasCall_mutate.mp hcall with hold | ⟨-, rfl⟩
    · exact absurd hle (List.getElem?_eq_some_iff.mp hold).1.not_ge
    · exact hepoch.symm
  | reset => exact Option.some.inj hstep ▸ Grown.of_length le_rfl rfl
  | cancel => exact Option.some.inj hstep ▸ grown_cancel s
  | stop =>
    simp only [mutationStep, stop] at hstep
    split at hstep
    · cases hstep
    · obtain rfl := Option.some.inj hstep
      simp only [stopWatchingWhenIdle]
      split_ifs
      · exact Grown.of_length le_rfl rfl
      · exact Grown.of_length le_rfl rfl
    · obtain rfl := Option.some.inj hstep
      exact Grown.of_length le_rfl (List.length_modify _ _ _)
  | resume i answer =>
    obtain ⟨call, hcall, -, -, hcases⟩ := resume_cases hstep (h.agrees i)
    rcases hcases with ⟨-, rfl⟩ | ⟨-, -, rfl⟩ | ⟨-, -, place, outcome, deeds, hm⟩
    · exact (moved_settle hcall _).grown
    · exact grown_cancel s
    · exact hm.grown
  | rotate => exact Option.some.inj hstep ▸ Grown.of_length (Nat.le_succ _) rfl
  | identityChanged =>
    simp only [mutationStep] at hstep
    split_ifs at hstep
    · exact Option.some.inj hstep ▸ grown_cancel s
    · exact Option.some.inj hstep ▸ Grown.of_length le_rfl rfl
  | rebind callbacks => exact Option.some.inj hstep ▸ Grown.of_length le_rfl rfl

theorem Past.step {n epoch : ℕ} {e : MutationEvent V D E} (hp : Past n epoch s) (h : s.Sound)
    (hstep : mutationStep s e = some t) : Past n epoch t := by
  have hgrown := grown_step h hstep
  have hfrom {i : ℕ} {later : MutateCall V D E} (hlt : i < s.calls.length)
      (hlater : t.HasCall i later) :
      ∃ call, s.HasCall i call ∧ Kept s t i call later := by
    obtain ⟨other, hother, hkept⟩ := kept_step h hstep (List.getElem?_eq_getElem hlt)
    obtain rfl : later = other := Option.some.inj (hlater.symm.trans hother)
    exact ⟨_, List.getElem?_eq_getElem hlt, hkept⟩
  constructor
  case old =>
    intro i later hlt hlater
    obtain ⟨call, hcall, hkept⟩ := hfrom (hlt.trans_le hp.le_length) hlater
    rw [hkept.epoch]
    exact (hp.old i call hlt hcall).imp_left hkept.stopped
  case new =>
    intro i later hle hlater
    rcases lt_or_ge i s.calls.length with hlt | hge
    · obtain ⟨call, hcall, hkept⟩ := hfrom hlt hlater
      rw [hkept.epoch]
      exact hp.new i call hle hcall
    · rw [hgrown.new i later hge hlater]
      exact hp.le_documentEpoch
  case le_documentEpoch => exact hp.le_documentEpoch.trans hgrown.documentEpoch
  case le_length => exact hp.le_length.trans hgrown.length

theorem past_of_stops {e : MutationEvent V D E} (h : s.Sound) (he : e.Stops)
    (hstep : mutationStep s e = some t) : ∃ epoch, Past s.calls.length epoch t := by
  have hnew {t : MutationStore V D E} (hlength : t.calls.length = s.calls.length) (i : ℕ)
      (call : MutateCall V D E) (hle : s.calls.length ≤ i) (hcall : t.HasCall i call) :
      t.documentEpoch ≤ call.epoch :=
    absurd (hlength ▸ (List.getElem?_eq_some_iff.mp hcall).1 : i < s.calls.length) hle.not_gt
  have hcancel : Past s.calls.length s.documentEpoch s.cancel :=
    ⟨fun i call _ hcall => Or.inl ((h.cancel.alive i call hcall).resolve_right List.not_mem_nil),
      hnew rfl, le_rfl, le_rfl⟩
  cases e with
  | cancel => exact ⟨_, Option.some.inj hstep ▸ hcancel⟩
  | rotate =>
    obtain rfl := Option.some.inj hstep
    refine ⟨_, fun i call _ hcall => Or.inr ?_, hnew rfl, le_rfl, le_rfl⟩
    exact Nat.lt_succ_of_le ((h.epoch_le i call hcall).trans h.identityEpoch_le)
  | identityChanged =>
    simp only [mutationStep] at hstep
    split_ifs at hstep with hbrowser hwatching
    · exact ⟨_, Option.some.inj hstep ▸ hcancel⟩
    · obtain rfl := Option.some.inj hstep
      have hidle : s.active = [] := not_not.mp fun hactive => hwatching (h.watched hbrowser hactive)
      refine ⟨_, fun i call _ hcall => Or.inl ?_, hnew rfl, le_rfl, le_rfl⟩
      exact (h.alive i call hcall).resolve_right (hidle ▸ List.not_mem_nil)
  | _ => exact he.elim

theorem Quiet.of_log {n : ℕ} {e : MutationEvent V D E} (hlog : t.log = s.log)
    (he : ∀ i answer, e ≠ .resume i answer) : Quiet n s e t where
  log := ⟨[], hlog.trans (List.append_nil _).symm, nofun⟩
  state i answer heq := (he i answer heq).elim

theorem Past.quiet {n epoch : ℕ} {e : MutationEvent V D E} (hp : Past n epoch s) (h : s.Sound)
    (hstep : mutationStep s e = some t) : Quiet n s e t := by
  cases e with
  | mutate vars =>
    simp only [mutationStep] at hstep
    split_ifs at hstep
    obtain rfl := Option.some.inj hstep
    refine ⟨⟨_, rfl, fun entry hentry => ?_⟩, by rintro _ _ ⟨⟩⟩
    rw [List.mem_singleton.mp hentry]
    exact hp.le_length
  | reset => exact Option.some.inj hstep ▸ Quiet.of_log rfl (by rintro _ _ ⟨⟩)
  | cancel => exact Option.some.inj hstep ▸ Quiet.of_log rfl (by rintro _ _ ⟨⟩)
  | stop =>
    simp only [mutationStep, stop] at hstep
    split at hstep
    · cases hstep
    · obtain rfl := Option.some.inj hstep
      simp only [stopWatchingWhenIdle]
      split_ifs
      · exact Quiet.of_log rfl (by rintro _ _ ⟨⟩)
      · exact Quiet.of_log rfl (by rintro _ _ ⟨⟩)
    · exact Option.some.inj hstep ▸ Quiet.of_log rfl (by rintro _ _ ⟨⟩)
  | resume i answer =>
    obtain ⟨call, hcall, hpending, hlive, hcases⟩ := resume_cases hstep (h.agrees i)
    rcases hcases with ⟨-, rfl⟩ | ⟨haborted, hepoch, rfl⟩ |
      ⟨haborted, hepoch, place, outcome, deeds, hm⟩
    · have hm := moved_settle hcall (.error .cancelled)
      refine ⟨⟨[], hm.log, by rintro _ ⟨⟩⟩, fun _ _ _ _ => Or.inl ?_⟩
      rcases hm.state with ⟨hsame, -⟩ | ⟨hdeed, -⟩
      · exact hsame
      · cases hdeed
    · refine ⟨⟨[], (List.append_nil _).symm, by rintro _ ⟨⟩⟩, ?_⟩
      rintro _ _ ⟨⟩ hlt
      refine Or.inr ⟨rfl, fun j hj => ?_⟩
      -- This call is of the store's epoch, and the calls that came later are of no earlier one.
      obtain ⟨other, hother, -, -⟩ := h.recent j hj
      by_contra hge
      have hstopped := not_stopped hlive haborted hpending
      have hold := (hp.old i call hlt hcall).resolve_left hstopped
      have hactive := (h.alive i call hcall).resolve_left hstopped
      have hle := h.epoch_le j other hother
      rw [← h.active i call hcall hactive] at hle
      exact absurd (hold.trans_le (hp.new j other (not_lt.mp hge) hother)) hle.not_gt
    · have hge : n ≤ i := by
        by_contra hlt
        rcases hp.old i call (not_le.mp hlt) hcall with hstopped | hold
        · exact not_stopped hlive haborted hpending hstopped
        · exact absurd (hepoch ▸ hold) hp.le_documentEpoch.not_gt
      refine ⟨⟨_, hm.log, fun entry hentry => ?_⟩, ?_⟩
      · obtain ⟨deed, -, rfl⟩ := List.mem_map.mp hentry
        exact hge
      · rintro _ _ ⟨⟩ hlt
        exact absurd hlt hge.not_gt
  | rotate => exact Option.some.inj hstep ▸ Quiet.of_log rfl (by rintro _ _ ⟨⟩)
  | identityChanged =>
    simp only [mutationStep] at hstep
    split_ifs at hstep
    · exact Option.some.inj hstep ▸ Quiet.of_log rfl (by rintro _ _ ⟨⟩)
    · exact Option.some.inj hstep ▸ Quiet.of_log rfl (by rintro _ _ ⟨⟩)
  | rebind callbacks => exact Option.some.inj hstep ▸ Quiet.of_log rfl (by rintro _ _ ⟨⟩)

theorem quiet_run {es : List (MutationEvent V D E)} {e f : MutationEvent V D E}
    {u v : MutationStore V D E} (h : s.Sound) (he : e.Stops) (hstep : mutationStep s e = some t)
    (hrun : Runs.run mutationStep t es = some u) (hlast : mutationStep u f = some v) :
    Quiet s.calls.length u f v := by
  obtain ⟨epoch, hpast⟩ := past_of_stops h he hstep
  generalize s.calls.length = n at hpast ⊢
  have hkept (s : MutationStore V D E) (e : MutationEvent V D E) (t : MutationStore V D E)
      (hs : s.Sound ∧ Past n epoch s) (hstep : mutationStep s e = some t) :
      t.Sound ∧ Past n epoch t :=
    ⟨hs.1.step hstep, hs.2.step hs.1 hstep⟩
  obtain ⟨hsound, hpast⟩ := Runs.run_invariant hkept hrun ⟨h.step hstep, hpast⟩
  exact hpast.quiet hsound hlast

/-- In every run a settled promise stays settled, a call that was stopped does not show, the state
is that of the call made last, a failure is one of the work, and an idle store does not watch. -/
theorem mutationStore_truthful (browser : Bool) (callbacks : MutationCallbacks) (documentEpoch : ℕ)
    (es : List (MutationEvent V D E)) (s : MutationStore V D E)
    (hrun : Runs.run mutationStep (create browser callbacks documentEpoch) es = some s) :
    (∀ fs u i call result, Runs.run mutationStep s fs = some u → s.HasCall i call →
      call.place = .done result → ∃ later, u.HasCall i later ∧ later.place = .done result) ∧
    (∀ e t fs u f v, e.Stops → mutationStep s e = some t → Runs.run mutationStep t fs = some u →
      mutationStep u f = some v → Quiet s.calls.length u f v) ∧
    (s.recent = none → s.state = .idle) ∧
    (∀ i ∈ s.recent, ∃ call, s.HasCall i call ∧ s.state = call.shown) ∧
    (∀ i, (i, Deed.onError) ∈ s.log → (i, Deed.workFailed) ∈ s.log ∧ (i, Deed.fnResolved) ∉ s.log) ∧
    (s.active = [] → s.cancels = [] → s.watching = false) := by
  have h : s.Sound := sound_run (sound_create browser callbacks documentEpoch) hrun
  refine ⟨?_, ?_, h.idle, ?_, ?_, ?_⟩
  · intro fs u i call result hmore hcall hdone
    exact done_run h hmore hcall hdone
  · intro e t fs u f v he hstep hmore hlast
    exact quiet_run h he hstep hmore hlast
  · intro i hi
    obtain ⟨call, hcall, -, hstate⟩ := h.recent i hi
    exact ⟨call, hcall, hstate⟩
  · intro i hlog
    have hcall : s.HasCall i _ := List.getElem?_eq_getElem (h.log_lt _ hlog)
    obtain ⟨error, herror⟩ := h.onError i _ hcall hlog
    refine ⟨h.failed i _ error hcall herror, fun hresolved => ?_⟩
    obtain ⟨data, hdata⟩ := h.resolved i _ hcall hresolved
    cases herror.symm.trans hdata
  · intro hactive hcancels
    by_contra hwatching
    rcases h.watching (Bool.of_not_eq_false hwatching) with hne | hne
    · exact hne hactive
    · exact hne hcancels

/-- A call whose function fails, up to its `onError`. -/
def failingRun : List (MutationEvent ℕ ℕ ℕ) :=
  [.mutate 1, .resume 0 .heard, .resume 0 (.failed 7), .resume 0 .heard]

def failedStore : MutationStore ℕ ℕ ℕ :=
  (Runs.run mutationStep (create true ⟨false, true, true, true⟩ 0) failingRun).getD
    (create true ⟨false, true, true, true⟩ 0)

theorem mutationStore_truthful_failedStore : (0, Deed.onError) ∈ failedStore.log ∧
    (0, Deed.workFailed) ∈ failedStore.log ∧ (0, Deed.fnResolved) ∉ failedStore.log :=
  ⟨by decide, (mutationStore_truthful true ⟨false, true, true, true⟩ 0 failingRun failedStore
    rfl).2.2.2.2.1 0 (by decide)⟩

end Nifra.Query
