import Nifra.Live.Runtime

/-! # Closing

After `close` the hub stays down, unless the drain that was suspended goes on to a gap or to an
event that fails to apply: forgetting what is unknown also answers that the bus is back.
-/

namespace Nifra.Live

namespace LiveHub
variable {options : HubOptions} {hub hub' hub'' : LiveHub} {ws code : ℕ} {tag : JSString}
  {tags : List JSString}

structure Shrinks (hub hub' : LiveHub) : Prop where
  down : hub'.down = hub.down
  gone : ∀ ws, hub.sockets.get ws = none → hub'.sockets.get ws = none

theorem Shrinks.refl : hub.Shrinks hub := ⟨rfl, fun _ => id⟩

theorem Shrinks.trans (h : hub.Shrinks hub') (h' : hub'.Shrinks hub'') : hub.Shrinks hub'' :=
  ⟨h'.down.trans h.down, fun ws hws => h'.gone ws (h.gone ws hws)⟩

theorem Shrinks.foldl {α : Type*} {f : LiveHub → α → LiveHub}
    (hf : ∀ (hub : LiveHub) a, hub.Shrinks (f hub a)) (l : List α) :
    hub.Shrinks (l.foldl f hub) := by
  induction l generalizing hub with
  | nil => exact .refl
  | cons a l ih => exact (hf hub a).trans ih

theorem Fanned.shrinks (h : hub.Fanned hub') : hub.Shrinks hub' :=
  ⟨h.down, fun ws hws => by rw [h.sockets, hws]⟩

theorem shrinks_forget : hub.Shrinks (hub.forget ws) := by
  refine ⟨forget_down, fun ws' hws' => ?_⟩
  rw [sockets_forget, InsertionMap.get_delete, hws', ite_self]

theorem shrinks_drop : hub.Shrinks (hub.drop ws code) := ⟨forget_down, shrinks_forget.gone⟩

theorem shrinks_send {frame : Sent} {slow : Bool} : hub.Shrinks (hub.send ws frame slow) := by
  have hframe : hub.Shrinks { hub with sent := hub.sent ++ [frame] } := ⟨rfl, fun _ => id⟩
  unfold send
  split_ifs
  · exact hframe.trans shrinks_drop
  · exact hframe

theorem shrinks_update {f : LiveSocket → LiveSocket} : hub.Shrinks (hub.update ws f) := by
  refine ⟨(update_fields hub ws f).2.2.2.2, fun ws' hws' => ?_⟩
  rw [get_update]
  split_ifs with hsame
  · rw [← hsame, hws', Option.map_none]
  · exact hws'

theorem shrinks_leave : hub.Shrinks (hub.leave ws tag) :=
  ⟨shrinks_update.down, shrinks_update.gone⟩

theorem shrinks_join : hub.Shrinks (hub.join ws tag) := ⟨shrinks_update.down, shrinks_update.gone⟩

theorem shrinks_closeAll : hub.Shrinks (hub.closeAll code) := .foldl (fun _ _ => shrinks_drop) _

theorem shrinks_takeWatch {s : LiveSocket} {watch : Watch} :
    hub.Shrinks (hub.takeWatch ws s watch).1 := by
  simp only [takeWatch]
  split_ifs
  · exact shrinks_update.trans shrinks_drop
  · exact shrinks_update
  · exact shrinks_update.trans shrinks_update

theorem shrinks_message {data : Inbound} {now : ℤ} {slow : Bool} :
    hub.Shrinks (hub.message ws data now slow).1 := by
  unfold message
  split
  · exact .refl
  · simp only
    split_ifs
    · exact shrinks_update.trans shrinks_drop
    · cases data with
      | heartbeat => exact shrinks_update.trans shrinks_send
      | malformed => exact shrinks_update.trans shrinks_drop
      | watch watch => exact shrinks_update.trans shrinks_takeWatch

theorem shrinks_rewatch {held next : InsertionMap JSString Unit} :
    hub.Shrinks (hub.rewatch ws held next) := by
  unfold rewatch
  refine Shrinks.trans (.foldl (fun hub tag => ?_) _) (.foldl (fun hub tag => ?_) _)
  · split_ifs
    · exact .refl
    · exact shrinks_leave
  · split_ifs
    · exact .refl
    · exact shrinks_join

theorem shrinks_install {core : LiveCore} {i : Installing} {slow : Bool} :
    core.hub.Shrinks (core.install options i slow).hub := by
  simp only [LiveCore.install]
  split
  · exact shrinks_drop
  · unfold LiveCore.installPrepared
    split
    · exact .refl
    · split_ifs
      · exact .refl
      · exact shrinks_drop
      · split
        · exact shrinks_drop
        · simp only
          split_ifs
          · exact shrinks_drop
          · exact (shrinks_update.trans shrinks_rewatch).trans shrinks_send

theorem shrinks_revoke {event : LiveRevocation} : hub.Shrinks (hub.revoke event tags) := by
  unfold revoke
  split
  · refine .foldl (fun hub ws => ?_) _
    unfold revokeSocket
    split_ifs
    · exact shrinks_drop
    · exact .refl
  · refine (fanned_publishTags hub tags).shrinks.trans (.foldl (fun hub ws => ?_) _)
    unfold leaveTags
    split_ifs
    · refine .foldl (fun hub tag => ?_) _
      split_ifs
      · exact shrinks_leave
      · exact .refl
    · exact .refl

theorem shrinks_applyEvent {core core' : LiveCore} {event : LiveBusEvent} {now : ℤ}
    (h : core.applyEvent options event now = some core') : core.hub.Shrinks core'.hub := by
  unfold LiveCore.applyEvent at h
  split at h
  · obtain rfl := Option.some.inj h
    exact fanned_change.shrinks
  · simp only [Option.bind_eq_bind, Option.bind_eq_some_iff] at h
    obtain ⟨revocation, -, h⟩ := h
    obtain rfl := Option.some.inj h
    exact shrinks_revoke

theorem get_closeAll (hub : LiveHub) (code ws : ℕ) :
    (hub.closeAll code).sockets.get ws = none := by
  have hfold (others : List ℕ) (hub : LiveHub) (h : ws ∈ others ∨ hub.sockets.get ws = none) :
      (others.foldl (fun hub ws => hub.drop ws code) hub).sockets.get ws = none := by
    induction others generalizing hub with
    | nil => exact h.resolve_left List.not_mem_nil
    | cons other others ih =>
      refine ih _ ?_
      rcases h with hmem | hnone
      · rcases List.mem_cons.mp hmem with rfl | hmem
        · exact Or.inr get_drop
        · exact Or.inl hmem
      · exact Or.inr (shrinks_drop.gone ws hnone)
  refine hfold _ hub ?_
  rw [or_iff_not_imp_right, ← ne_eq, Option.ne_none_iff_exists']
  exact InsertionMap.mem_keys_iff.mpr

def Shut (hub : LiveHub) : Prop := hub.down ∧ ∀ ws, hub.sockets.get ws = none

theorem Shut.shrinks (h : hub.Shut) (hshrinks : hub.Shrinks hub') : hub'.Shut :=
  ⟨hshrinks.down.trans h.1, fun ws => hshrinks.gone ws (h.2 ws)⟩

theorem shut_closeAll (hub : LiveHub) (code : ℕ) :
    LiveHub.Shut ({ hub with down := true }.closeAll code) :=
  ⟨shrinks_closeAll.down, get_closeAll _ code⟩

end LiveHub

open LiveHub

theorem shut_step {options : HubOptions} {s t : HubState} {action : HubAction}
    (hshut : s.core.hub.Shut) (hsocket : action.isSocket) (h : s.Step options action t) :
    t.core.hub.Shut := by
  cases h with
  | openSocket =>
    change LiveHub.Shut (LiveHub.openSocket options s.core.hub _ _ _ _ _)
    rw [LiveHub.openSocket, hshut.1, Bool.true_or, Bool.true_or, if_pos rfl]
    exact ⟨rfl, hshut.2⟩
  | message => exact hshut.shrinks shrinks_message
  | install => exact hshut.shrinks shrinks_install
  | fail => exact hshut.shrinks shrinks_drop
  | drop => exact hshut.shrinks shrinks_drop
  | close => exact hshut.shrinks shrinks_forget
  | closing => exact hshut.shrinks shrinks_update
  | flush => exact hshut.shrinks fanned_flush.shrinks
  | restore => cases hsocket
  | apply => cases hsocket
  | resync => cases hsocket
  | lose => cases hsocket

namespace Runtime
variable {options : RuntimeOptions} {r t : Runtime} {action : RuntimeAction} {s : HubState}

structure Final (r t : Runtime) : Prop where
  shut : t.closed → ∀ s ∈ t.core, s.core.hub.Shut
  issued : r.closed → t.issued = r.issued

/-- The drain goes on to forget: at a gap, or at an event that failed to apply. -/
def Forgets (r : Runtime) : RuntimeAction → Prop
  | .resume _ _ => r.core.isSome ∧ match r.drain, r.queue with
    | .next, .gap _ :: _ => True
    | .failing _, _ => True
    | _, _ => False
  | _ => False

def Keeps (r : Runtime) (action : RuntimeAction) : Prop := r.closed → ¬ r.Forgets action

structure Closing (r : Runtime) : Prop where
  shut : r.closed → ∀ s ∈ r.core, s.core.hub.Shut
  loads : r.core = none → r.loads = []

theorem closing_create : create.Closing := ⟨nofun, fun _ => rfl⟩

theorem startDrain_of_closed {now : ℤ} (h : r.closed) : r.startDrain options now = r := by
  unfold startDrain
  rw [h]
  split
  · next hclosed => cases hclosed
  · rfl

/-- The drain touches neither the loads nor `closed`. -/
structure Drained (r t : Runtime) : Prop where
  closed : t.closed = r.closed
  core : r.core.isSome → t.core.isSome
  loads : t.loads = r.loads
  issued : t.issued = r.issued

structure Kept (r t : Runtime) : Prop extends Drained r t where
  shut : (∀ s ∈ r.core, s.core.hub.Shut) → ∀ s ∈ t.core, s.core.hub.Shut

theorem Kept.refl : Kept r r := ⟨⟨rfl, id, rfl, rfl⟩, id⟩

theorem Kept.of_shrinks (hs : r.core = some s) {core : LiveCore} (h : s.core.hub.Shrinks core.hub) :
    Kept r (r.withCore s core) := by
  refine ⟨⟨rfl, fun _ => rfl, rfl, rfl⟩, fun hshut s' hs' => ?_⟩
  obtain rfl := Option.some.inj hs'
  exact (hshut s hs).shrinks h

theorem kept_applyEvent (hs : r.core = some s) {event : LiveBusEvent} {now : ℤ} :
    Kept r (r.applyEvent options s event now) := by
  unfold Runtime.applyEvent
  split
  · exact ⟨⟨rfl, id, rfl, rfl⟩, id⟩
  · next core hcore =>
    obtain ⟨hdrained, hshut⟩ := Kept.of_shrinks hs (shrinks_applyEvent hcore)
    exact ⟨⟨hdrained.closed, hdrained.core, hdrained.loads, hdrained.issued⟩, hshut⟩

theorem kept_beginEvent (options : RuntimeOptions) (event : LiveBusEvent) (now : ℤ)
    (hs : r.core = some s) :
    Kept r (r.beginEvent options s event now) := by
  unfold beginEvent
  split
  · exact ⟨⟨rfl, id, rfl, rfl⟩, id⟩
  · split
    · exact ⟨⟨rfl, id, rfl, rfl⟩, id⟩
    · exact ⟨⟨rfl, id, rfl, rfl⟩, id⟩
    · exact kept_applyEvent hs

theorem kept_take (hs : r.core = some s) {now : ℤ}
    (hgap : ∀ head queue, r.queue ≠ .gap head :: queue) : Kept r (r.take options s now) := by
  unfold take
  split
  · exact ⟨⟨rfl, id, rfl, rfl⟩, id⟩
  · next item queue hqueue =>
    cases item with
    | gap head => exact absurd hqueue (hgap head queue)
    | down =>
      refine ⟨⟨rfl, fun _ => rfl, rfl, rfl⟩, fun _ s' hs' => ?_⟩
      obtain rfl := Option.some.inj hs'
      exact shut_closeAll _ _
    | event event =>
      simp only
      split_ifs
      · exact ⟨⟨rfl, id, rfl, rfl⟩, id⟩
      · have hnext : Runtime.core { r with queue := queue, drain := .next } = some s := hs
        obtain ⟨hdrained, hshut⟩ := kept_beginEvent options event now hnext
        exact ⟨⟨hdrained.closed, hdrained.core, hdrained.loads, hdrained.issued⟩, hshut⟩

theorem drained_take (hs : r.core = some s) {now : ℤ} : Drained r (r.take options s now) := by
  by_cases hgap : ∃ head queue, r.queue = .gap head :: queue
  · obtain ⟨head, queue, hqueue⟩ := hgap
    rw [take, hqueue]
    exact ⟨rfl, fun _ => rfl, rfl, rfl⟩
  · exact (kept_take hs fun head queue hqueue => hgap ⟨head, queue, hqueue⟩).toDrained

theorem drained_startDrain {now : ℤ} : Drained r (r.startDrain options now) := by
  unfold startDrain
  split
  · next hs _ _ => exact drained_take hs
  · exact Kept.refl.toDrained

theorem down_forgetUntil {head : ℕ} :
    ∃ s', (r.forgetUntil s head).core = some s' ∧ s'.core.hub.down = false := by
  have hdown : (LiveHub.closeAll { s.core.hub with down := false } closeCapacity).down = false :=
    shrinks_closeAll.down
  exact ⟨_, rfl, hdown⟩

theorem resume_cases {ok : Bool} {now : ℤ} (h : r.resume options ok now = some t) : Drained r t ∧
    (r.Forgets (.resume ok now) ∧ (∃ s' ∈ t.core, s'.core.hub.down = false) ∨
      ¬ r.Forgets (.resume ok now) ∧ Kept r t) := by
  have hkept {t : Runtime} (hforgets : ¬ r.Forgets (.resume ok now)) (hkept : Kept r t) :
      Drained r t ∧ (r.Forgets (.resume ok now) ∧ (∃ s' ∈ t.core, s'.core.hub.down = false) ∨
        ¬ r.Forgets (.resume ok now) ∧ Kept r t) := ⟨hkept.toDrained, Or.inr ⟨hforgets, hkept⟩⟩
  unfold resume at h
  split at h
  · next s hs hdrain =>
    obtain rfl := Option.some.inj h
    cases hqueue : r.queue with
    | nil =>
      refine hkept ?_ (kept_take hs (by rw [hqueue]; exact nofun))
      simp [Forgets, hdrain, hqueue]
    | cons item queue =>
      cases item with
      | gap head =>
        refine ⟨drained_take hs, Or.inl ⟨by simp [Forgets, hdrain, hqueue, hs], ?_⟩⟩
        rw [take, hqueue]
        exact down_forgetUntil
      | down =>
        refine hkept ?_ (kept_take hs (by rw [hqueue]; exact nofun))
        simp [Forgets, hdrain, hqueue]
      | event event =>
        refine hkept ?_ (kept_take hs (by rw [hqueue]; exact nofun))
        simp [Forgets, hdrain, hqueue]
  · next s event hs hdrain =>
    have hkeeps : ¬ r.Forgets (.resume ok now) := by simp [Forgets, hdrain]
    split_ifs at h
    · obtain rfl := Option.some.inj h
      exact hkept hkeeps (kept_applyEvent hs)
    · obtain rfl := Option.some.inj h
      exact hkept hkeeps ⟨⟨rfl, id, rfl, rfl⟩, id⟩
  · next s event hs hdrain =>
    obtain rfl := Option.some.inj h
    exact hkept (by simp [Forgets, hdrain]) ⟨⟨rfl, id, rfl, rfl⟩, id⟩
  · next s event hs hdrain =>
    obtain rfl := Option.some.inj h
    exact ⟨⟨rfl, fun _ => rfl, rfl, rfl⟩,
      Or.inl ⟨by simp [Forgets, hdrain, hs], down_forgetUntil⟩⟩
  · cases h

theorem Drained.closing (h : Drained r t) (hr : r.Closing)
    (hshut : t.closed → ∀ s ∈ t.core, s.core.hub.Shut) : t.Closing := by
  refine ⟨hshut, fun hnone => ?_⟩
  rw [h.loads]
  refine hr.loads ?_
  by_contra hsome
  have hcore := h.core (Option.isSome_iff_ne_none.mpr hsome)
  rw [hnone] at hcore
  cases hcore

theorem Kept.final (h : Kept r t) (hr : r.Closing) : Final r t ∧ t.Closing := by
  have hshut : t.closed → ∀ s ∈ t.core, s.core.hub.Shut := fun hclosed =>
    h.shut (hr.shut (h.closed ▸ hclosed))
  exact ⟨⟨hshut, fun _ => h.issued⟩, h.toDrained.closing hr hshut⟩

theorem Drained.final (h : Drained r t) (hr : r.Closing) (hopen : r.closed = false) :
    Final r t ∧ t.Closing := by
  have hshut : t.closed → ∀ s ∈ t.core, s.core.hub.Shut := fun hclosed => by
    rw [h.closed, hopen] at hclosed
    cases hclosed
  exact ⟨⟨hshut, fun _ => h.issued⟩, h.closing hr hshut⟩

theorem not_final {s' : HubState} (hs' : s' ∈ t.core) (hdown : s'.core.hub.down = false)
    (hclosed : t.closed) : ¬ Final r t := by
  intro hfinal
  have hshut := (hfinal.shut hclosed s' hs').1
  rw [hdown] at hshut
  cases hshut

theorem final_start {head : ℕ} {now : ℤ} (hr : r.Closing) :
    Final r (r.start options head now) ∧ (r.start options head now).Closing := by
  have hstart : Drained (r.started options head) (r.start options head now) := drained_startDrain
  have hdrained : Drained r (r.start options head now) :=
    ⟨hstart.closed, fun _ => hstart.core rfl, hstart.loads, hstart.issued⟩
  cases hclosed : r.closed with
  | false => exact hdrained.final hr hclosed
  | true =>
    have hsame : r.start options head now = r.started options head := startDrain_of_closed hclosed
    have hshut : ∀ s ∈ (r.start options head now).core, s.core.hub.Shut := by
      intro s hs
      rw [hsame] at hs
      obtain rfl := Option.some.inj hs
      exact ⟨hclosed, fun _ => rfl⟩
    exact ⟨⟨fun _ => hshut, fun _ => hdrained.issued⟩, hdrained.closing hr fun _ => hshut⟩

theorem final_enqueue {item : Queued} {now : ℤ} (hr : r.Closing) :
    Final r (r.enqueue options item now) ∧ (r.enqueue options item now).Closing := by
  have hqueue : Kept r { r with queue := r.queue ++ [item] } := ⟨⟨rfl, id, rfl, rfl⟩, id⟩
  have hstart : Drained { r with queue := r.queue ++ [item] } (r.enqueue options item now) :=
    drained_startDrain
  have hdrained : Drained r (r.enqueue options item now) :=
    ⟨hstart.closed, hstart.core, hstart.loads, hstart.issued⟩
  cases hclosed : r.closed with
  | false => exact hdrained.final hr hclosed
  | true =>
    have hsame : r.enqueue options item now = { r with queue := r.queue ++ [item] } :=
      startDrain_of_closed hclosed
    rw [hsame]
    exact hqueue.final hr

theorem finish_of_down {load : LoadState} {run : LoadRun} {ttl : ℤ} :
    load.finish run ttl true = none := by
  rw [LoadState.finish, Bool.or_true, if_pos rfl]
  rfl

theorem final_step (hr : r.Closing) (h : r.step options action = some t) :
    (Final r t ↔ r.Keeps action) ∧ (Final r t → t.Closing) := by
  have hfinal (hforgets : ¬ r.Forgets action) (hall : Final r t ∧ t.Closing) :
      (Final r t ↔ r.Keeps action) ∧ (Final r t → t.Closing) :=
    ⟨iff_of_true hall.1 fun _ => hforgets, fun _ => hall.2⟩
  cases action with
  | start head now =>
    refine hfinal id ?_
    simp only [step] at h
    split_ifs at h
    obtain rfl := Option.some.inj h
    exact final_start hr
  | deliver item now =>
    refine hfinal id ?_
    obtain rfl := Option.some.inj h
    exact final_enqueue hr
  | resume ok now =>
    obtain ⟨hdrained, ⟨hforgets, s', hs', hdown⟩ | ⟨hkeeps, hkept⟩⟩ := resume_cases h
    · by_cases hclosed : r.closed
      · have hnot : ¬ Final r t := not_final hs' hdown (hdrained.closed.trans hclosed)
        have hbroken : ¬ r.Keeps (.resume ok now) := fun hkeeps => hkeeps hclosed hforgets
        exact ⟨iff_of_false hnot hbroken, fun hall => absurd hall hnot⟩
      · have hall := hdrained.final hr (Bool.eq_false_of_not_eq_true hclosed)
        exact ⟨iff_of_true hall.1 fun h => absurd h hclosed, fun _ => hall.2⟩
    · exact hfinal hkeeps (hkept.final hr)
  | socket action =>
    refine hfinal id ?_
    simp only [step, Option.bind_eq_bind, Option.bind_eq_some_iff] at h
    obtain ⟨s, hs, h⟩ := h
    split_ifs at h with hsocket
    obtain ⟨s', hs', rfl⟩ := Option.map_eq_some_iff.mp h
    have hkept : Kept r { r with core := some s' } := by
      refine ⟨⟨rfl, fun _ => rfl, rfl, rfl⟩, fun hshut s'' hs'' => ?_⟩
      obtain rfl := Option.some.inj hs''
      exact shut_step (hshut s hs) hsocket (HubState.step_cases hs')
    exact hkept.final hr
  | read request =>
    refine hfinal id ?_
    simp only [step, Option.bind_eq_bind, Option.bind_eq_some_iff] at h
    obtain ⟨s, -, h⟩ := h
    obtain rfl := Option.some.inj h
    exact ⟨⟨hr.shut, fun _ => rfl⟩, hr.shut, hr.loads⟩
  | prepare n =>
    refine hfinal id ?_
    simp only [step, Option.bind_eq_bind, Option.bind_eq_some_iff] at h
    obtain ⟨s, hs, reading, -, h⟩ := h
    obtain rfl := Option.some.inj h
    exact ⟨⟨hr.shut, fun _ => rfl⟩, hr.shut, fun hnone => by cases hs.symm.trans hnone⟩
  | seed request =>
    refine hfinal id ?_
    simp only [step, Option.bind_eq_bind, Option.bind_eq_some_iff] at h
    obtain ⟨s, hs, h⟩ := h
    split_ifs at h
    obtain rfl := Option.some.inj h
    exact ⟨⟨hr.shut, fun _ => rfl⟩, hr.shut, fun hnone => by cases hs.symm.trans hnone⟩
  | finish n run =>
    refine hfinal id ?_
    simp only [step, Option.bind_eq_bind, Option.bind_eq_some_iff] at h
    obtain ⟨load, hload, h⟩ := h
    obtain rfl := Option.some.inj h
    refine ⟨⟨hr.shut, fun hclosed => ?_⟩, hr.shut, fun hnone => ?_⟩
    · cases hcore : r.core with
      | none =>
        rw [hr.loads hcore] at hload
        cases hload
      | some s =>
        simp only [Option.any_some, (hr.shut hclosed s hcore).1, finish_of_down, Option.toList_none,
          List.append_nil]
    · simp only [hr.loads hnone, List.eraseIdx_nil]
  | close =>
    refine hfinal id ?_
    simp only [step] at h
    split_ifs at h with hclosed
    · obtain rfl := Option.some.inj h
      exact Kept.refl.final hr
    · obtain rfl := Option.some.inj h
      have hshut : ∀ s ∈ r.close.core, s.core.hub.Shut := by
        intro s hs
        obtain ⟨s, -, rfl⟩ := Option.map_eq_some_iff.mp hs
        exact shut_closeAll _ _
      refine ⟨⟨fun _ => hshut, fun h => absurd h hclosed⟩, fun _ => hshut, fun hnone => ?_⟩
      exact hr.loads (Option.map_eq_none_iff.mp hnone)

/-- In every run from the start, every step is final exactly when no drain goes on to forget after
`close`. -/
theorem closing_final_iff (options : RuntimeOptions) (actions : List RuntimeAction) :
    Runs.Along (step options) (fun r action => ∀ t, r.step options action = some t → Final r t)
        create actions ↔
      Runs.Along (step options)
        (fun r action => (r.step options action).isSome → r.Keeps action) create actions := by
  have hrun (r : Runtime) (hr : r.Closing) :
      Runs.Along (step options) (fun r action => ∀ t, r.step options action = some t → Final r t)
        r actions ↔
      Runs.Along (step options)
        (fun r action => (r.step options action).isSome → r.Keeps action) r actions := by
    induction actions generalizing r with
    | nil => exact Iff.rfl
    | cons action actions ih =>
      simp only [Runs.Along]
      cases ht : r.step options action with
      | none => simp
      | some t =>
        obtain ⟨hiff, hnext⟩ := final_step hr ht
        simp only [Option.some.injEq, forall_eq', Option.isSome_some, true_implies]
        rw [hiff]
        exact and_congr_right fun hkeeps => ih t (hnext (hiff.mpr hkeeps))
  exact hrun create closing_create

/-- An event is under way and a gap waits behind it when `close` runs: the gap clears the flag, a
socket is admitted, and a load that came after `close` issues a grant. -/
theorem reopened_after_close :
    let cart : LiveKey := ⟨js "cart", by decide⟩
    let options : RuntimeOptions :=
      ⟨⟨1, fun key _ => key.text, fun key => key.text.length, 10, 10, none⟩, 100, 120000, 100, 600,
        false⟩
    let request : LoadRequest := ⟨⟨js "a", js "page", .load, []⟩, js "/", some ⟨js "/", []⟩, [], 0⟩
    let run : LoadRun :=
      ⟨none, false, fun _ => true, [], [(pageOwner (js "/"), [cart])], 0, none, true, 0⟩
    let closing : List RuntimeAction := [.start 5 0, .deliver (.event ⟨6, .change [js "cart"]⟩) 0,
      .deliver (.gap 9) 0, .close]
    let later : List RuntimeAction := [.resume true 0, .resume true 0, .resume true 0,
      .socket (.openSocket 0 (js "a") 0 false false), .read request, .prepare 0, .finish 0 run]
    ∃ r t s, Runs.run (step options) create closing = some r ∧ r.closed ∧
      Runs.run (step options) r later = some t ∧ t.closed ∧ t.core = some s ∧
      s.core.hub.down = false ∧ s.core.hub.sockets.has 0 ∧ r.issued = [] ∧ t.issued.length = 1 :=
  ⟨_, _, _, rfl, rfl, rfl, rfl, rfl, rfl, rfl, rfl, rfl⟩

end Runtime

end Nifra.Live
