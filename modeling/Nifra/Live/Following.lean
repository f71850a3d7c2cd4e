import Nifra.Live.Closing
import Nifra.Live.RevocationSafety

/-! # Following the bus

A process applies the events of one ordered log at its own pace. Every revocation up to the seq that
it has seen was applied there, or is below the floor of its revocations.
-/

namespace Nifra.Live

open Revocations

variable {log : List LiveBusEvent} {low low' high head : ℕ} {items : List Queued} {item : Queued}
  {event : LiveBusEvent}

/-- Between two seqs, the log is what the items deliver, in order, but for what they skip. -/
def Covers (log : List LiveBusEvent) : ℕ → List Queued → ℕ → Prop
  | low, [], high => ∀ e ∈ log, e.seq ≤ high → e.seq ≤ low
  | low, .event event :: items, high =>
    (∀ e ∈ log, e.seq < event.seq → e.seq ≤ low) ∧ Covers log (max low event.seq) items high
  | low, .gap head :: items, high => Covers log (max low head) items high
  | low, .down :: items, high => Covers log low items high

/-- The bus delivers an item: an event of the log after those delivered, or a gap up to a seq that it
has given. -/
def Delivers (log : List LiveBusEvent) (head high : ℕ) : Queued → Prop
  | .event event => event ∈ log ∧ ∀ e ∈ log, e.seq < event.seq → e.seq ≤ high
  | .gap seq => seq ≤ head
  | .down => True

def Queued.reach (high : ℕ) : Queued → ℕ
  | .event event => max high event.seq
  | .gap seq => max high seq
  | .down => high

theorem Covers.append (h : Covers log low items high) (hitem : Delivers log head high item) :
    Covers log low (items ++ [item]) (item.reach high) := by
  induction items generalizing low with
  | nil =>
    cases item with
    | event event =>
      obtain ⟨-, hbefore⟩ := hitem
      refine ⟨fun e he hlt => h e he (hbefore e he hlt), fun e he hle => ?_⟩
      rcases le_max_iff.mp hle with hle | hle
      · exact (h e he hle).trans (le_max_left _ _)
      · exact hle.trans (le_max_right _ _)
    | gap seq =>
      intro e he hle
      rcases le_max_iff.mp hle with hle | hle
      · exact (h e he hle).trans (le_max_left _ _)
      · exact hle.trans (le_max_right _ _)
    | down => exact h
  | cons first items ih =>
    cases first with
    | event event => exact ⟨h.1, ih h.2⟩
    | gap seq =>
      have hrest : Covers log (max low seq) items high := h
      exact ih hrest
    | down =>
      have hrest : Covers log low items high := h
      exact ih hrest

theorem Covers.append_log (h : Covers log low items high) (hhigh : high < event.seq)
    (hitems : ∀ e, .event e ∈ items → e.seq < event.seq) :
    Covers (log ++ [event]) low items high := by
  have hlog (e : LiveBusEvent) (he : e ∈ log ++ [event]) (hlt : e.seq < event.seq) : e ∈ log := by
    rcases List.mem_append.mp he with he | he
    · exact he
    · rw [List.mem_singleton.mp he] at hlt
      exact absurd hlt (lt_irrefl _)
  induction items generalizing low with
  | nil => exact fun e he hle => h e (hlog e he (hle.trans_lt hhigh)) hle
  | cons first items ih =>
    have hrest : ∀ e, .event e ∈ items → e.seq < event.seq :=
      fun e he => hitems e (List.mem_cons_of_mem _ he)
    cases first with
    | event first =>
      have hfirst := hitems first List.mem_cons_self
      exact ⟨fun e he hlt => h.1 e (hlog e he (hlt.trans hfirst)) hlt, ih h.2 hrest⟩
    | gap seq =>
      have htail : Covers log (max low seq) items high := h
      exact ih htail hrest
    | down =>
      have htail : Covers log low items high := h
      exact ih htail hrest

def Drain.pending (drain : Drain) (queue : List Queued) : List Queued :=
  match drain with
  | .tagging event | .applied event | .failing event => .event event :: queue
  | .idle | .next => queue

def Known (floor : ℕ) (applied : List Applied) (event : LiveBusEvent) : Prop :=
  ∀ revocation, event.input.revocation? = some revocation →
    event.seq ≤ floor ∨ ∃ a ∈ applied, a.event = revocation ∧ a.seq = event.seq

/-- Where the drain stands between what was seen and what was applied. -/
def Staged (seen : ℕ) (applied : List Applied) : Drain → Prop
  | .applied event => seen < event.seq ∧ (∀ a ∈ applied, a.seq ≤ event.seq) ∧
    ∀ revocation, event.input.revocation? = some revocation →
      ∃ a ∈ applied, a.event = revocation ∧ a.seq = event.seq
  | .tagging event | .failing event => seen < event.seq ∧ ∀ a ∈ applied, a.seq ≤ seen
  | .idle | .next => ∀ a ∈ applied, a.seq ≤ seen

/-- The log of the bus: increasing seqs, none above the last that was given. -/
structure Ordered (log : List LiveBusEvent) (head : ℕ) : Prop where
  increasing : log.Pairwise (·.seq < ·.seq)
  bound : ∀ e ∈ log, e.seq ≤ head
  safe : ∀ e ∈ log, isSafeInteger e.seq

structure FromBus (log : List LiveBusEvent) (head : ℕ) (items : List Queued) : Prop where
  events : ∀ e, .event e ∈ items → e ∈ log
  gaps : ∀ seq, .gap seq ∈ items → seq ≤ head

structure Position where
  seen : ℕ
  drain : Drain
  queue : List Queued
  revocations : Revocations

def Position.pending (v : Position) : List Queued := v.drain.pending v.queue

/-- The revocations are those of what was applied, none of it after the clock's last bound. -/
def AppliedAll (r : Revocations) (applied : List Applied) : Prop :=
  ∃ start raised clock, r.Faithful start applied raised clock ∧
    ∀ bound, (∀ a ∈ applied, a.now ≤ bound) → applied ≠ [] → clock ≤ bound

/-- A process applied what the bus delivered up to `seen`, and has the rest pending. -/
structure Follows (log : List LiveBusEvent) (head : ℕ) (ttl : ℤ) (fetched : ℕ)
    (applied : List Applied) (v : Position) : Prop where
  covers : Covers log v.seen v.pending fetched
  bus : FromBus log head v.pending
  fetched_le : fetched ≤ head
  seen_le : v.seen ≤ head
  known : ∀ e ∈ log, e.seq ≤ v.seen → Known v.revocations.floor applied e
  faithful : AppliedAll v.revocations applied
  ttlMs : v.revocations.ttlMs = ttl * 1000
  staged : Staged v.seen applied v.drain

variable {ttl now : ℤ} {fetched seen seq : ℕ} {applied : List Applied} {drain : Drain}
  {queue : List Queued} {r : Revocations} {revocation : LiveRevocation}

theorem Ordered.eq_of_seq (h : Ordered log head) {e e' : LiveBusEvent} (he : e ∈ log)
    (he' : e' ∈ log) (hseq : e.seq = e'.seq) : e = e' := by
  by_contra hne
  have : Std.Symm fun e e' : LiveBusEvent => e.seq ≠ e'.seq := ⟨fun _ _ => Ne.symm⟩
  have hpair : log.Pairwise fun e e' => e.seq ≠ e'.seq := h.increasing.imp fun hlt => hlt.ne
  exact hpair.forall he he' hne hseq

theorem Known.mono {floor floor' : ℕ} {applied' : List Applied} (h : Known floor applied event)
    (hfloor : floor ≤ floor') (happlied : applied ⊆ applied') : Known floor' applied' event := by
  intro revocation hrevocation
  refine (h revocation hrevocation).imp (fun hle => hle.trans hfloor) ?_
  rintro ⟨a, ha, hall⟩
  exact ⟨a, happlied ha, hall⟩

theorem FromBus.subset (h : FromBus log head items) {items' : List Queued}
    (hsub : items' ⊆ items) : FromBus log head items' :=
  ⟨fun e he => h.events e (hsub he), fun seq hseq => h.gaps seq (hsub hseq)⟩

theorem Revocations.le_store_floor {stamp : Stamp} :
    r.floor ≤ (r.store revocation stamp).floor := by
  by_cases hwhole : Whole revocation
  · rw [store_whole hwhole]
    exact le_raise_floor.2
  · exact (store_floor r stamp hwhole).1.ge

theorem Revocations.le_apply_floor : r.floor ≤ (r.apply revocation seq now).floor := by
  have hstore : (r.prune now).floor ≤ ((r.prune now).store revocation ⟨seq, now⟩).floor :=
    le_store_floor
  unfold Revocations.apply
  simp only
  split_ifs
  · exact hstore.trans le_raise_floor.2
  · exact hstore

theorem AppliedAll.create {ttlMs : ℤ} {limit : ℕ} :
    AppliedAll (Revocations.create head ttlMs limit) [] :=
  ⟨head, [], 0, .create limit ttlMs, fun _ _ hnil => absurd rfl hnil⟩

theorem AppliedAll.raise (h : AppliedAll r applied) (hseq : ∀ a ∈ applied, a.seq ≤ seq) :
    AppliedAll (r.raise seq) applied := by
  obtain ⟨start, raised, clock, hfaithful, hclock⟩ := h
  exact ⟨start, raised ++ [seq], clock, hfaithful.raise hseq, hclock⟩

theorem AppliedAll.apply (h : AppliedAll r applied) {a : Applied}
    (hseq : ∀ b ∈ applied, b.seq ≤ a.seq) (hnow : ∀ b ∈ applied, b.now ≤ a.now) :
    AppliedAll (r.apply a.event a.seq a.now) (applied ++ [a]) := by
  obtain ⟨start, raised, clock, hfaithful, hclock⟩ := h
  have hbound (bound : ℤ) (hall : ∀ b ∈ applied ++ [a], b.now ≤ bound) : a.now ≤ bound :=
    hall a (by simp)
  -- with nothing applied yet, the clock may be set as early as one likes
  obtain ⟨clock', hfaithful', hclock'⟩ :
      ∃ clock', r.Faithful start applied raised clock' ∧ clock' ≤ a.now := by
    by_cases hnil : applied = []
    · subst hnil
      exact ⟨a.now, ⟨nofun, hfaithful.genuine, hfaithful.floor⟩, le_rfl⟩
    · exact ⟨clock, hfaithful, hclock a.now hnow hnil⟩
  exact ⟨start, _, a.now, hfaithful'.apply hseq hnow hclock', fun bound hall _ => hbound bound hall⟩

namespace Follows

theorem skip (h : Follows log head ttl fetched applied ⟨seen, drain, queue, r⟩)
    (hidle : drain = .idle ∨ drain = .next) {rest : List Queued} {drain' : Drain}
    (hdrain' : drain' = .idle ∨ drain' = .next)
    (hcovers : Covers log seen queue fetched → Covers log seen rest fetched)
    (hrest : rest ⊆ queue) : Follows log head ttl fetched applied ⟨seen, drain', rest, r⟩ := by
  have hpending : drain.pending queue = queue := by rcases hidle with rfl | rfl <;> rfl
  have hpending' : drain'.pending rest = rest := by rcases hdrain' with rfl | rfl <;> rfl
  have hcov : Covers log seen (drain.pending queue) fetched := h.covers
  have hbus : FromBus log head (drain.pending queue) := h.bus
  have hstaged : Staged seen applied drain := h.staged
  rw [hpending] at hcov hbus
  constructor
  · change Covers log seen (drain'.pending rest) fetched
    rw [hpending']
    exact hcovers hcov
  · change FromBus log head (drain'.pending rest)
    rw [hpending']
    exact hbus.subset hrest
  · exact h.fetched_le
  · exact h.seen_le
  · exact h.known
  · exact h.faithful
  · exact h.ttlMs
  · change Staged seen applied drain'
    rcases hidle with rfl | rfl <;> rcases hdrain' with rfl | rfl <;> exact hstaged

theorem begin_event (h : Follows log head ttl fetched applied ⟨seen, .next, .event event :: queue, r⟩)
    (hnew : seen < event.seq) (hdrain : drain = .tagging event ∨ drain = .failing event) :
    Follows log head ttl fetched applied ⟨seen, drain, queue, r⟩ := by
  have hstaged : ∀ a ∈ applied, a.seq ≤ seen := h.staged
  rcases hdrain with rfl | rfl
  all_goals
    exact ⟨h.covers, h.bus, h.fetched_le, h.seen_le, h.known, h.faithful, h.ttlMs, hnew, hstaged⟩

theorem fail (h : Follows log head ttl fetched applied ⟨seen, .tagging event, queue, r⟩) :
    Follows log head ttl fetched applied ⟨seen, .failing event, queue, r⟩ :=
  ⟨h.covers, h.bus, h.fetched_le, h.seen_le, h.known, h.faithful, h.ttlMs, h.staged⟩

theorem apply_change (h : Follows log head ttl fetched applied ⟨seen, .tagging event, queue, r⟩)
    (hchange : event.input.revocation? = none) :
    Follows log head ttl fetched applied ⟨seen, .applied event, queue, r⟩ := by
  obtain ⟨hnew, hstaged⟩ : seen < event.seq ∧ ∀ a ∈ applied, a.seq ≤ seen := h.staged
  have happlied : Staged seen applied (.applied event) := by
    refine ⟨hnew, fun a ha => (hstaged a ha).trans hnew.le, fun revocation hrevocation => ?_⟩
    rw [hchange] at hrevocation
    cases hrevocation
  exact ⟨h.covers, h.bus, h.fetched_le, h.seen_le, h.known, h.faithful, h.ttlMs, happlied⟩

theorem apply_revocation
    (h : Follows log head ttl fetched applied ⟨seen, .tagging event, queue, r⟩)
    (hrevocation : event.input.revocation? = some revocation)
    (hnow : ∀ a ∈ applied, a.now ≤ now) :
    Follows log head ttl fetched (applied ++ [⟨revocation, event.seq, now⟩])
      ⟨seen, .applied event, queue, r.apply revocation event.seq now⟩ := by
  obtain ⟨hnew, hstaged⟩ : seen < event.seq ∧ ∀ a ∈ applied, a.seq ≤ seen := h.staged
  have hseq (a : Applied) (ha : a ∈ applied) : a.seq ≤ event.seq := (hstaged a ha).trans hnew.le
  constructor
  · exact h.covers
  · exact h.bus
  · exact h.fetched_le
  · exact h.seen_le
  · intro e he hle
    exact (h.known e he hle).mono Revocations.le_apply_floor (List.subset_append_left _ _)
  · exact h.faithful.apply (a := ⟨revocation, event.seq, now⟩) hseq hnow
  · exact Revocations.apply_ttlMs.trans h.ttlMs
  · refine ⟨hnew, fun a ha => ?_, fun revocation' hrevocation' => ?_⟩
    · rcases List.mem_append.mp ha with ha | ha
      · exact hseq a ha
      · rw [List.mem_singleton.mp ha]
    · rw [hrevocation] at hrevocation'
      exact ⟨⟨revocation, event.seq, now⟩, by simp, Option.some.inj hrevocation', rfl⟩

theorem settle (hlog : Ordered log head)
    (h : Follows log head ttl fetched applied ⟨seen, .applied event, queue, r⟩) :
    Follows log head ttl fetched applied ⟨max seen event.seq, .next, queue, r⟩ := by
  obtain ⟨hnew, hseq, happlied⟩ : seen < event.seq ∧ (∀ a ∈ applied, a.seq ≤ event.seq) ∧ _ :=
    h.staged
  have hevent : event ∈ log := h.bus.events event List.mem_cons_self
  obtain ⟨hbefore, hcovers⟩ : (∀ e ∈ log, e.seq < event.seq → e.seq ≤ seen) ∧
    Covers log (max seen event.seq) queue fetched := h.covers
  constructor
  · exact hcovers
  · exact h.bus.subset (List.subset_cons_self _ _)
  · exact h.fetched_le
  · exact max_le h.seen_le (hlog.bound event hevent)
  · intro e he hle
    rcases lt_or_ge e.seq event.seq with hlt | hge
    · exact h.known e he (hbefore e he hlt)
    · have hle' : e.seq ≤ event.seq := hle.trans (max_le hnew.le le_rfl)
      obtain rfl := hlog.eq_of_seq he hevent (le_antisymm hle' hge)
      exact fun revocation hrevocation => Or.inr (happlied revocation hrevocation)
  · exact h.faithful
  · exact h.ttlMs
  · exact fun a ha => (hseq a ha).trans (le_max_right _ _)

theorem forget {v : Position} (h : Follows log head ttl fetched applied v) (hseq : seq ≤ head)
    (hcovers : Covers log (max seq v.seen) queue fetched) (hqueue : queue ⊆ v.pending)
    (hstaged : ∀ a ∈ applied, a.seq ≤ max seq v.seen) :
    Follows log head ttl fetched applied
      ⟨max seq v.seen, .next, queue, v.revocations.raise (max seq v.seen)⟩ := by
  constructor
  · exact hcovers
  · exact h.bus.subset hqueue
  · exact h.fetched_le
  · exact max_le hseq h.seen_le
  · exact fun e _ hle _ _ => Or.inl (hle.trans Revocations.le_raise_floor.1)
  · exact h.faithful.raise hstaged
  · exact h.ttlMs
  · exact hstaged

theorem enqueue (h : Follows log head ttl fetched applied ⟨seen, drain, queue, r⟩)
    (hlog : Ordered log head) (hitem : Delivers log head fetched item) :
    Follows log head ttl (item.reach fetched) applied ⟨seen, drain, queue ++ [item], r⟩ := by
  have hpending : drain.pending (queue ++ [item]) = drain.pending queue ++ [item] := by
    cases drain <;> rfl
  have hcovers : Covers log seen (drain.pending queue) fetched := h.covers
  have hbus : FromBus log head (drain.pending queue) := h.bus
  constructor
  · change Covers log seen (drain.pending (queue ++ [item])) _
    rw [hpending]
    exact hcovers.append hitem
  · change FromBus log head (drain.pending (queue ++ [item]))
    rw [hpending]
    constructor
    · intro e he
      rcases List.mem_append.mp he with he | he
      · exact hbus.events e he
      · obtain rfl := List.mem_singleton.mp he
        exact hitem.1
    · intro seq hseq
      rcases List.mem_append.mp hseq with hseq | hseq
      · exact hbus.gaps seq hseq
      · obtain rfl := List.mem_singleton.mp hseq
        exact hitem
  · cases item with
    | event event => exact max_le h.fetched_le (hlog.bound event hitem.1)
    | gap seq => exact max_le h.fetched_le hitem
    | down => exact h.fetched_le
  · exact h.seen_le
  · exact h.known
  · exact h.faithful
  · exact h.ttlMs
  · exact h.staged

theorem append_log (hlog : Ordered log head) {v : Position}
    (h : Follows log head ttl fetched applied v) (hevent : head < event.seq) :
    Follows (log ++ [event]) event.seq ttl fetched applied v := by
  constructor
  · refine h.covers.append_log (h.fetched_le.trans_lt hevent) fun e he => ?_
    exact (hlog.bound e (h.bus.events e he)).trans_lt hevent
  · constructor
    · exact fun e he => List.mem_append_left _ (h.bus.events e he)
    · exact fun seq hseq => (h.bus.gaps seq hseq).trans hevent.le
  · exact h.fetched_le.trans hevent.le
  · exact h.seen_le.trans hevent.le
  · intro e he hle
    rcases List.mem_append.mp he with he | he
    · exact h.known e he hle
    · rw [List.mem_singleton.mp he] at hle
      exact absurd (h.seen_le.trans_lt hevent) (Nat.not_lt.mpr hle)
  · exact h.faithful
  · exact h.ttlMs
  · exact h.staged

theorem start {limit : ℕ} (hhead : seq ≤ head) :
    Follows log head ttl seq [] ⟨seq, .idle, [], Revocations.create seq (ttl * 1000) limit⟩ :=
  ⟨fun _ _ hle => hle, ⟨nofun, nofun⟩, hhead, hhead, fun _ _ hle _ _ => Or.inl hle, .create, rfl,
    nofun⟩

end Follows

namespace Runtime
variable {options : RuntimeOptions} {runtime t : Runtime} {s : HubState}

def position (runtime : Runtime) (s : HubState) : Position :=
  ⟨runtime.seen, runtime.drain, runtime.queue, s.core.revocations⟩

def Tracks (log : List LiveBusEvent) (head : ℕ) (ttl : ℤ) (fetched : ℕ) (applied : List Applied)
    (runtime : Runtime) : Prop :=
  ∃ s, runtime.core = some s ∧ Follows log head ttl fetched applied (runtime.position s)

def appliedIn (drain : Drain) (now : ℤ) : List Applied :=
  match drain with
  | .applied event =>
    (event.input.revocation?.map fun revocation => ⟨revocation, event.seq, now⟩).toList
  | _ => []

theorem revocations_applyEvent {options : HubOptions} {core core' : LiveCore}
    (h : core.applyEvent options event now = some core') :
    event.input.revocation? = none ∧ core'.revocations = core.revocations ∨
      ∃ revocation, event.input.revocation? = some revocation ∧
        core'.revocations = core.revocations.apply revocation event.seq now := by
  obtain ⟨seq, input⟩ := event
  cases input with
  | change texts =>
    obtain rfl := Option.some.inj h
    exact Or.inl ⟨rfl, rfl⟩
  | revoke sub key =>
    simp only [LiveCore.applyEvent, Option.bind_eq_bind, Option.bind_eq_some_iff] at h
    obtain ⟨revocation, hrevocation, h⟩ := h
    obtain rfl := Option.some.inj h
    exact Or.inr ⟨revocation, hrevocation, rfl⟩
  | malformed => cases h

theorem tracks_applyEvent (hs : runtime.core = some s)
    (h : Follows log head ttl fetched applied
      ⟨runtime.seen, .tagging event, runtime.queue, s.core.revocations⟩)
    (hnow : ∀ a ∈ applied, a.now ≤ now) :
    (runtime.applyEvent options s event now).Tracks log head ttl fetched
      (applied ++ appliedIn (runtime.applyEvent options s event now).drain now) := by
  unfold applyEvent
  split
  · refine ⟨s, hs, ?_⟩
    change Follows log head ttl fetched (applied ++ []) _
    rw [List.append_nil]
    exact h.fail
  · next core hcore =>
    refine ⟨{ s with core := core }, rfl, ?_⟩
    change Follows log head ttl fetched (applied ++ appliedIn (.applied event) now)
      ⟨runtime.seen, .applied event, runtime.queue, core.revocations⟩
    unfold appliedIn
    rcases revocations_applyEvent hcore with ⟨hnone, hsame⟩ | ⟨revocation, hsome, happly⟩
    · simp only
      rw [hnone, hsame, Option.map_none, Option.toList_none, List.append_nil]
      exact h.apply_change hnone
    · simp only
      rw [hsome, happly, Option.map_some, Option.toList_some]
      exact h.apply_revocation hsome hnow

theorem tracks_beginEvent (hs : runtime.core = some s)
    (h : Follows log head ttl fetched applied
      ⟨runtime.seen, .next, .event event :: runtime.queue, s.core.revocations⟩)
    (hnew : runtime.seen < event.seq) (hnow : ∀ a ∈ applied, a.now ≤ now) :
    (runtime.beginEvent options s event now).Tracks log head ttl fetched
      (applied ++ appliedIn (runtime.beginEvent options s event now).drain now) := by
  have hwait {drain : Drain} (hdrain : drain = .tagging event ∨ drain = .failing event) :
      { runtime with drain := drain }.Tracks log head ttl fetched
        (applied ++ appliedIn drain now) := by
    have hnone : appliedIn drain now = [] := by rcases hdrain with rfl | rfl <;> rfl
    rw [hnone, List.append_nil]
    exact ⟨s, hs, h.begin_event hnew hdrain⟩
  unfold beginEvent
  split
  · exact hwait (Or.inl rfl)
  · split
    · exact hwait (Or.inr rfl)
    · exact hwait (Or.inl rfl)
    · exact tracks_applyEvent hs (h.begin_event hnew (Or.inl rfl)) hnow

theorem tracks_take (hlog : Ordered log head) (hs : runtime.core = some s)
    (hidle : runtime.drain = .idle ∨ runtime.drain = .next)
    (h : Follows log head ttl fetched applied (runtime.position s))
    (hnow : ∀ a ∈ applied, a.now ≤ now) :
    (runtime.take options s now).Tracks log head ttl fetched
      (applied ++ appliedIn (runtime.take options s now).drain now) := by
  unfold take
  split
  · next hqueue =>
    refine ⟨s, hs, ?_⟩
    change Follows log head ttl fetched (applied ++ []) _
    rw [List.append_nil]
    exact h.skip hidle (Or.inl rfl) id (List.Subset.refl _)
  · next item queue hqueue =>
    have hnext : Follows log head ttl fetched applied
        ⟨runtime.seen, .next, item :: queue, s.core.revocations⟩ := by
      refine h.skip hidle (Or.inr rfl) (fun hcovers => hqueue ▸ hcovers) ?_
      rw [hqueue]
      exact List.Subset.refl _
    have htail : queue ⊆ item :: queue := List.subset_cons_self _ _
    cases item with
    | down =>
      refine ⟨_, rfl, ?_⟩
      change Follows log head ttl fetched (applied ++ []) _
      rw [List.append_nil]
      exact hnext.skip (Or.inr rfl) (Or.inr rfl) id htail
    | gap seq =>
      refine ⟨_, rfl, ?_⟩
      change Follows log head ttl fetched (applied ++ []) ⟨max runtime.seen (max seq runtime.seen),
        .next, queue, s.core.revocations.raise (max seq runtime.seen)⟩
      rw [List.append_nil, max_eq_right (le_max_right _ _)]
      have hcovers : Covers log (max runtime.seen seq) queue fetched := hnext.covers
      rw [max_comm] at hcovers
      have hstaged : ∀ a ∈ applied, a.seq ≤ runtime.seen := hnext.staged
      exact hnext.forget (hnext.bus.gaps seq List.mem_cons_self) hcovers htail
        fun a ha => (hstaged a ha).trans (le_max_right _ _)
    | event event =>
      have hevent : event ∈ log := hnext.bus.events event List.mem_cons_self
      simp only
      split_ifs with hrepeat
      · refine ⟨s, hs, ?_⟩
        change Follows log head ttl fetched (applied ++ []) _
        rw [List.append_nil]
        have hseen : event.seq ≤ runtime.seen := by simpa [hlog.safe event hevent] using hrepeat
        refine hnext.skip (Or.inr rfl) (Or.inr rfl) (fun hcovers => ?_) htail
        have hrest := hcovers.2
        rwa [max_eq_left hseen] at hrest
      · have hcore : Runtime.core { runtime with queue := queue, drain := .next } = some s := hs
        refine tracks_beginEvent hcore hnext ?_ hnow
        simpa [hlog.safe event hevent] using hrepeat

theorem tracks_resume {ok : Bool} (hlog : Ordered log head)
    (h : runtime.Tracks log head ttl fetched applied) (hnow : ∀ a ∈ applied, a.now ≤ now)
    (ht : runtime.resume options ok now = some t) :
    t.Tracks log head ttl fetched (applied ++ appliedIn t.drain now) := by
  obtain ⟨s, hs, h⟩ := h
  unfold resume at ht
  split at ht
  · next s' hs' hdrain =>
    obtain rfl := Option.some.inj (hs.symm.trans hs')
    obtain rfl := Option.some.inj ht
    exact tracks_take hlog hs (Or.inr hdrain) h hnow
  · next s' event hs' hdrain =>
    obtain rfl := Option.some.inj (hs.symm.trans hs')
    rw [position, hdrain] at h
    split_ifs at ht
    · obtain rfl := Option.some.inj ht
      exact tracks_applyEvent hs h hnow
    · obtain rfl := Option.some.inj ht
      refine ⟨s, hs, ?_⟩
      change Follows log head ttl fetched (applied ++ []) _
      rw [List.append_nil]
      exact h.fail
  · next s' event hs' hdrain =>
    obtain rfl := Option.some.inj (hs.symm.trans hs')
    obtain rfl := Option.some.inj ht
    rw [position, hdrain] at h
    refine ⟨s, hs, ?_⟩
    change Follows log head ttl fetched (applied ++ []) _
    rw [List.append_nil]
    exact h.settle hlog
  · next s' event hs' hdrain =>
    obtain rfl := Option.some.inj (hs.symm.trans hs')
    obtain rfl := Option.some.inj ht
    rw [position, hdrain] at h
    refine ⟨_, rfl, ?_⟩
    change Follows log head ttl fetched (applied ++ [])
      ⟨max runtime.seen (max event.seq runtime.seen), .next, runtime.queue,
        s.core.revocations.raise (max event.seq runtime.seen)⟩
    rw [List.append_nil, max_eq_right (le_max_right _ _)]
    have hevent : event ∈ log := h.bus.events event List.mem_cons_self
    obtain ⟨-, hcovers⟩ : (∀ e ∈ log, e.seq < event.seq → e.seq ≤ runtime.seen) ∧
      Covers log (max runtime.seen event.seq) runtime.queue fetched := h.covers
    rw [max_comm] at hcovers
    obtain ⟨-, hstaged⟩ : runtime.seen < event.seq ∧ ∀ a ∈ applied, a.seq ≤ runtime.seen := h.staged
    exact h.forget (hlog.bound event hevent) hcovers (List.subset_cons_self _ _)
      fun a ha => (hstaged a ha).trans (le_max_right _ _)
  · cases ht

def applications (before after : Runtime) (now : ℤ) : List Applied :=
  match before.drain with
  | .applied _ => []
  | _ => appliedIn after.drain now

theorem tracks_startDrain (hlog : Ordered log head)
    (h : runtime.Tracks log head ttl fetched applied) (hnow : ∀ a ∈ applied, a.now ≤ now) :
    (runtime.startDrain options now).Tracks log head ttl fetched
      (applied ++ runtime.applications (runtime.startDrain options now) now) := by
  obtain ⟨s, hs, h⟩ := h
  unfold startDrain
  split
  · next s' hs' hdrain _ =>
    obtain rfl := Option.some.inj (hs.symm.trans hs')
    rw [applications, hdrain]
    exact tracks_take hlog hs (Or.inl hdrain) h hnow
  · have hnone : runtime.applications runtime now = [] := by
      unfold applications appliedIn
      cases runtime.drain <;> rfl
    rw [hnone, List.append_nil]
    exact ⟨s, hs, h⟩

structure Onward (r t : Runtime) : Prop where
  reading : t.reading = r.reading
  seen : r.seen ≤ t.seen

theorem Onward.refl : Onward runtime runtime := ⟨rfl, le_rfl⟩

theorem onward_applyEvent (runtime : Runtime) (options : RuntimeOptions) (s : HubState)
    (event : LiveBusEvent) (now : ℤ) :
    Onward runtime (runtime.applyEvent options s event now) := by
  unfold applyEvent
  split
  · exact ⟨rfl, le_rfl⟩
  · exact ⟨rfl, le_rfl⟩

theorem onward_beginEvent (runtime : Runtime) (options : RuntimeOptions) (s : HubState)
    (event : LiveBusEvent) (now : ℤ) :
    Onward runtime (runtime.beginEvent options s event now) := by
  unfold beginEvent
  split
  · exact ⟨rfl, le_rfl⟩
  · split
    · exact ⟨rfl, le_rfl⟩
    · exact ⟨rfl, le_rfl⟩
    · exact onward_applyEvent runtime options s event now

theorem onward_take : Onward runtime (runtime.take options s now) := by
  unfold take
  split
  · exact ⟨rfl, le_rfl⟩
  · next item queue hqueue =>
    cases item with
    | down => exact ⟨rfl, le_rfl⟩
    | gap seq => exact ⟨rfl, le_max_left _ _⟩
    | event event =>
      simp only
      split_ifs
      · exact ⟨rfl, le_rfl⟩
      · obtain ⟨hreading, hseen⟩ := onward_beginEvent { runtime with queue := queue, drain := .next }
          options s event now
        exact ⟨hreading, hseen⟩

theorem onward_startDrain : Onward runtime (runtime.startDrain options now) := by
  unfold startDrain
  split
  · exact onward_take
  · exact .refl

theorem onward_resume {ok : Bool} (h : runtime.resume options ok now = some t) :
    Onward runtime t := by
  unfold resume at h
  split at h
  · obtain rfl := Option.some.inj h
    exact onward_take
  · split_ifs at h
    · obtain rfl := Option.some.inj h
      exact onward_applyEvent runtime options _ _ _
    · obtain rfl := Option.some.inj h
      exact ⟨rfl, le_rfl⟩
  · obtain rfl := Option.some.inj h
    exact ⟨rfl, le_max_left _ _⟩
  · obtain rfl := Option.some.inj h
    exact ⟨rfl, le_max_left _ _⟩
  · cases h

theorem revocations_step {options : HubOptions} {s t : HubState} {action : HubAction}
    (hsocket : action.isSocket) (h : s.step options action = some t) :
    t.core.revocations = s.core.revocations := by
  cases HubState.step_cases h with
  | openSocket => rfl
  | message => rfl
  | install => rfl
  | fail => rfl
  | drop => rfl
  | close => rfl
  | closing => rfl
  | flush => rfl
  | restore => cases hsocket
  | apply => cases hsocket
  | resync => cases hsocket
  | lose => cases hsocket

end Runtime

end Nifra.Live
