import Mathlib.Tactic.Common
import Nifra.Jobs.StoreOperations

/-! # What every history of the job store keeps

The facts of `Tracked` tie the store to its history. A job that leaves the queue, a
job that stays in it under another record and a refused call are treated once each;
the operations are cases of these.
-/

namespace Nifra.Jobs

section Invariant
variable {T P : Type*} [Add T]

/-- The facts about a store and its history that every operation preserves. -/
structure Tracked (idFor : ℕ → JSString) (s : MemoryJobStore T P)
    (h : List (StoreEvent T P)) : Prop where
  ids : h.flatMap (·.enqueued) = (List.range s.seq).map idFor
  tokens : (h.flatMap (·.handed)).map (·.lease) =
    (List.range' 1 s.leaseSeq).map fun n => some (leaseToken n)
  id_eq : ∀ id r, s.jobs.get id = some r → r.id = id
  known : ∀ id, (s.jobs.get id).isSome ∨ (s.dead.get id).isSome ∨
    (∃ e ∈ h, e.completes id) ∨ (∃ e ∈ h, e.retries id) ∨
    (leasedUntil (·.retries id) id h).isSome → id ∈ h.flatMap (·.enqueued)
  kept : ∀ id ∈ h.flatMap (·.enqueued), (s.jobs.get id).isSome ∨ (s.dead.get id).isSome ∨
    ∃ e ∈ h, e.completes id
  alone : ∀ id, (s.jobs.get id).isSome →
    s.dead.get id = none ∧ ∀ e ∈ h, ¬ e.completes id
  buried : ∀ id, (s.dead.get id).isSome → ∀ e ∈ h, ¬ e.completes id
  attempts : ∀ id r, s.jobs.get id = some r → r.attempt = h.countP (·.retries id)
  until_eq : ∀ id r u, s.jobs.get id = some r → leasedUntil (·.retries id) id h = some u →
    r.leaseUntil = u

theorem leasedUntil_append_singleton (g : StoreEvent T P → Bool) (id : JSString)
    (h : List (StoreEvent T P)) (e : StoreEvent T P) :
    leasedUntil g id (h ++ [e]) =
      if g e then none
      else match e.op with
        | .lease now _ leaseMs =>
          if id ∈ e.handed.map (·.id) then some (now + leaseMs) else leasedUntil g id h
        | .renew id' until' lease =>
          if id' = id ∧ ((e.before.held id' lease).bind (·.lease)).isSome then some until'
          else leasedUntil g id h
        | _ => leasedUntil g id h := by
  rw [leasedUntil, List.foldl_append]
  rfl

namespace Tracked

variable {idFor : ℕ → JSString} {s : MemoryJobStore T P} {h : List (StoreEvent T P)}

theorem inert (ht : Tracked idFor s h) {e : StoreEvent T P} (henq : e.enqueued = [])
    (hhand : e.handed = []) (hcomp : ∀ id, e.completes id = false)
    (hretry : ∀ id, e.retries id = false)
    (huntil : ∀ id, leasedUntil (·.retries id) id (h ++ [e]) = leasedUntil (·.retries id) id h) :
    Tracked idFor s (h ++ [e]) where
  ids := by simp [henq, ht.ids]
  tokens := by simp [hhand, ht.tokens]
  id_eq := ht.id_eq
  known id hid := by
    simpa [henq] using ht.known id (by simpa [huntil, hcomp, hretry, or_and_right, exists_or] using hid)
  kept id hid := by
    simpa [hcomp, or_and_right, exists_or] using ht.kept id (by simpa [henq] using hid)
  alone id hid := by
    simpa [hcomp, or_imp, forall_and] using ht.alone id hid
  buried id hid := by
    simpa [hcomp, or_imp, forall_and] using ht.buried id hid
  attempts id r hr := by
    simpa [hretry] using ht.attempts id r hr
  until_eq id r u hr hu := ht.until_eq id r u hr (huntil id ▸ hu)

theorem fresh (hid : Function.Injective idFor) (ht : Tracked idFor s h) :
    idFor s.seq ∉ h.flatMap (·.enqueued) := by
  rw [ht.ids]
  intro hmem
  obtain ⟨n, hn, heq⟩ := List.mem_map.mp hmem
  have := hid heq
  rw [List.mem_range] at hn
  omega

section Held
variable {s' : MemoryJobStore T P} {e : StoreEvent T P} {id : JSString} {r r' : Record T P}

theorem removed (ht : Tracked idFor s h) (hr : s.jobs.get id = some r)
    (hjobs : s'.jobs = s.jobs.delete id) (hseq : s'.seq = s.seq)
    (htok : s'.leaseSeq = s.leaseSeq) (henq : e.enqueued = []) (hhand : e.handed = [])
    (hretry : ∀ id', e.retries id' = false)
    (huntil : ∀ id', leasedUntil (·.retries id') id' (h ++ [e]) =
      leasedUntil (·.retries id') id' h)
    (hgone : s'.dead = s.dead ∧ (∀ id', e.completes id' = decide (id = id')) ∨
      ∃ d, s'.dead = s.dead.set id d ∧ ∀ id', e.completes id' = false) :
    Tracked idFor s' (h ++ [e]) := by
  have hr' : (s.jobs.get id).isSome := by rw [hr]; rfl
  have hget (id' : JSString) : s'.jobs.get id' = if id' = id then none else s.jobs.get id' := by
    rw [hjobs, InsertionMap.get_delete]
  have hother (id' : JSString) (hid : id' ≠ id) : s'.dead.get id' = s.dead.get id' ∧
      e.completes id' = false := by
    rcases hgone with ⟨hd, hc⟩ | ⟨d, hd, hc⟩
    · exact ⟨by rw [hd], by simp [hc, hid.symm]⟩
    · exact ⟨by rw [hd, InsertionMap.get_set_of_ne hid], hc id'⟩
  have hself : s'.dead.get id = none ∧ e.completes id = true ∨
      (s'.dead.get id).isSome ∧ e.completes id = false := by
    rcases hgone with ⟨hd, hc⟩ | ⟨d, hd, hc⟩
    · exact Or.inl ⟨by rw [hd]; exact (ht.alone id hr').1, by simp [hc]⟩
    · exact Or.inr ⟨by rw [hd]; simp, hc id⟩
  constructor
  case ids => simp [henq, ht.ids, hseq]
  case tokens => simp [hhand, ht.tokens, htok]
  case id_eq =>
    intro id' r₀ hr₀
    rw [hget] at hr₀
    split_ifs at hr₀
    exact ht.id_eq id' r₀ hr₀
  case known =>
    intro id' hk
    suffices id' ∈ h.flatMap (·.enqueued) by
      simp only [List.flatMap_append, List.mem_append, this, true_or]
    by_cases hid : id' = id
    · exact ht.known id' (Or.inl (hid ▸ hr'))
    · obtain ⟨hd, hc⟩ := hother id' hid
      exact ht.known id' (by
        simpa [hget, hid, hd, hc, hretry, huntil, or_and_right, exists_or] using hk)
  case kept =>
    intro id' hk
    by_cases hid : id' = id
    · subst hid
      rcases hself with ⟨-, hc⟩ | ⟨hd, -⟩
      · exact Or.inr (Or.inr ⟨e, by simp, hc⟩)
      · exact Or.inr (Or.inl hd)
    · obtain ⟨hd, hc⟩ := hother id' hid
      simpa [hget, hid, hd, hc, or_and_right, exists_or] using
        ht.kept id' (by simpa [henq] using hk)
  case alone =>
    intro id' hk
    have hid : id' ≠ id := by
      rintro rfl
      simp [hget] at hk
    obtain ⟨hd, hc⟩ := hother id' hid
    simpa [hd, hc, or_imp, forall_and] using ht.alone id' (by simpa [hget, hid] using hk)
  case buried =>
    intro id' hk
    by_cases hid : id' = id
    · subst hid
      rcases hself with ⟨hd, -⟩ | ⟨-, hc⟩
      · simp [hd] at hk
      · simpa [hc, or_imp, forall_and] using (ht.alone id' hr').2
    · obtain ⟨hd, hc⟩ := hother id' hid
      simpa [hc, or_imp, forall_and] using ht.buried id' (hd ▸ hk)
  case attempts =>
    intro id' r₀ hr₀
    rw [hget] at hr₀
    split_ifs at hr₀
    simpa [hretry] using ht.attempts id' r₀ hr₀
  case until_eq =>
    intro id' r₀ u hr₀ hu
    rw [huntil] at hu
    rw [hget] at hr₀
    split_ifs at hr₀
    exact ht.until_eq id' r₀ u hr₀ hu

theorem updated (ht : Tracked idFor s h) (hr : s.jobs.get id = some r)
    (hjobs : s'.jobs = s.jobs.set id r') (hid : r'.id = r.id) (hdead : s'.dead = s.dead)
    (hseq : s'.seq = s.seq) (htok : s'.leaseSeq = s.leaseSeq) (henq : e.enqueued = [])
    (hhand : e.handed = []) (hcomp : ∀ id', e.completes id' = false)
    (hattempt : r'.attempt = r.attempt + if e.retries id then 1 else 0)
    (hother : ∀ id', id' ≠ id → e.retries id' = false ∧
      leasedUntil (·.retries id') id' (h ++ [e]) = leasedUntil (·.retries id') id' h)
    (huntil : ∀ u, leasedUntil (·.retries id) id (h ++ [e]) = some u → r'.leaseUntil = u) :
    Tracked idFor s' (h ++ [e]) := by
  have hr' : (s.jobs.get id).isSome := by rw [hr]; rfl
  have hget (id' : JSString) : s'.jobs.get id' = if id' = id then some r' else s.jobs.get id' := by
    rw [hjobs, InsertionMap.get_set]
  have hsome (id' : JSString) : (s'.jobs.get id').isSome = (s.jobs.get id').isSome := by
    rw [hget]
    split_ifs with h
    · rw [h, hr']
      rfl
    · rfl
  constructor
  case ids => simp [henq, ht.ids, hseq]
  case tokens => simp [hhand, ht.tokens, htok]
  case id_eq =>
    intro id' r₀ hr₀
    rw [hget] at hr₀
    split_ifs at hr₀ with h
    · rw [← Option.some.inj hr₀, hid, h]
      exact ht.id_eq id r hr
    · exact ht.id_eq id' r₀ hr₀
  case known =>
    intro id' hk
    suffices id' ∈ h.flatMap (·.enqueued) by
      simp only [List.flatMap_append, List.mem_append, this, true_or]
    by_cases h : id' = id
    · exact ht.known id' (Or.inl (h ▸ hr'))
    · obtain ⟨hret, hu⟩ := hother id' h
      exact ht.known id' (by
        simpa [hsome, hdead, hcomp, hret, hu, or_and_right, exists_or] using hk)
  case kept =>
    intro id' hk
    simpa [hsome, hdead, hcomp, or_and_right, exists_or] using
      ht.kept id' (by simpa [henq] using hk)
  case alone =>
    intro id' hk
    simpa [hdead, hcomp, or_imp, forall_and] using ht.alone id' (hsome id' ▸ hk)
  case buried =>
    intro id' hk
    simpa [hcomp, or_imp, forall_and] using ht.buried id' (hdead ▸ hk)
  case attempts =>
    intro id' r₀ hr₀
    rw [List.countP_append, List.countP_singleton]
    rw [hget] at hr₀
    split_ifs at hr₀ with h
    · rw [← Option.some.inj hr₀, h, hattempt, ht.attempts id r hr]
    · simp [(hother id' h).1, ht.attempts id' r₀ hr₀]
  case until_eq =>
    intro id' r₀ u hr₀ hu
    rw [hget] at hr₀
    split_ifs at hr₀ with h
    · rw [← Option.some.inj hr₀]
      exact huntil u (h ▸ hu)
    · rw [(hother id' h).2] at hu
      exact ht.until_eq id' r₀ u hr₀ hu

end Held

section Operations
variable [LinearOrder T] [Zero T]

theorem enqueue (hid : Function.Injective idFor) (ht : Tracked idFor s h) (job : NewJob T P) :
    Tracked idFor (s.apply idFor (.enqueue job)).1 (h ++ [.of idFor s (.enqueue job)]) := by
  have hfresh := ht.fresh hid
  have hget (id : JSString) : (s.apply idFor (.enqueue job)).1.jobs.get id =
      if id = idFor s.seq then some (job.record id) else s.jobs.get id := by
    rw [MemoryJobStore.apply, MemoryJobStore.enqueue, InsertionMap.get_set]
    split_ifs with h
    · rw [h]
    · rfl
  have hdead : (s.apply idFor (.enqueue job)).1.dead = s.dead := rfl
  have hseq : (s.apply idFor (.enqueue job)).1.seq = s.seq + 1 := rfl
  have htok : (s.apply idFor (.enqueue job)).1.leaseSeq = s.leaseSeq := rfl
  have huntil (id : JSString) : leasedUntil (·.retries id) id (h ++ [.of idFor s (.enqueue job)]) =
      leasedUntil (·.retries id) id h := leasedUntil_append_singleton ..
  have henq : (StoreEvent.of idFor s (.enqueue job)).enqueued = [idFor s.seq] := rfl
  have hhand : (StoreEvent.of idFor s (.enqueue job)).handed = [] := rfl
  have hcomp (id : JSString) : (StoreEvent.of idFor s (.enqueue job)).completes id = false := rfl
  have hretry (id : JSString) : (StoreEvent.of idFor s (.enqueue job)).retries id = false := rfl
  generalize (s.apply idFor (.enqueue job)).1 = s' at *
  generalize StoreEvent.of idFor s (.enqueue job) = e at *
  have hold : ∀ id, id = idFor s.seq → s.jobs.get id = none ∧ s.dead.get id = none ∧
      (∀ e ∈ h, ¬ e.completes id) ∧ (∀ e ∈ h, ¬ e.retries id) ∧
      leasedUntil (·.retries id) id h = none := by
    rintro id rfl
    have hnot := mt (ht.known (idFor s.seq)) hfresh
    push Not at hnot
    simpa using hnot
  constructor
  case ids => simp [henq, ht.ids, hseq, List.range_succ]
  case tokens => simp [hhand, ht.tokens, htok]
  case id_eq =>
    intro id r hr
    rw [hget] at hr
    split_ifs at hr with hidq
    · rw [← Option.some.inj hr, NewJob.id_record]
    · exact ht.id_eq id r hr
  case known =>
    intro id hk
    by_cases hidq : id = idFor s.seq
    · simp [henq, hidq]
    · have := ht.known id (by simpa [hget, hidq, hdead, huntil, hcomp, hretry, or_and_right, exists_or] using hk)
      simp only [List.flatMap_append, List.mem_append, this, true_or]
  case kept =>
    intro id hk
    rw [hget]
    split_ifs with hidq
    · exact Or.inl rfl
    · simpa [hdead, hcomp, or_and_right, exists_or] using ht.kept id (by simpa [henq, hidq] using hk)
  case alone =>
    intro id hk
    rw [hdead]
    by_cases hidq : id = idFor s.seq
    · obtain ⟨-, hd, hc, -⟩ := hold id hidq
      exact ⟨hd, by simpa [hcomp, or_imp, forall_and] using hc⟩
    · simpa [hcomp, or_imp, forall_and] using ht.alone id (by simpa [hget, hidq] using hk)
  case buried =>
    intro id hk
    simpa [hcomp, or_imp, forall_and] using ht.buried id (hdead ▸ hk)
  case attempts =>
    intro id r hr
    rw [List.countP_append]
    rw [hget] at hr
    split_ifs at hr with hidq
    · obtain ⟨-, -, -, hc, -⟩ := hold id hidq
      simp [← Option.some.inj hr, hretry, List.countP_eq_zero.mpr hc]
    · simp [ht.attempts id r hr, hretry]
  case until_eq =>
    intro id r u hr hu
    rw [huntil] at hu
    rw [hget] at hr
    split_ifs at hr with hidq
    · simp [(hold id hidq).2.2.2.2] at hu
    · exact ht.until_eq id r u hr hu

theorem lease (ht : Tracked idFor s h) (now : T) (limit : ℕ) (leaseMs : T) :
    Tracked idFor (s.apply idFor (.lease now limit leaseMs)).1
      (h ++ [.of idFor s (.lease now limit leaseMs)]) := by
  have hsome (id : JSString) : ((s.apply idFor (.lease now limit leaseMs)).1.jobs.get id).isSome =
      (s.jobs.get id).isSome := MemoryJobStore.isSome_get_lease
  have hget (id : JSString) (r' : Record T P)
      (h : (s.apply idFor (.lease now limit leaseMs)).1.jobs.get id = some r') :=
    MemoryJobStore.get_lease ht.id_eq h
  have hdead : (s.apply idFor (.lease now limit leaseMs)).1.dead = s.dead := rfl
  have hseq : (s.apply idFor (.lease now limit leaseMs)).1.seq = s.seq := rfl
  have htok : (s.apply idFor (.lease now limit leaseMs)).1.leaseSeq =
      s.leaseSeq + (s.lease now limit leaseMs).2.length := leaseSeq_leaseFrom
  have hnew : (s.lease now limit leaseMs).2.map (·.lease) =
      (List.range' (s.leaseSeq + 1) (s.lease now limit leaseMs).2.length).map
        fun n => some (leaseToken n) := tokens_leaseFrom
  have hmem (id : JSString) (hid : id ∈ (s.lease now limit leaseMs).2.map (·.id)) :
      (s.jobs.get id).isSome := by
    obtain ⟨j, hj, rfl⟩ := List.mem_map.mp hid
    obtain ⟨r, hr, -⟩ := MemoryJobStore.get_of_mem_lease ht.id_eq hj
    exact Option.isSome_iff_exists.mpr ⟨r, hr⟩
  have huntil (id : JSString) :
      leasedUntil (·.retries id) id (h ++ [.of idFor s (.lease now limit leaseMs)]) =
        if id ∈ (s.lease now limit leaseMs).2.map (·.id) then some (now + leaseMs)
        else leasedUntil (·.retries id) id h := leasedUntil_append_singleton ..
  have henq : (StoreEvent.of idFor s (.lease now limit leaseMs)).enqueued = [] := rfl
  have hhand : (StoreEvent.of idFor s (.lease now limit leaseMs)).handed =
      (s.lease now limit leaseMs).2 := rfl
  have hcomp (id : JSString) :
      (StoreEvent.of idFor s (.lease now limit leaseMs)).completes id = false := rfl
  have hretry (id : JSString) :
      (StoreEvent.of idFor s (.lease now limit leaseMs)).retries id = false := rfl
  generalize (s.apply idFor (.lease now limit leaseMs)).1 = s' at *
  generalize StoreEvent.of idFor s (.lease now limit leaseMs) = e at *
  constructor
  case ids => simp [henq, ht.ids, hseq]
  case tokens =>
    rw [List.flatMap_append, List.map_append, ht.tokens, List.flatMap_singleton, hhand, hnew, htok,
      ← List.map_append, Nat.add_comm s.leaseSeq 1, List.range'_append_1]
  case id_eq =>
    intro id r' hr
    rcases hget id r' hr with ⟨hr₀, -⟩ | ⟨r, n, hr₀, -, rfl, -⟩
    · exact ht.id_eq id r' hr₀
    · exact ht.id_eq id r hr₀
  case known =>
    intro id hk
    suffices id ∈ h.flatMap (·.enqueued) by
      simp only [List.flatMap_append, List.mem_append, this, true_or]
    rw [huntil] at hk
    split_ifs at hk with hid
    · exact ht.known id (Or.inl (hmem id hid))
    · exact ht.known id (by simpa [hsome, hdead, hcomp, hretry, or_and_right, exists_or] using hk)
  case kept =>
    intro id hk
    simpa [hsome, hdead, hcomp, or_and_right, exists_or] using ht.kept id (by simpa [henq] using hk)
  case alone =>
    intro id hk
    simpa [hdead, hcomp, or_imp, forall_and] using ht.alone id (hsome id ▸ hk)
  case buried =>
    intro id hk
    simpa [hcomp, or_imp, forall_and] using ht.buried id (hdead ▸ hk)
  case attempts =>
    intro id r' hr
    rcases hget id r' hr with ⟨hr₀, -⟩ | ⟨r, n, hr₀, -, rfl, -⟩
    · simp [ht.attempts id r' hr₀, hretry]
    · simpa [hretry, Record.leased] using ht.attempts id r hr₀
  case until_eq =>
    intro id r' u hr hu
    rw [huntil] at hu
    rcases hget id r' hr with ⟨hr₀, hid⟩ | ⟨r, n, hr₀, -, rfl, hid⟩
    · exact ht.until_eq id r' u hr₀ (by simpa [hid] using hu)
    · rw [if_pos hid] at hu
      exact Option.some.inj hu

theorem refused (ht : Tracked idFor s h) {op : StoreOp T P} {id : JSString}
    {token : Option JSString} (hop : op = .complete id token ∨ (∃ runAt, op = .retry id runAt token) ∨
      (∃ error, op = .deadLetter id error token) ∨ ∃ until', op = .renew id until' token)
    (hheld : s.held id token = none) :
    Tracked idFor (s.apply idFor op).1 (h ++ [.of idFor s op]) := by
  have hs : (s.apply idFor op).1 = s := by
    rcases hop with rfl | ⟨_, rfl⟩ | ⟨_, rfl⟩ | ⟨_, rfl⟩ <;>
      simp [MemoryJobStore.apply, MemoryJobStore.complete, MemoryJobStore.retry,
        MemoryJobStore.deadLetter, MemoryJobStore.renew, hheld]
  rw [hs]
  refine ht.inert ?_ ?_ ?_ ?_ ?_ <;>
  rcases hop with rfl | ⟨_, rfl⟩ | ⟨_, rfl⟩ | ⟨_, rfl⟩ <;>
    simp [StoreEvent.of, StoreEvent.enqueued, StoreEvent.handed, StoreEvent.completes,
      StoreEvent.retries, MemoryJobStore.apply, leasedUntil_append_singleton, hheld]

theorem complete (ht : Tracked idFor s h) (id : JSString) (token : Option JSString) :
    Tracked idFor (s.apply idFor (.complete id token)).1
      (h ++ [.of idFor s (.complete id token)]) := by
  cases hheld : s.held id token with
  | none => exact ht.refused (Or.inl rfl) hheld
  | some r =>
    have hs : (s.apply idFor (.complete id token)).1 = { s with jobs := s.jobs.delete id } := by
      simp [MemoryJobStore.apply, MemoryJobStore.complete, hheld]
    rw [hs]
    refine ht.removed (MemoryJobStore.held_eq_some_iff.mp hheld).1 rfl rfl rfl rfl rfl
      (fun _ => rfl) (fun _ => leasedUntil_append_singleton ..) (Or.inl ⟨rfl, fun id' => ?_⟩)
    simp [StoreEvent.of, StoreEvent.completes, hheld]

theorem deadLetter (ht : Tracked idFor s h) (id error : JSString) (token : Option JSString) :
    Tracked idFor (s.apply idFor (.deadLetter id error token)).1
      (h ++ [.of idFor s (.deadLetter id error token)]) := by
  cases hheld : s.held id token with
  | none => exact ht.refused (Or.inr (Or.inr (Or.inl ⟨error, rfl⟩))) hheld
  | some r =>
    have hs : (s.apply idFor (.deadLetter id error token)).1 =
        { s with jobs := s.jobs.delete id, dead := s.dead.set id ⟨id, r.name, error⟩ } := by
      simp [MemoryJobStore.apply, MemoryJobStore.deadLetter, hheld]
    rw [hs]
    exact ht.removed (MemoryJobStore.held_eq_some_iff.mp hheld).1 rfl rfl rfl rfl rfl
      (fun _ => rfl) (fun _ => leasedUntil_append_singleton ..) (Or.inr ⟨_, rfl, fun _ => rfl⟩)

theorem retry (ht : Tracked idFor s h) (id : JSString) (runAt : T) (token : Option JSString) :
    Tracked idFor (s.apply idFor (.retry id runAt token)).1
      (h ++ [.of idFor s (.retry id runAt token)]) := by
  cases hheld : s.held id token with
  | none => exact ht.refused (Or.inr (Or.inl ⟨runAt, rfl⟩)) hheld
  | some r =>
    let r' := { r with attempt := r.attempt + 1, runAt := runAt, leaseUntil := 0, lease := none }
    have hs : (s.apply idFor (.retry id runAt token)).1 = { s with jobs := s.jobs.set id r' } := by
      simp [MemoryJobStore.apply, MemoryJobStore.retry, hheld, r']
    have hretry (id' : JSString) :
        (StoreEvent.of idFor s (.retry id runAt token)).retries id' = decide (id = id') := by
      simp [StoreEvent.of, StoreEvent.retries, hheld]
    rw [hs]
    refine ht.updated (MemoryJobStore.held_eq_some_iff.mp hheld).1 rfl rfl rfl rfl rfl rfl rfl
      (fun _ => rfl) ?_ (fun id' hid => ⟨?_, ?_⟩) fun u hu => ?_
    · simp [hretry, r']
    · simp [hretry, hid.symm]
    · rw [leasedUntil_append_singleton, hretry]
      simp [hid.symm, StoreEvent.of]
    · rw [leasedUntil_append_singleton, hretry] at hu
      simp at hu

theorem renew (ht : Tracked idFor s h) (id : JSString) (until' : T) (token : Option JSString) :
    Tracked idFor (s.apply idFor (.renew id until' token)).1
      (h ++ [.of idFor s (.renew id until' token)]) := by
  cases hheld : s.held id token with
  | none => exact ht.refused (Or.inr (Or.inr (Or.inr ⟨until', rfl⟩))) hheld
  | some r =>
    have huntil (id' : JSString) :
        leasedUntil (·.retries id') id' (h ++ [.of idFor s (.renew id until' token)]) =
          if id = id' ∧ r.lease.isSome then some until'
          else leasedUntil (·.retries id') id' h := by
      rw [leasedUntil_append_singleton]
      simp [StoreEvent.of, StoreEvent.retries, hheld]
    cases hlease : r.lease with
    | none =>
      have hs : (s.apply idFor (.renew id until' token)).1 = s := by
        simp [MemoryJobStore.apply, MemoryJobStore.renew, hheld, hlease]
      rw [hs]
      exact ht.inert rfl rfl (fun _ => rfl) (fun _ => rfl) (by simp [huntil, hlease])
    | some l =>
      have hs : (s.apply idFor (.renew id until' token)).1 =
          { s with jobs := s.jobs.set id { r with leaseUntil := until' } } := by
        simp [MemoryJobStore.apply, MemoryJobStore.renew, hheld, hlease]
      rw [hs]
      refine ht.updated (MemoryJobStore.held_eq_some_iff.mp hheld).1 rfl rfl rfl rfl rfl rfl rfl
        (fun _ => rfl) rfl (fun id' hid => ⟨rfl, ?_⟩) fun u hu => ?_
      · simp [huntil, hid.symm]
      · simpa [huntil, hlease] using hu

theorem step (hid : Function.Injective idFor) (ht : Tracked idFor s h) (op : StoreOp T P) :
    Tracked idFor (s.apply idFor op).1 (h ++ [.of idFor s op]) := by
  cases op with
  | enqueue job => exact ht.enqueue hid job
  | lease now limit leaseMs => exact ht.lease now limit leaseMs
  | complete id token => exact ht.complete id token
  | retry id runAt token => exact ht.retry id runAt token
  | deadLetter id error token => exact ht.deadLetter id error token
  | renew id until' token => exact ht.renew id until' token

end Operations

end Tracked

theorem tracked_empty (idFor : ℕ → JSString) :
    Tracked idFor (MemoryJobStore.empty : MemoryJobStore T P) [] := by
  constructor <;> simp [MemoryJobStore.empty, leasedUntil]

variable [LinearOrder T] [Zero T]

theorem history_append_singleton (idFor : ℕ → JSString) (ops : List (StoreOp T P))
    (op : StoreOp T P) :
    history idFor (ops ++ [op]) = (((history idFor ops).1.apply idFor op).1,
      (history idFor ops).2 ++ [.of idFor (history idFor ops).1 op]) := by
  rw [history, List.foldl_append]
  rfl

theorem tracked_history {idFor : ℕ → JSString} (hid : Function.Injective idFor)
    (ops : List (StoreOp T P)) : Tracked idFor (history idFor ops).1 (history idFor ops).2 := by
  induction ops using List.reverseRecOn with
  | nil => exact tracked_empty idFor
  | append_singleton ops op ih =>
    rw [history_append_singleton]
    exact ih.step hid op

end Invariant

variable {T P : Type*} [LinearOrder T] [Add T]

theorem leaseToken_injective : Function.Injective leaseToken := decimal_injective

theorem Tracked.isAt_unique {idFor : ℕ → JSString} {s : MemoryJobStore T P}
    {h : List (StoreEvent T P)} (ht : Tracked idFor s h) {now : T} {id : JSString} {p q : Place}
    (hp : IsAt s h now id p) (hq : IsAt s h now id q) : p = q := by
  have halone := ht.alone id
  have hburied := ht.buried id
  cases p <;> cases q <;> simp only [IsAt] at hp hq <;> grind

variable [Zero T]

/-- The store loses no job and hands none out twice, after every history of calls. -/
theorem store_safe {idFor : ℕ → JSString} (hid : Function.Injective idFor)
    (ops : List (StoreOp T P)) :
    StoreSafe (fun id e => e.retries id) (history idFor ops).1 (history idFor ops).2 := by
  have ht := tracked_history hid ops
  generalize (history idFor ops).1 = s at *
  generalize (history idFor ops).2 = h at *
  constructor
  case one_place =>
    intro now id hmem
    rcases ht.kept id hmem with hjob | hdead | hdone
    · obtain ⟨r, hr⟩ := Option.isSome_iff_exists.mp hjob
      by_cases hnow : now < r.leaseUntil
      · exact ⟨.leased, ⟨r, hr, hnow⟩, fun p hp => ht.isAt_unique hp ⟨r, hr, hnow⟩⟩
      · exact ⟨.pending, ⟨r, hr, hnow⟩, fun p hp => ht.isAt_unique hp ⟨r, hr, hnow⟩⟩
    · have hat : IsAt s h now id .deadLettered := Option.isSome_iff_exists.mp hdead
      exact ⟨.deadLettered, hat, fun p hp => ht.isAt_unique hp hat⟩
    · exact ⟨.completed, hdone, fun p hp => ht.isAt_unique hp hdone⟩
  case tokens_nodup =>
    rw [ht.tokens]
    exact (List.nodup_range').map fun m n hmn => leaseToken_injective (Option.some.inj hmn)
  case exclusive =>
    intro now limit leaseMs j hj u hu
    obtain ⟨r, hr, hdue, -⟩ := MemoryJobStore.get_of_mem_lease ht.id_eq hj
    rw [← ht.until_eq j.id r u hr hu]
    simp only [Record.due, decide_eq_true_eq] at hdue
    exact hdue.2
  case stale_inert =>
    intro id token hstale
    have hheld : s.held id (some token) = none := by
      rw [Option.eq_none_iff_forall_ne_some]
      intro r hr
      obtain ⟨hget, hlease⟩ := MemoryJobStore.held_eq_some_iff.mp hr
      exact hstale r hget (hlease.resolve_left (by simp))
    simp [MemoryJobStore.complete, MemoryJobStore.retry, MemoryJobStore.deadLetter,
      MemoryJobStore.renew, hheld]
  case handed_due =>
    intro now limit leaseMs
    refine ⟨length_leaseFrom, fun j hj => ?_⟩
    obtain ⟨r, hr, hdue, hj⟩ := MemoryJobStore.get_of_mem_lease ht.id_eq hj
    simp only [Record.due, decide_eq_true_eq] at hdue
    exact ⟨r, hr, hdue.1, hdue.2, hj⟩
  case attempts => exact ht.attempts

/-- A job that one worker leases until 100, and that a call without a token gives back. -/
def untokenedRetry : List (StoreOp ℕ Unit) :=
  [.enqueue ⟨js "email", (), 0, 3, none⟩, .lease 0 1 100, .retry (js "job_1") 0 none]

theorem store_safe_untokenedRetry :
    StoreSafe (fun id e => e.retries id) (history defaultIdFor untokenedRetry).1
      (history defaultIdFor untokenedRetry).2 :=
  store_safe defaultIdFor_injective untokenedRetry

/-- A `retry` without a token gives back a job that its holder did not release. -/
theorem leased_before_untokenedRetry : ¬ ∀ ops : List (StoreOp ℕ Unit),
    StoreSafe (fun id e => e.releases id) (history defaultIdFor ops).1
      (history defaultIdFor ops).2 := by
  intro h
  have hjob : (⟨js "job_1", js "email", (), 1, 3, none, some (js "2")⟩ : StoredJob Unit) ∈
      ((history defaultIdFor untokenedRetry).1.lease 10 1 100).2 := by decide +kernel
  have huntil : leasedUntil (·.releases (js "job_1")) (js "job_1")
      (history defaultIdFor untokenedRetry).2 = some 100 := by decide +kernel
  exact absurd ((h untokenedRetry).exclusive 10 1 100 _ hjob 100 huntil) (by decide)

end Nifra.Jobs
