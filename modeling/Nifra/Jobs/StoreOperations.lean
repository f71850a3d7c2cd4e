import Mathlib.Data.List.Count
import Mathlib.Data.List.Nodup
import Mathlib.Data.List.Range
import Mathlib.Order.Defs.LinearOrder
import Nifra.Lib.InsertionMap
import Nifra.Text.JSString

/-! # The in-process job store

Jobs wait in a map in the order of their first enqueue. A lease hides a job until
`leaseUntil` and carries a fresh token; a call made with another token than the
job's current one is ignored, and a call made with no token acts for any caller.
Times are any linear order with an addition.
-/

namespace Nifra.Jobs

structure NewJob (T P : Type*) where
  name : JSString
  payload : P
  runAt : T
  maxAttempts : ℕ
  traceparent : Option JSString

structure Record (T P : Type*) where
  id : JSString
  name : JSString
  payload : P
  attempt : ℕ
  maxAttempts : ℕ
  traceparent : Option JSString
  runAt : T
  /-- The time until which the job is hidden; `0` is available. -/
  leaseUntil : T
  /-- The current lease's token, none once the job is released. -/
  lease : Option JSString

structure DeadRecord where
  id : JSString
  name : JSString
  error : JSString
  deriving DecidableEq, Repr

structure StoredJob (P : Type*) where
  id : JSString
  name : JSString
  payload : P
  attempt : ℕ
  maxAttempts : ℕ
  traceparent : Option JSString
  lease : Option JSString
  deriving DecidableEq, Repr

structure JobCounts where
  pending : ℕ
  active : ℕ
  dead : ℕ
  deriving DecidableEq, Repr

structure MemoryJobStore (T P : Type*) where
  jobs : InsertionMap JSString (Record T P)
  dead : InsertionMap JSString DeadRecord
  /-- How many ids `idFor` has given. -/
  seq : ℕ
  leaseSeq : ℕ

/-- The ids of a store built without `idFor`: `job_1`, `job_2`, … -/
def defaultIdFor (seq : ℕ) : JSString := js "job_" ++ decimal (seq + 1)

theorem defaultIdFor_injective : Function.Injective defaultIdFor := fun m n h => by
  have hdecimal := List.append_cancel_left h
  exact Nat.succ_injective (decimal_injective hdecimal)

/-- The token of the `leaseSeq`-th lease. -/
def leaseToken (leaseSeq : ℕ) : JSString := decimal leaseSeq

section
variable {T P : Type*}

def Record.stored (r : Record T P) : StoredJob P :=
  { id := r.id, name := r.name, payload := r.payload, attempt := r.attempt,
    maxAttempts := r.maxAttempts, traceparent := r.traceparent, lease := r.lease }

def NewJob.record [Zero T] (job : NewJob T P) (id : JSString) : Record T P :=
  { id := id, name := job.name, payload := job.payload, attempt := 0,
    maxAttempts := job.maxAttempts, traceparent := job.traceparent, runAt := job.runAt,
    leaseUntil := 0, lease := none }

@[simp] theorem NewJob.id_record [Zero T] (job : NewJob T P) (id : JSString) :
    (job.record id).id = id := rfl

@[simp] theorem NewJob.attempt_record [Zero T] (job : NewJob T P) (id : JSString) :
    (job.record id).attempt = 0 := rfl

variable [LinearOrder T]

def Record.due (r : Record T P) (now : T) : Bool := r.runAt ≤ now ∧ r.leaseUntil ≤ now

section Lease
variable [Add T]

def Record.leased (r : Record T P) (now leaseMs : T) (leaseSeq : ℕ) : Record T P :=
  { r with leaseUntil := now + leaseMs, lease := some (leaseToken leaseSeq) }

/-- The loop of `lease` over the entries left, with the number of jobs taken so far. -/
def leaseFrom (now : T) (limit : ℕ) (leaseMs : T) :
    List (JSString × Record T P) → ℕ → ℕ → List (JSString × Record T P) × ℕ × List (StoredJob P)
  | [], leaseSeq, _ => ([], leaseSeq, [])
  | (k, r) :: rest, leaseSeq, taken =>
    if limit ≤ taken then ((k, r) :: rest, leaseSeq, [])
    else if r.due now then
      let r' := r.leased now leaseMs (leaseSeq + 1)
      let left := leaseFrom now limit leaseMs rest (leaseSeq + 1) (taken + 1)
      ((k, r') :: left.1, left.2.1, r'.stored :: left.2.2)
    else
      let left := leaseFrom now limit leaseMs rest leaseSeq taken
      ((k, r) :: left.1, left.2.1, left.2.2)

theorem keys_leaseFrom (now : T) (limit : ℕ) (leaseMs : T) (es : List (JSString × Record T P))
    (leaseSeq taken : ℕ) :
    (leaseFrom now limit leaseMs es leaseSeq taken).1.map Prod.fst = es.map Prod.fst := by
  induction es generalizing leaseSeq taken with
  | nil => rfl
  | cons e es ih =>
    obtain ⟨k, r⟩ := e
    rw [leaseFrom]
    split_ifs
    · rfl
    · simp [ih]
    · simp [ih]

end Lease

namespace MemoryJobStore

def empty : MemoryJobStore T P := ⟨∅, ∅, 0, 0⟩

def enqueue [Zero T] (idFor : ℕ → JSString) (s : MemoryJobStore T P) (job : NewJob T P) :
    MemoryJobStore T P × JSString :=
  let id := idFor s.seq
  ({ s with seq := s.seq + 1, jobs := s.jobs.set id (job.record id) }, id)

def lease [Add T] (s : MemoryJobStore T P) (now : T) (limit : ℕ) (leaseMs : T) :
    MemoryJobStore T P × List (StoredJob P) :=
  let left := leaseFrom now limit leaseMs s.jobs.entries s.leaseSeq 0
  ({ s with
      jobs := ⟨left.1, by rw [keys_leaseFrom]; exact s.jobs.nodup⟩,
      leaseSeq := left.2.1 }, left.2.2)

/-- The job, when a call made under `lease` may still act on it (no token: any caller may). -/
def held (s : MemoryJobStore T P) (id : JSString) (lease : Option JSString) :
    Option (Record T P) :=
  (s.jobs.get id).filter fun r => lease = none ∨ r.lease = lease

def complete (s : MemoryJobStore T P) (id : JSString) (lease : Option JSString) :
    MemoryJobStore T P :=
  match s.held id lease with
  | none => s
  | some _ => { s with jobs := s.jobs.delete id }

def retry [Zero T] (s : MemoryJobStore T P) (id : JSString) (runAt : T)
    (lease : Option JSString) : MemoryJobStore T P :=
  match s.held id lease with
  | none => s
  | some r =>
    let r' := { r with attempt := r.attempt + 1, runAt := runAt, leaseUntil := 0, lease := none }
    { s with jobs := s.jobs.set id r' }

def deadLetter (s : MemoryJobStore T P) (id error : JSString) (lease : Option JSString) :
    MemoryJobStore T P :=
  match s.held id lease with
  | none => s
  | some r =>
    { s with jobs := s.jobs.delete id, dead := s.dead.set id ⟨id, r.name, error⟩ }

def renew (s : MemoryJobStore T P) (id : JSString) (until' : T) (lease : Option JSString) :
    MemoryJobStore T P :=
  match s.held id lease with
  | none => s
  | some r =>
    if r.lease = none then s
    else { s with jobs := s.jobs.set id { r with leaseUntil := until' } }

def counts (s : MemoryJobStore T P) (now : T) : JobCounts :=
  { pending := s.jobs.values.countP fun r => ¬ now < r.leaseUntil,
    active := s.jobs.values.countP fun r => now < r.leaseUntil,
    dead := s.dead.size }

def deadLetters (s : MemoryJobStore T P) : List DeadRecord := s.dead.values

end MemoryJobStore

/-! ## Histories of the in-process job store

Any workers issue the operations in any order. A history keeps, for each operation,
the store it met and its answer; what a worker holds and where a job is are read off it.
-/

variable [Add T] [Zero T]

inductive StoreOp (T P : Type*)
  | enqueue (job : NewJob T P)
  | lease (now : T) (limit : ℕ) (leaseMs : T)
  | complete (id : JSString) (lease : Option JSString)
  | retry (id : JSString) (runAt : T) (lease : Option JSString)
  | deadLetter (id error : JSString) (lease : Option JSString)
  | renew (id : JSString) (until' : T) (lease : Option JSString)

inductive StoreAnswer (P : Type*)
  | id (id : JSString)
  | jobs (jobs : List (StoredJob P))
  | done
  deriving DecidableEq, Repr

structure StoreEvent (T P : Type*) where
  before : MemoryJobStore T P
  op : StoreOp T P
  answer : StoreAnswer P

namespace MemoryJobStore

def apply (idFor : ℕ → JSString) (s : MemoryJobStore T P) :
    StoreOp T P → MemoryJobStore T P × StoreAnswer P
  | .enqueue job => ((s.enqueue idFor job).1, .id (s.enqueue idFor job).2)
  | .lease now limit leaseMs =>
    ((s.lease now limit leaseMs).1, .jobs (s.lease now limit leaseMs).2)
  | .complete id lease => (s.complete id lease, .done)
  | .retry id runAt lease => (s.retry id runAt lease, .done)
  | .deadLetter id error lease => (s.deadLetter id error lease, .done)
  | .renew id until' lease => (s.renew id until' lease, .done)

end MemoryJobStore

def StoreEvent.of (idFor : ℕ → JSString) (s : MemoryJobStore T P) (op : StoreOp T P) :
    StoreEvent T P :=
  ⟨s, op, (s.apply idFor op).2⟩

def history (idFor : ℕ → JSString) :
    List (StoreOp T P) → MemoryJobStore T P × List (StoreEvent T P) :=
  List.foldl
    (fun sh op => ((sh.1.apply idFor op).1, sh.2 ++ [.of idFor sh.1 op])) (.empty, [])

namespace StoreEvent

variable (e : StoreEvent T P) (id : JSString)

def enqueued : List JSString :=
  match e.answer with
  | .id id => [id]
  | _ => []

def handed : List (StoredJob P) :=
  match e.answer with
  | .jobs jobs => jobs
  | _ => []

def completes : Bool :=
  match e.op with
  | .complete id' lease => id' = id ∧ (e.before.held id' lease).isSome
  | _ => false

/-- An effective `retry`: the job was there, and the call carried its token or none. -/
def retries : Bool :=
  match e.op with
  | .retry id' _ lease => id' = id ∧ (e.before.held id' lease).isSome
  | _ => false

/-- An effective `retry` that carried the current token of the job. -/
def releases : Bool :=
  match e.op with
  | .retry id' _ lease => id' = id ∧ lease.isSome ∧ (e.before.held id' lease).isSome
  | _ => false

end StoreEvent

/-- The time until which a job is leased, as the calls have set it: by the `lease` that
handed it out and the renewals since, until an event that gives the job back. -/
def leasedUntil (givesBack : StoreEvent T P → Bool) (id : JSString) :
    List (StoreEvent T P) → Option T :=
  List.foldl (fun u e =>
    if givesBack e then none
    else match e.op with
      | .lease now _ leaseMs => if id ∈ e.handed.map (·.id) then some (now + leaseMs) else u
      | .renew id' until' lease =>
        if id' = id ∧ ((e.before.held id' lease).bind (·.lease)).isSome then some until' else u
      | _ => u) none

inductive Place
  | pending
  | leased
  | deadLettered
  | completed
  deriving DecidableEq, Repr

def IsAt (s : MemoryJobStore T P) (h : List (StoreEvent T P)) (now : T) (id : JSString) :
    Place → Prop
  | .pending => ∃ r, s.jobs.get id = some r ∧ ¬ now < r.leaseUntil
  | .leased => ∃ r, s.jobs.get id = some r ∧ now < r.leaseUntil
  | .deadLettered => ∃ d, s.dead.get id = some d
  | .completed => ∃ e ∈ h, e.completes id

structure StoreSafe (givesBack : JSString → StoreEvent T P → Bool) (s : MemoryJobStore T P)
    (h : List (StoreEvent T P)) : Prop where
  /-- Every enqueued id is at all times in exactly one place. -/
  one_place : ∀ now, ∀ id ∈ h.flatMap (·.enqueued), ∃! p, IsAt s h now id p
  /-- Every lease token handed out is distinct. -/
  tokens_nodup : ((h.flatMap (·.handed)).map (·.lease)).Nodup
  /-- No job is handed out before its current `leaseUntil`, unless it was given back. -/
  exclusive : ∀ now limit leaseMs, ∀ j ∈ (s.lease now limit leaseMs).2, ∀ u,
    leasedUntil (givesBack j.id) j.id h = some u → u ≤ now
  /-- A call with a token that is not the job's current one changes nothing. -/
  stale_inert : ∀ id token, (∀ r, s.jobs.get id = some r → r.lease ≠ some token) →
    s.complete id (some token) = s ∧ (∀ runAt, s.retry id runAt (some token) = s) ∧
    (∀ error, s.deadLetter id error (some token) = s) ∧
    ∀ until', s.renew id until' (some token) = s
  /-- `lease` hands out jobs that are due, at most as many as asked for. -/
  handed_due : ∀ now limit leaseMs, (s.lease now limit leaseMs).2.length ≤ limit ∧
    ∀ j ∈ (s.lease now limit leaseMs).2, ∃ r, s.jobs.get j.id = some r ∧
      r.runAt ≤ now ∧ r.leaseUntil ≤ now ∧
      j = { r.stored with lease := j.lease }
  /-- The attempt number of a job is the number of its effective retries. -/
  attempts : ∀ id r, s.jobs.get id = some r → r.attempt = h.countP (·.retries id)

end

/-! ## What the operations of the in-process job store do

The loop of `lease` is described by what it hands out and by the entries it leaves;
a call under a token acts on the record that `held` finds.
-/

variable {T P : Type*} [LinearOrder T] [Add T]

section Lease
variable {now leaseMs : T} {limit leaseSeq taken : ℕ} {es : List (JSString × Record T P)}

theorem leaseSeq_leaseFrom :
    (leaseFrom now limit leaseMs es leaseSeq taken).2.1 =
      leaseSeq + (leaseFrom now limit leaseMs es leaseSeq taken).2.2.length := by
  induction es generalizing leaseSeq taken with
  | nil => rfl
  | cons e es ih =>
    obtain ⟨k, r⟩ := e
    rw [leaseFrom]
    split_ifs
    · rfl
    · simp only [List.length_cons, ih]
      omega
    · exact ih

theorem tokens_leaseFrom :
    (leaseFrom now limit leaseMs es leaseSeq taken).2.2.map (·.lease) =
      (List.range' (leaseSeq + 1)
        (leaseFrom now limit leaseMs es leaseSeq taken).2.2.length).map
        fun n => some (leaseToken n) := by
  induction es generalizing leaseSeq taken with
  | nil => rfl
  | cons e es ih =>
    obtain ⟨k, r⟩ := e
    rw [leaseFrom]
    split_ifs
    · rfl
    · simp only [List.map_cons, List.length_cons, List.range'_succ, ih]
      rfl
    · exact ih

theorem length_leaseFrom :
    (leaseFrom now limit leaseMs es leaseSeq taken).2.2.length ≤ limit - taken := by
  induction es generalizing leaseSeq taken with
  | nil => exact Nat.zero_le _
  | cons e es ih =>
    obtain ⟨k, r⟩ := e
    rw [leaseFrom]
    split_ifs
    · exact Nat.zero_le _
    · have hrest : (leaseFrom now limit leaseMs es (leaseSeq + 1) (taken + 1)).2.2.length ≤
          limit - (taken + 1) := ih
      simp only [List.length_cons]
      omega
    · exact ih

theorem entry_of_mem_leaseFrom {j : StoredJob P}
    (h : j ∈ (leaseFrom now limit leaseMs es leaseSeq taken).2.2) :
    ∃ k r n, (k, r) ∈ es ∧ r.due now ∧ j = (r.leased now leaseMs n).stored ∧
      (k, r.leased now leaseMs n) ∈ (leaseFrom now limit leaseMs es leaseSeq taken).1 := by
  induction es generalizing leaseSeq taken with
  | nil => cases h
  | cons e es ih =>
    obtain ⟨k, r⟩ := e
    rw [leaseFrom] at h ⊢
    split_ifs at h ⊢ with hl hd
    · cases h
    · rcases List.mem_cons.mp h with rfl | h
      · exact ⟨k, r, _, List.mem_cons_self, hd, rfl, List.mem_cons_self⟩
      · obtain ⟨k', r', n, hm, hd', hj, hm'⟩ := ih h
        exact ⟨k', r', n, List.mem_cons_of_mem _ hm, hd', hj, List.mem_cons_of_mem _ hm'⟩
    · obtain ⟨k', r', n, hm, hd', hj, hm'⟩ := ih h
      exact ⟨k', r', n, List.mem_cons_of_mem _ hm, hd', hj, List.mem_cons_of_mem _ hm'⟩

theorem entry_of_mem_leaseFrom_entries {k : JSString} {r' : Record T P}
    (h : (k, r') ∈ (leaseFrom now limit leaseMs es leaseSeq taken).1) :
    (k, r') ∈ es ∨ ∃ r n, (k, r) ∈ es ∧ r' = r.leased now leaseMs n ∧
      r'.stored ∈ (leaseFrom now limit leaseMs es leaseSeq taken).2.2 := by
  induction es generalizing leaseSeq taken with
  | nil => cases h
  | cons e es ih =>
    obtain ⟨k', r⟩ := e
    rw [leaseFrom] at h ⊢
    split_ifs at h ⊢ with hl hd
    · exact Or.inl h
    · rcases List.mem_cons.mp h with heq | h
      · obtain ⟨rfl, rfl⟩ := Prod.mk.inj heq
        exact Or.inr ⟨r, _, List.mem_cons_self, rfl, List.mem_cons_self⟩
      · rcases ih h with hm | ⟨r₀, n, hm, hr, hj⟩
        · exact Or.inl (List.mem_cons_of_mem _ hm)
        · exact Or.inr ⟨r₀, n, List.mem_cons_of_mem _ hm, hr, List.mem_cons_of_mem _ hj⟩
    · rcases List.mem_cons.mp h with heq | h
      · exact Or.inl (heq ▸ List.mem_cons_self)
      · rcases ih h with hm | ⟨r₀, n, hm, hr, hj⟩
        · exact Or.inl (List.mem_cons_of_mem _ hm)
        · exact Or.inr ⟨r₀, n, List.mem_cons_of_mem _ hm, hr, hj⟩

end Lease

namespace MemoryJobStore

variable {s : MemoryJobStore T P} {idFor : ℕ → JSString} {id id' : JSString}
  {token : Option JSString} {r r' : Record T P}

omit [LinearOrder T] [Add T] in
theorem held_eq_some_iff :
    s.held id token = some r ↔ s.jobs.get id = some r ∧ (token = none ∨ r.lease = token) := by
  simp [held, Option.filter_eq_some_iff]

theorem get_lease {now leaseMs : T} {limit : ℕ}
    (hids : ∀ id r, s.jobs.get id = some r → r.id = id)
    (h : (s.lease now limit leaseMs).1.jobs.get id = some r') :
    s.jobs.get id = some r' ∧ id ∉ (s.lease now limit leaseMs).2.map (·.id) ∨
      ∃ r n, s.jobs.get id = some r ∧ r.due now ∧ r' = r.leased now leaseMs n ∧
        id ∈ (s.lease now limit leaseMs).2.map (·.id) := by
  by_cases hid : id ∈ (s.lease now limit leaseMs).2.map (·.id)
  · obtain ⟨j, hj, hjid⟩ := List.mem_map.mp hid
    obtain ⟨k, r, n, hm, hd, rfl, hm'⟩ := entry_of_mem_leaseFrom hj
    have hget : s.jobs.get k = some r := InsertionMap.get_eq_some_iff.mpr hm
    have hk : k = id := (hids k r hget).symm.trans hjid
    subst hk
    have hget' : (s.lease now limit leaseMs).1.jobs.get k = some (r.leased now leaseMs n) :=
      InsertionMap.get_eq_some_iff.mpr hm'
    exact Or.inr ⟨r, n, hget, hd, Option.some.inj (h.symm.trans hget'), hid⟩
  · rcases entry_of_mem_leaseFrom_entries (InsertionMap.get_eq_some_iff.mp h) with
      hm | ⟨r, n, hm, hr, hj⟩
    · exact Or.inl ⟨InsertionMap.get_eq_some_iff.mpr hm, hid⟩
    · have hrid : r'.id = id := by
        rw [hr]
        exact hids id r (InsertionMap.get_eq_some_iff.mpr hm)
      exact absurd (List.mem_map.mpr ⟨r'.stored, hj, hrid⟩) hid

theorem isSome_get_lease {now leaseMs : T} {limit : ℕ} :
    ((s.lease now limit leaseMs).1.jobs.get id).isSome = (s.jobs.get id).isSome := by
  have hkeys : (s.lease now limit leaseMs).1.jobs.keys = s.jobs.keys := keys_leaseFrom ..
  rw [Bool.eq_iff_iff, Option.isSome_iff_exists, Option.isSome_iff_exists,
    ← InsertionMap.mem_keys_iff, ← InsertionMap.mem_keys_iff, hkeys]

theorem get_of_mem_lease {now leaseMs : T} {limit : ℕ} {j : StoredJob P}
    (hids : ∀ id r, s.jobs.get id = some r → r.id = id)
    (h : j ∈ (s.lease now limit leaseMs).2) :
    ∃ r, s.jobs.get j.id = some r ∧ r.due now ∧ j = { r.stored with lease := j.lease } := by
  obtain ⟨k, r, n, hm, hd, rfl, -⟩ := entry_of_mem_leaseFrom h
  have hget : s.jobs.get k = some r := InsertionMap.get_eq_some_iff.mpr hm
  have hk : r.id = k := hids k r hget
  exact ⟨r, by rw [← hget, ← hk]; rfl, hd, rfl⟩

end MemoryJobStore

end Nifra.Jobs
