import Mathlib.Algebra.Order.Ring.Int
import Mathlib.Logic.Function.Basic
import Nifra.Lib.InsertionMap
import Nifra.Lib.Runs
import Nifra.Text.JSString

/-! # The store in memory

Rows with an index by tag, lazy expiry and a bound on their number. The epochs of the latest changes
tell whether a write that was fenced earlier may still land.
-/

namespace Nifra.Cache

def maxTrackedChanges : ℕ := 65536

/-- `source` is the load that stored the entry, if one did. -/
structure StoredEntry (V : Type) where
  value : V
  staleAt : ℤ
  expiresAt : ℤ
  source : Option ℕ

/-- `serial` is the place of a row in the order of the map. -/
structure Row (V : Type) extends StoredEntry V where
  tags : List JSString
  serial : ℕ

/-- `sweep` is the serial that the expiry iterator has reached, none when it has ended. -/
structure MemoryCache (V : Type) where
  rows : InsertionMap JSString (Row V)
  serial : ℕ
  tagIndex : InsertionMap JSString (InsertionMap JSString Unit)
  sweep : Option ℕ
  maxEntries : ℕ
  keyChanges : InsertionMap JSString ℕ
  tagChanges : InsertionMap JSString ℕ
  clearedAt : ℕ
  forgottenAt : ℕ
  epoch : ℕ

/-- `++epoch` on a double: beyond the safe integers it stays. -/
def bump (epoch : ℕ) : ℕ := if isSafeInteger epoch then epoch + 1 else epoch

/-- The changes with the latest one of a name, and the epoch of the one that is forgotten for it. -/
def recordChange (changes : InsertionMap JSString ℕ) (name : JSString) (epoch : ℕ) :
    InsertionMap JSString ℕ × Option ℕ :=
  let changes := (changes.delete name).set name epoch
  if changes.size ≤ maxTrackedChanges then (changes, none)
  else match changes.entries with
    | [] => (changes, none)
    | (oldest, since) :: _ => (changes.delete oldest, some since)

namespace MemoryCache
variable {V : Type} (store : MemoryCache V)

def create (maxEntries : ℕ) : MemoryCache V := ⟨∅, 0, ∅, some 0, maxEntries, ∅, ∅, 0, 0, 0⟩

/-- `rows.set`, at the end of the map. -/
def append (key : JSString) (row : Row V) : MemoryCache V :=
  { store with
    rows := store.rows.set key { row with serial := store.serial + 1 },
    serial := store.serial + 1 }

def unlink (key : JSString) (index : InsertionMap JSString (InsertionMap JSString Unit))
    (tag : JSString) : InsertionMap JSString (InsertionMap JSString Unit) :=
  match index.get tag with
  | none => index
  | some keys =>
    let keys := keys.delete key
    if keys.size = 0 then index.delete tag else index.set tag keys

def evict (key : JSString) : MemoryCache V :=
  match store.rows.get key with
  | none => store
  | some row => { store with
      rows := store.rows.delete key,
      tagIndex := row.tags.foldl (unlink key) store.tagIndex }

def get (key : JSString) (now : ℤ) : MemoryCache V × Option (StoredEntry V) :=
  match store.rows.get key with
  | none => (store, none)
  | some row =>
    if row.expiresAt ≤ now then (store.evict key, none)
    else ({ store with rows := store.rows.delete key }.append key row, some row.toStoredEntry)

def recordKey (key : JSString) : MemoryCache V :=
  let (changes, forgotten) := recordChange store.keyChanges key (bump store.epoch)
  { store with
    keyChanges := changes,
    epoch := bump store.epoch,
    forgottenAt := max store.forgottenAt (forgotten.getD 0) }

def recordTag (tag : JSString) : MemoryCache V :=
  let (changes, forgotten) := recordChange store.tagChanges tag (bump store.epoch)
  { store with
    tagChanges := changes,
    epoch := bump store.epoch,
    forgottenAt := max store.forgottenAt (forgotten.getD 0) }

def nextRow : Option (JSString × Row V) :=
  store.sweep.bind fun reached => store.rows.entries.find? fun entry => reached < entry.2.serial

def visit (entry : JSString × Row V) (now : ℤ) : MemoryCache V :=
  let store := { store with sweep := some entry.2.serial }
  if entry.2.expiresAt ≤ now then store.evict entry.1 else store

/-- At most `limit` rows; an iterator that has ended starts over, unless there is no row. -/
def sweepExpired (now : ℤ) : ℕ → MemoryCache V → MemoryCache V
  | 0, store => store
  | limit + 1, store =>
    match store.nextRow with
    | some entry => sweepExpired now limit (store.visit entry now)
    | none =>
      let store := { store with sweep := some 0 }
      match store.nextRow with
      | some entry => sweepExpired now limit (store.visit entry now)
      | none => { store with sweep := none }

def link (key : JSString) (index : InsertionMap JSString (InsertionMap JSString Unit))
    (tag : JSString) : InsertionMap JSString (InsertionMap JSString Unit) :=
  index.set tag (((index.get tag).getD ∅).set key ())

def trim : MemoryCache V :=
  if 0 < store.maxEntries ∧ store.maxEntries < store.rows.size then
    match store.rows.entries with
    | [] => store
    | oldest :: _ => store.evict oldest.1
  else store

def set (key : JSString) (entry : StoredEntry V) (tags : List JSString) (now : ℤ) :
    MemoryCache V :=
  let store := ((sweepExpired now 8 (store.recordKey key)).evict key).append key ⟨entry, tags, 0⟩
  { store with tagIndex := tags.foldl (link key) store.tagIndex }.trim

def delete (key : JSString) : MemoryCache V := (store.recordKey key).evict key

def invalidateTag (tag : JSString) : MemoryCache V :=
  let store := store.recordTag tag
  match store.tagIndex.get tag with
  | none => store
  | some keys => keys.keys.foldl evict store

/-- Every older fence is refused from here on, so the earlier changes need no remembering. -/
def clear : MemoryCache V :=
  { store with
    clearedAt := bump store.epoch,
    epoch := bump store.epoch,
    keyChanges := ∅,
    tagChanges := ∅,
    rows := ∅,
    tagIndex := ∅,
    sweep := some 0 }

def fence : ℕ := store.epoch

/-- A load with this token may not write: something it must not overwrite has run since. -/
def refuses (key : JSString) (tags : List JSString) (token : ℕ) : Bool :=
  !isSafeInteger token || decide (store.epoch < token) || decide (token < store.clearedAt) ||
    decide (token < store.forgottenAt) || decide (token < (store.keyChanges.get key).getD 0) ||
    tags.any fun tag => decide (token < (store.tagChanges.get tag).getD 0)

def setIfFence (key : JSString) (entry : StoredEntry V) (tags : List JSString) (token : ℕ)
    (now : ℤ) : MemoryCache V :=
  if store.refuses key tags token then store else store.set key entry tags now

end MemoryCache

/-! ## Caches over one store

Any number of caches share a store. A load runs from one await to the next: it takes its fence and
calls the loader, it is registered when the loader first awaits, it stores what the loader returned,
and it leaves the loads in flight.
-/

structure SetOptions where
  ttlMs : Option ℤ
  swrMs : Option ℤ
  tags : Option (List JSString)

def SetOptions.tagList (opts : SetOptions) : List JSString := opts.tags.getD []

variable {V : Type}

def entryOf (defaultTtlMs : ℤ) (value : V) (opts : SetOptions) (source : Option ℕ) (t : ℤ) :
    Option (StoredEntry V) :=
  let ttlMs := opts.ttlMs.getD defaultTtlMs
  let swrMs := opts.swrMs.getD 0
  if ttlMs < 0 ∨ swrMs < 0 then none else some ⟨value, t + ttlMs, t + ttlMs + swrMs, source⟩

/-- What a load is for, in one of the caches, and the token that it took. -/
structure Ticket where
  cache : ℕ
  key : JSString
  opts : SetOptions
  token : ℕ

/-- The loader runs up to its first await, it runs, it has settled, or nothing is left to do. -/
inductive Phase
  | starting
  | running
  | settled
  | finished
  deriving DecidableEq, Repr

structure Load extends Ticket where
  withdrawn : Bool
  phase : Phase

structure Flight where
  load : ℕ
  tags : List JSString

inductive CallPhase
  | reading
  | served
  | joined (load : ℕ)
  deriving DecidableEq, Repr

/-- A call of `wrap`, with the entry that it read. -/
structure Call (V : Type) where
  cache : ℕ
  key : JSString
  opts : SetOptions
  entry : Option (StoredEntry V)
  phase : CallPhase

/-- `starting` is the load whose loader has not awaited yet: nothing else resumes before it does. -/
structure Caches (V : Type) where
  store : MemoryCache V
  inflight : ℕ → InsertionMap JSString Flight
  loads : List Load
  calls : List (Call V)
  starting : Option ℕ

inductive Change (V : Type)
  | set (key : JSString) (value : V) (opts : SetOptions) (t now : ℤ)
  | remove (key : JSString)
  | invalidateTag (tag : JSString)
  | clear

def Change.covers : Change V → JSString → List JSString → Bool
  | .set key _ _ _ _, writeKey, _ => writeKey = key
  | .remove key, writeKey, _ => writeKey = key
  | .invalidateTag tag, _, tags => tag ∈ tags
  | .clear, _, _ => true

/-- What a change does to the store; none for a `set` whose options are refused. -/
def Change.apply (defaultTtlMs : ℤ) (store : MemoryCache V) : Change V → Option (MemoryCache V)
  | .set key value opts t now =>
    (entryOf defaultTtlMs value opts none t).map fun entry =>
      store.set key entry opts.tagList now
  | .remove key => some (store.delete key)
  | .invalidateTag tag => some (store.invalidateTag tag)
  | .clear => some store.clear

inductive Action (V : Type)
  | get (key : JSString) (now : ℤ)
  | change (i : ℕ) (change : Change V)
  | wrap (i : ℕ) (key : JSString) (opts : SetOptions) (now : ℤ)
  | resume (n : ℕ) (t : ℤ)
  | register
  | settle (n : ℕ) (value : Option V) (t now : ℤ)
  | finish (n : ℕ)

namespace Caches
variable (defaultTtlMs : ℕ → ℤ) (s : Caches V)

def create (maxEntries : ℕ) : Caches V := ⟨.create maxEntries, fun _ => ∅, [], [], none⟩

def setFlights (i : ℕ) (flights : InsertionMap JSString Flight) : Caches V :=
  { s with inflight := Function.update s.inflight i flights }

def setPhase (n : ℕ) (phase : Phase) : Caches V :=
  { s with loads := s.loads.modify n fun load => { load with phase := phase } }

def setCall (n : ℕ) (phase : CallPhase) : Caches V :=
  { s with calls := s.calls.modify n fun call => { call with phase := phase } }

def withdrawFlight (i : ℕ) (s : Caches V) (entry : JSString × Flight) : Caches V :=
  { s with loads := s.loads.modify entry.2.load fun load => { load with withdrawn := true } }.setFlights
    i ((s.inflight i).delete entry.1)

def withdraw (i : ℕ) (covers : JSString → List JSString → Bool) : Caches V :=
  ((s.inflight i).entries.filter fun entry => covers entry.1 entry.2.tags).foldl
    (withdrawFlight i) s

def change (i : ℕ) (change : Change V) : Caches V :=
  { s.withdraw i change.covers with
    store := (change.apply (defaultTtlMs i) s.store).getD s.store }

def begin (i : ℕ) (key : JSString) (opts : SetOptions) : Caches V :=
  { s with
    loads := s.loads ++ [⟨⟨i, key, opts, s.store.fence⟩, false, .starting⟩],
    starting := some s.loads.length }

def load (i : ℕ) (key : JSString) (opts : SetOptions) : Caches V × ℕ :=
  match (s.inflight i).get key with
  | some flight => (s, flight.load)
  | none => (s.begin i key opts, s.loads.length)

def revalidate (i : ℕ) (key : JSString) (opts : SetOptions) : Caches V :=
  if (s.inflight i).has key then s else (s.load i key opts).1

/-- `wrap` goes on with what it read. -/
def resume (n : ℕ) (call : Call V) (t : ℤ) : Caches V :=
  match call.entry with
  | some entry =>
    let s := s.setCall n .served
    if t < entry.staleAt then s else s.revalidate call.cache call.key call.opts
  | none =>
    let (s, joined) := s.load call.cache call.key call.opts
    s.setCall n (.joined joined)

def register (n : ℕ) (load : Load) : Caches V :=
  let flights := (s.inflight load.cache).set load.key ⟨n, load.opts.tagList⟩
  { (s.setPhase n .running).setFlights load.cache flights with starting := none }

def settle (n : ℕ) (load : Load) (value : Option V) (t now : ℤ) : Caches V :=
  let s := s.setPhase n .settled
  if load.withdrawn then s
  else match value.bind fun value =>
      entryOf (defaultTtlMs load.cache) value load.opts (some n) t with
    | none => s
    | some entry => { s with
        store := s.store.setIfFence load.key entry load.opts.tagList load.token now }

def finish (n : ℕ) (load : Load) : Caches V :=
  let s := s.setPhase n .finished
  if ((s.inflight load.cache).get load.key).any fun flight => flight.load = n then
    s.setFlights load.cache ((s.inflight load.cache).delete load.key)
  else s

def step : Action V → Option (Caches V)
  | .get key now => some { s with store := (s.store.get key now).1 }
  | .change i change => some (s.change defaultTtlMs i change)
  | .wrap i key opts now =>
    let (store, entry) := s.store.get key now
    some { s with
      store := store,
      calls := s.calls ++ [⟨i, key, opts, entry, .reading⟩] }
  | .resume n t => do
    let call ← s.calls[n]?
    if call.phase = .reading ∧ s.starting = none then some (s.resume n call t) else none
  | .register => do
    let n ← s.starting
    let load ← s.loads[n]?
    some (s.register n load)
  | .settle n value t now => do
    let load ← s.loads[n]?
    if load.phase = .running ∧ s.starting = none then
      some (s.settle defaultTtlMs n load value t now)
    else none
  | .finish n => do
    let load ← s.loads[n]?
    if load.phase = .settled ∧ s.starting = none then some (s.finish n load) else none

end Caches

end Nifra.Cache
