import Mathlib.Algebra.Order.Ring.Int
import Mathlib.Order.Defs.LinearOrder
import Nifra.Lib.InsertionMap
import Nifra.Text.JSString

/-! # The rate limiter's store in memory

Fixed windows by key, swept lazily and bounded in number. Expired windows make room for a new key,
looked for by an iterator that goes on where it stopped; a live window makes room for nobody.
-/

namespace Nifra.RateLimit

def maxEvictionScan : ℕ := 64

structure RateLimitResult (T : Type) where
  count : ℕ
  resetAt : T
  limited : Bool
  deriving DecidableEq, Repr

/-- `serial` is the place of a window in the order of the map. -/
structure Window (T : Type) where
  count : ℕ
  resetAt : T
  serial : ℕ

/-- Times are numbers of any kind. `scan` is the serial that the iterator has reached, none before
the first one and when one has ended. -/
structure MemoryStore (T : Type) where
  windows : InsertionMap JSString (Window T)
  serial : ℕ
  scan : Option ℕ
  maxKeys : ℕ
  sweepIntervalMs : T
  lastSweep : T
  evictionScans : ℕ

namespace MemoryStore

variable {T : Type} [LinearOrder T]

def create [Zero T] (maxKeys : ℕ) (sweepIntervalMs : T) : MemoryStore T :=
  ⟨∅, 0, none, maxKeys, sweepIntervalMs, 0, 0⟩

variable (store : MemoryStore T)

def sweepExpired (now : T) : MemoryStore T :=
  { store with windows := store.windows.filter fun _ window => now < window.resetAt }

def nextWindow : Option (JSString × Window T) :=
  store.scan.bind fun reached =>
    store.windows.entries.find? fun entry => reached < entry.2.serial

def firstWindow : Option (JSString × Window T) := store.windows.entries.head?

/-- The loop of `reclaimExpired`, for so many windows. -/
def reclaimExpired (now : T) : ℕ → MemoryStore T → Bool × MemoryStore T
  | 0, store => (false, store)
  | limit + 1, store =>
    match store.nextWindow.or store.firstWindow with
    | none => (false, { store with scan := none })
    | some (key, window) =>
      let store := { store with
        scan := some window.serial
        evictionScans := store.evictionScans + 1 }
      if window.resetAt ≤ now then (true, { store with windows := store.windows.delete key })
      else reclaimExpired now limit store

/-- `windows.set`, at the end of the map for a new key. -/
def openWindow (key : JSString) (resetAt : T) : MemoryStore T :=
  match store.windows.get key with
  | some window => { store with windows := store.windows.set key ⟨1, resetAt, window.serial⟩ }
  | none => { store with
    windows := store.windows.set key ⟨1, resetAt, store.serial + 1⟩
    serial := store.serial + 1 }

variable [Add T] [Sub T]

def sweepAmortized (now : T) : MemoryStore T :=
  if store.sweepIntervalMs ≤ now - store.lastSweep then
    { store.sweepExpired now with lastSweep := now }
  else store

def hit (key : JSString) (windowMs now : T) : RateLimitResult T × MemoryStore T :=
  let store := store.sweepAmortized now
  match store.windows.get key with
  | some window =>
    if now < window.resetAt then
      (⟨window.count + 1, window.resetAt, false⟩,
        { store with
          windows := store.windows.set key { window with count := window.count + 1 } })
    else (⟨1, now + windowMs, false⟩, store.openWindow key (now + windowMs))
  | none =>
    if store.maxKeys ≤ store.windows.size then
      match store.reclaimExpired now maxEvictionScan with
      | (true, store) => (⟨1, now + windowMs, false⟩, store.openWindow key (now + windowMs))
      | (false, store) => (⟨0, now + windowMs, true⟩, store)
    else (⟨1, now + windowMs, false⟩, store.openWindow key (now + windowMs))

end MemoryStore

/-! ## The rate limiter's store counts exactly

Over the hits of a run under a clock that does not go back, every answer is the number of hits of
its key since the key's current window opened, and a window stays until it is over.
-/

open MemoryStore

variable {T : Type}

structure Hit (T : Type) where
  key : JSString
  windowMs : T
  now : T

variable [LinearOrder T]

theorem reclaimExpired_cases (now : T) (limit : ℕ) (store : MemoryStore T) :
    ∃ scan scans, scans ≤ store.evictionScans + limit ∧
      (reclaimExpired now limit store =
          (false, { store with
            scan := scan
            evictionScans := scans }) ∨
        ∃ key window, store.windows.get key = some window ∧ window.resetAt ≤ now ∧
          reclaimExpired now limit store =
            (true, { store with
              windows := store.windows.delete key
              scan := scan
              evictionScans := scans })) := by
  induction limit generalizing store with
  | zero => exact ⟨store.scan, store.evictionScans, le_rfl, Or.inl rfl⟩
  | succ limit ih =>
    rw [reclaimExpired]
    split
    · exact ⟨none, store.evictionScans, Nat.le_add_right _ _, Or.inl rfl⟩
    · next key window hnext =>
      have hmem : (key, window) ∈ store.windows.entries := by
        rcases Option.or_eq_some_iff.mp hnext with hnext | ⟨-, hfirst⟩
        · obtain ⟨reached, -, hfind⟩ := Option.bind_eq_some_iff.mp hnext
          exact List.mem_of_find?_eq_some hfind
        · exact List.mem_of_head? hfirst
      by_cases hover : window.resetAt ≤ now
      · refine ⟨some window.serial, store.evictionScans + 1, by omega, Or.inr ?_⟩
        have hget := InsertionMap.get_eq_some_iff.mpr hmem
        exact ⟨key, window, hget, hover, by simp only [if_pos hover]⟩
      · simp only [if_neg hover]
        obtain ⟨scan, scans, hle, h⟩ := ih { store with
          scan := some window.serial
          evictionScans := store.evictionScans + 1 }
        exact ⟨scan, scans, by dsimp only at hle; omega, h⟩

section
variable [Sub T] {store : MemoryStore T} {key : JSString} {now : T}

theorem get_sweepAmortized {window : Window T} (hlive : now < window.resetAt) :
    (store.sweepAmortized now).windows.get key = some window ↔
      store.windows.get key = some window := by
  unfold sweepAmortized
  split
  · simp [sweepExpired, InsertionMap.get_filter_eq_some_iff, hlive]
  · rfl

theorem size_sweepAmortized (store : MemoryStore T) (now : T) :
    (store.sweepAmortized now).windows.size ≤ store.windows.size := by
  unfold sweepAmortized
  split
  · exact InsertionMap.size_filter_le _ _
  · exact le_rfl

theorem sweepAmortized_of_size (h : store.windows.size ≤ (store.sweepAmortized now).windows.size) :
    (store.sweepAmortized now).windows = store.windows := by
  unfold sweepAmortized at h ⊢
  split at h
  · next hdue =>
    rw [if_pos hdue]
    apply InsertionMap.ext
    exact List.filter_sublist.eq_of_length_le h
  · next hdue => rw [if_neg hdue]

end

abbrev Log (T : Type) := List (Hit T × RateLimitResult T)

def countOf (key : JSString) (log : Log T) : ℕ := log.countP fun entry => entry.1.key = key

def Over (log : Log T) (key : JSString) (now : T) : Prop :=
  ∀ entry ∈ log, entry.1.key = key → entry.2.limited = false → entry.2.resetAt ≤ now

theorem Over.mono {log : Log T} {key : JSString} {now now' : T} (h : Over log key now)
    (hle : now ≤ now') : Over log key now' :=
  fun entry hmem hkey hlimited => (h entry hmem hkey hlimited).trans hle

variable [Add T]

/-- The window of a key: opened by one of its hits, when every earlier window of the key was over,
and answered to each of its hits since, before it was over. -/
structure Opened (key : JSString) (resetAt : T) (past : Log T) (opening : Hit T × RateLimitResult T)
    (rest : Log T) : Prop where
  opens : opening.1.key = key
  ends : resetAt = opening.1.now + opening.1.windowMs
  elapsed : Over past key opening.1.now
  answered : ∀ entry ∈ opening :: rest, entry.1.key = key →
    entry.2.limited = false ∧ entry.2.resetAt = resetAt
  live : ∀ entry ∈ rest, entry.1.key = key → entry.1.now < resetAt

/-- A window of a key with a count at the end of a log: the count is that of the key's hits since
the window opened. -/
def Current (log : Log T) (key : JSString) (count : ℕ) (resetAt : T) : Prop :=
  ∃ past opening rest, log = past ++ opening :: rest ∧ Opened key resetAt past opening rest ∧
    count = countOf key (opening :: rest)

/-- An answer to a hit after a log: a refusal when no window of the key is left, or the count of the
window that is current with this hit. -/
def Counts (log : Log T) (hit : Hit T) (answer : RateLimitResult T) : Prop :=
  if answer.limited then answer.count = 0 ∧ Over log hit.key hit.now
  else Current (log ++ [(hit, answer)]) hit.key answer.count answer.resetAt

variable {log : Log T} {key : JSString} {count : ℕ} {resetAt now : T} {hit : Hit T}
variable {answer : RateLimitResult T}

theorem Current.elapsed (h : Current log key count resetAt) (hlog : ∀ entry ∈ log, entry.1.now ≤ now)
    (hnow : resetAt ≤ now) : Over log key now := by
  obtain ⟨past, opening, rest, rfl, hopened, -⟩ := h
  intro entry hmem hkey hlimited
  rcases List.mem_append.mp hmem with hpast | hsince
  · exact (hopened.elapsed entry hpast hkey hlimited).trans (hlog opening (by simp))
  · rw [(hopened.answered entry hsince hkey).2]
    exact hnow

theorem Current.other (h : Current log key count resetAt) (hkey : hit.key ≠ key) :
    Current (log ++ [(hit, answer)]) key count resetAt := by
  obtain ⟨past, opening, rest, rfl, hopened, rfl⟩ := h
  have hlast : ∀ entry ∈ [(hit, answer)], entry.1.key ≠ key := by
    simpa using hkey
  refine ⟨past, opening, rest ++ [(hit, answer)], by simp, ?_, ?_⟩
  · constructor
    · exact hopened.opens
    · exact hopened.ends
    · exact hopened.elapsed
    · intro entry hmem hentry
      rw [← List.cons_append] at hmem
      rcases List.mem_append.mp hmem with hmem | hmem
      · exact hopened.answered entry hmem hentry
      · exact absurd hentry (hlast entry hmem)
    · intro entry hmem hentry
      rcases List.mem_append.mp hmem with hmem | hmem
      · exact hopened.live entry hmem hentry
      · exact absurd hentry (hlast entry hmem)
  · rw [← List.cons_append, countOf, countOf, List.countP_append, List.countP_singleton]
    simp [hkey]

theorem Current.again (h : Current log hit.key count resetAt) (hnow : hit.now < resetAt) :
    Current (log ++ [(hit, ⟨count + 1, resetAt, false⟩)]) hit.key (count + 1) resetAt := by
  obtain ⟨past, opening, rest, rfl, hopened, hcount⟩ := h
  refine ⟨past, opening, rest ++ [(hit, ⟨count + 1, resetAt, false⟩)], by simp, ?_, ?_⟩
  · constructor
    · exact hopened.opens
    · exact hopened.ends
    · exact hopened.elapsed
    · intro entry hmem hentry
      rw [← List.cons_append] at hmem
      rcases List.mem_append.mp hmem with hmem | hmem
      · exact hopened.answered entry hmem hentry
      · rw [List.mem_singleton.mp hmem]
        exact ⟨rfl, rfl⟩
    · intro entry hmem hentry
      rcases List.mem_append.mp hmem with hmem | hmem
      · exact hopened.live entry hmem hentry
      · rw [List.mem_singleton.mp hmem]
        exact hnow
  · rw [← List.cons_append, countOf, List.countP_append, List.countP_singleton, hcount]
    simp [countOf]

theorem current_open (h : Over log hit.key hit.now) :
    Current (log ++ [(hit, ⟨1, hit.now + hit.windowMs, false⟩)]) hit.key 1
      (hit.now + hit.windowMs) := by
  refine ⟨log, _, [], rfl, ?_, ?_⟩
  · constructor
    · rfl
    · rfl
    · exact h
    · intro entry hmem _
      rw [List.mem_singleton.mp hmem]
      exact ⟨rfl, rfl⟩
    · rintro entry ⟨⟩
  · simp [countOf]

inductive Outcome (windows : InsertionMap JSString (Window T)) (maxKeys : ℕ) (hit : Hit T) :
    RateLimitResult T → InsertionMap JSString (Window T) → Prop
  | counted {window : Window T} (hget : windows.get hit.key = some window)
    (hlive : hit.now < window.resetAt) :
    Outcome windows maxKeys hit ⟨window.count + 1, window.resetAt, false⟩
      (windows.set hit.key { window with count := window.count + 1 })
  | renewed {window : Window T} (hget : windows.get hit.key = some window)
    (hover : window.resetAt ≤ hit.now) :
    Outcome windows maxKeys hit ⟨1, hit.now + hit.windowMs, false⟩
      (windows.set hit.key ⟨1, hit.now + hit.windowMs, window.serial⟩)
  | opened {serial : ℕ} (hget : windows.get hit.key = none) (hroom : windows.size < maxKeys) :
    Outcome windows maxKeys hit ⟨1, hit.now + hit.windowMs, false⟩
      (windows.set hit.key ⟨1, hit.now + hit.windowMs, serial⟩)
  | reclaimed {key : JSString} {window : Window T} {serial : ℕ}
    (hget : windows.get hit.key = none) (hkey : windows.get key = some window)
    (hover : window.resetAt ≤ hit.now) :
    Outcome windows maxKeys hit ⟨1, hit.now + hit.windowMs, false⟩
      ((windows.delete key).set hit.key ⟨1, hit.now + hit.windowMs, serial⟩)
  | refused (hget : windows.get hit.key = none) (hfull : maxKeys ≤ windows.size) :
    Outcome windows maxKeys hit ⟨0, hit.now + hit.windowMs, true⟩ windows

variable {maxKeys : ℕ}

/-- The windows of a store beside the log of its answers, at a time no entry of it is past. -/
structure Kept (windows : InsertionMap JSString (Window T)) (log : Log T) (now : T) : Prop where
  past : ∀ entry ∈ log, entry.1.now ≤ now
  current : ∀ key window, windows.get key = some window →
    Current log key window.count window.resetAt
  elapsed : ∀ key, windows.get key = none → Over log key now

variable {windows windows' : InsertionMap JSString (Window T)}

theorem Kept.later {now' : T} (h : Kept windows log now) (hle : now ≤ now') :
    Kept windows log now' where
  past entry hmem := (h.past entry hmem).trans hle
  current := h.current
  elapsed key hget := (h.elapsed key hget).mono hle

theorem Kept.drop (h : Kept windows log now)
    (hsub : ∀ key window, windows'.get key = some window → windows.get key = some window)
    (hover : ∀ key window, windows.get key = some window → windows'.get key = none →
      window.resetAt ≤ now) : Kept windows' log now where
  past := h.past
  current key window hget := h.current key window (hsub key window hget)
  elapsed key hget := by
    cases hbefore : windows.get key with
    | none => exact h.elapsed key hbefore
    | some window =>
      exact (h.current key window hbefore).elapsed h.past (hover key window hbefore hget)

theorem Kept.admit (h : Kept windows log hit.now) {window : Window T}
    (hcurrent : Current (log ++ [(hit, answer)]) hit.key window.count window.resetAt) :
    Kept (windows.set hit.key window) (log ++ [(hit, answer)]) hit.now where
  past := by
    intro entry hmem
    rcases List.mem_append.mp hmem with hmem | hmem
    · exact h.past entry hmem
    · rw [List.mem_singleton.mp hmem]
  current key other hget := by
    rw [InsertionMap.get_set] at hget
    split_ifs at hget with hkey
    · obtain rfl := Option.some.inj hget
      rw [hkey]
      exact hcurrent
    · exact (h.current key other hget).other (Ne.symm hkey)
  elapsed key hget := by
    rw [InsertionMap.get_set] at hget
    split_ifs at hget with hkey
    intro entry hmem hentry
    rcases List.mem_append.mp hmem with hmem | hmem
    · exact h.elapsed key hget entry hmem hentry
    · rw [List.mem_singleton.mp hmem] at hentry
      exact absurd hentry.symm hkey

theorem Kept.refuse (h : Kept windows log hit.now) (hget : windows.get hit.key = none)
    (hlimited : answer.limited = true) :
    Kept windows (log ++ [(hit, answer)]) hit.now where
  past := by
    intro entry hmem
    rcases List.mem_append.mp hmem with hmem | hmem
    · exact h.past entry hmem
    · rw [List.mem_singleton.mp hmem]
  current key window hwindow := by
    apply (h.current key window hwindow).other
    rintro rfl
    rw [hget] at hwindow
    cases hwindow
  elapsed key hnone entry hmem hentry hanswered := by
    rcases List.mem_append.mp hmem with hmem | hmem
    · exact h.elapsed key hnone entry hmem hentry hanswered
    · rw [List.mem_singleton.mp hmem, hlimited] at hanswered
      cases hanswered

theorem Outcome.kept (ho : Outcome windows maxKeys hit answer windows')
    (h : Kept windows log hit.now) :
    Counts log hit answer ∧ Kept windows' (log ++ [(hit, answer)]) hit.now := by
  cases ho with
  | counted hget hlive =>
    have hcurrent := (h.current hit.key _ hget).again hlive
    exact ⟨hcurrent, h.admit hcurrent⟩
  | renewed hget hover =>
    have hcurrent := current_open ((h.current hit.key _ hget).elapsed h.past hover)
    exact ⟨hcurrent, h.admit hcurrent⟩
  | opened hget hroom =>
    have hcurrent := current_open (h.elapsed hit.key hget)
    exact ⟨hcurrent, h.admit hcurrent⟩
  | @reclaimed key window serial hget hkey hover =>
    have hcurrent := current_open (h.elapsed hit.key hget)
    have hdropped : Kept (windows.delete key) log hit.now := by
      apply h.drop
      · intro other window' hother
        rw [InsertionMap.get_delete] at hother
        split_ifs at hother
        exact hother
      · intro other window' hother hnone
        rw [InsertionMap.get_delete] at hnone
        split_ifs at hnone with heq
        · rw [heq, hkey] at hother
          obtain rfl := Option.some.inj hother
          exact hover
        · rw [hnone] at hother
          cases hother
    exact ⟨hcurrent, hdropped.admit hcurrent⟩
  | refused hget hfull => exact ⟨⟨rfl, h.elapsed hit.key hget⟩, h.refuse hget rfl⟩

theorem Outcome.live (ho : Outcome windows maxKeys hit answer windows') {window : Window T}
    (hget : windows.get key = some window) (hlive : hit.now < window.resetAt) :
    ∃ window', windows'.get key = some window' ∧ window'.resetAt = window.resetAt ∧
      window'.count = window.count + if key = hit.key then 1 else 0 := by
  by_cases hkey : key = hit.key
  · subst hkey
    rw [if_pos rfl]
    cases ho with
    | counted hbefore _ =>
      obtain rfl := Option.some.inj (hget.symm.trans hbefore)
      exact ⟨_, InsertionMap.get_set_self, rfl, rfl⟩
    | renewed hbefore hover =>
      obtain rfl := Option.some.inj (hget.symm.trans hbefore)
      exact absurd hlive (not_lt.mpr hover)
    | opened hbefore => cases hget.symm.trans hbefore
    | reclaimed hbefore => cases hget.symm.trans hbefore
    | refused hbefore => cases hget.symm.trans hbefore
  · refine ⟨window, ?_, rfl, by rw [if_neg hkey, Nat.add_zero]⟩
    cases ho with
    | counted => rw [InsertionMap.get_set_of_ne hkey, hget]
    | renewed => rw [InsertionMap.get_set_of_ne hkey, hget]
    | opened => rw [InsertionMap.get_set_of_ne hkey, hget]
    | @reclaimed other gone serial hbefore hother hover =>
      have hne : key ≠ other := by
        rintro rfl
        obtain rfl := Option.some.inj (hget.symm.trans hother)
        exact absurd hlive (not_lt.mpr hover)
      rw [InsertionMap.get_set_of_ne hkey, InsertionMap.get_delete, if_neg hne, hget]
    | refused => exact hget

theorem Outcome.size_le (ho : Outcome windows maxKeys hit answer windows')
    (h : windows.size ≤ maxKeys) : windows'.size ≤ maxKeys := by
  cases ho with
  | counted hget =>
    rw [InsertionMap.size_set, InsertionMap.size_delete hget]
    exact h
  | renewed hget =>
    rw [InsertionMap.size_set, InsertionMap.size_delete hget]
    exact h
  | opened hget hroom =>
    rw [InsertionMap.size_set_of_get_none hget]
    exact hroom
  | reclaimed hget hother =>
    rw [InsertionMap.size_set_of_get_none (by rw [InsertionMap.get_delete, hget, ite_self]),
      InsertionMap.size_delete hother]
    exact h
  | refused => exact h

theorem Outcome.full (ho : Outcome windows maxKeys hit answer windows')
    (hlimited : answer.limited = true) : windows' = windows ∧ maxKeys ≤ windows.size := by
  cases ho with
  | refused hget hfull => exact ⟨rfl, hfull⟩
  | _ => cases hlimited

variable [Sub T] {store : MemoryStore T}

theorem Kept.sweep (h : Kept store.windows log now) :
    Kept (store.sweepAmortized now).windows log now := by
  apply h.drop
  · intro key window hget
    unfold sweepAmortized at hget
    split at hget
    · exact (InsertionMap.get_filter_eq_some_iff.mp hget).1
    · exact hget
  · intro key window hget hnone
    by_contra hlive
    rw [(get_sweepAmortized (not_le.mp hlive)).mpr hget] at hnone
    cases hnone

/-- `hit`, as the step of the store. -/
def MemoryStore.step (store : MemoryStore T) (hit : Hit T) : RateLimitResult T × MemoryStore T :=
  store.hit hit.key hit.windowMs hit.now

theorem step_outcome (store : MemoryStore T) (hit : Hit T) :
    Outcome (store.sweepAmortized hit.now).windows store.maxKeys hit (store.step hit).1
        (store.step hit).2.windows ∧
      (store.step hit).2.maxKeys = store.maxKeys ∧
      (store.step hit).2.evictionScans ≤ store.evictionScans + maxEvictionScan := by
  have hkeys : (store.sweepAmortized hit.now).maxKeys = store.maxKeys := by
    unfold sweepAmortized
    split
    · rfl
    · rfl
  have hscans : (store.sweepAmortized hit.now).evictionScans = store.evictionScans := by
    unfold sweepAmortized
    split
    · rfl
    · rfl
  unfold step MemoryStore.hit
  dsimp only
  rw [← hkeys, ← hscans]
  generalize store.sweepAmortized hit.now = store
  cases hget : store.windows.get hit.key with
  | some window =>
    by_cases hlive : hit.now < window.resetAt
    · simp only [if_pos hlive]
      exact ⟨.counted hget hlive, trivial, Nat.le_add_right _ _⟩
    · simp only [if_neg hlive, openWindow, hget]
      exact ⟨.renewed hget (not_lt.mp hlive), trivial, Nat.le_add_right _ _⟩
  | none =>
    by_cases hfull : store.maxKeys ≤ store.windows.size
    · simp only [if_pos hfull]
      obtain ⟨scan, scans, hle, h | ⟨key, window, hkey, hover, h⟩⟩ :=
        reclaimExpired_cases hit.now maxEvictionScan store
      · simp only [h]
        exact ⟨.refused hget hfull, trivial, hle⟩
      · have hnone : (store.windows.delete key).get hit.key = none := by
          rw [InsertionMap.get_delete, hget, ite_self]
        simp only [h, openWindow, hnone]
        exact ⟨.reclaimed hget hkey hover, trivial, hle⟩
    · simp only [if_neg hfull, openWindow, hget]
      exact ⟨.opened hget (Nat.not_le.mp hfull), trivial, Nat.le_add_right _ _⟩

structure Sound (maxKeys : ℕ) (store : MemoryStore T) (log : Log T) (hit : Hit T)
    (answer : RateLimitResult T) (store' : MemoryStore T) : Prop where
  counts : Counts log hit answer
  live : ∀ key window, store.windows.get key = some window → hit.now < window.resetAt →
    ∃ window', store'.windows.get key = some window' ∧ window'.resetAt = window.resetAt ∧
      window'.count = window.count + if key = hit.key then 1 else 0
  refused : answer.limited = true → store'.windows = store.windows
  size_le : store'.windows.size ≤ maxKeys
  scans_le : store'.evictionScans ≤ store.evictionScans + maxEvictionScan

theorem step_sound (hkept : Kept store.windows log hit.now)
    (hsize : store.windows.size ≤ store.maxKeys) :
    Sound store.maxKeys store log hit (store.step hit).1 (store.step hit).2 ∧
      Kept (store.step hit).2.windows (log ++ [(hit, (store.step hit).1)]) hit.now := by
  obtain ⟨hout, -, hscans⟩ := step_outcome store hit
  obtain ⟨hcounts, hafter⟩ := hout.kept hkept.sweep
  refine ⟨⟨hcounts, ?_, ?_, ?_, hscans⟩, hafter⟩
  · intro key window hget hlive
    exact hout.live ((get_sweepAmortized hlive).mpr hget) hlive
  · intro hlimited
    obtain ⟨hsame, hfull⟩ := hout.full hlimited
    rw [hsame]
    exact sweepAmortized_of_size (hsize.trans hfull)
  · exact hout.size_le ((size_sweepAmortized store hit.now).trans hsize)

def serve (state : MemoryStore T × Log T) (hit : Hit T) : MemoryStore T × Log T :=
  ((state.1.step hit).2, state.2 ++ [(hit, (state.1.step hit).1)])

def run (store : MemoryStore T) (hits : List (Hit T)) : MemoryStore T × Log T :=
  hits.foldl serve (store, [])

theorem run_append (store : MemoryStore T) (hits : List (Hit T)) (hit : Hit T) :
    run store (hits ++ [hit]) = serve (run store hits) hit := by
  rw [run, List.foldl_append]
  rfl

variable [Zero T] {hits : List (Hit T)}

theorem run_kept (maxKeys : ℕ) (sweepIntervalMs : T) (hits : List (Hit T)) (now : T)
    (hclock : (hits.map Hit.now ++ [now]).Pairwise (· ≤ ·)) :
    Kept (run (create maxKeys sweepIntervalMs) hits).1.windows
        (run (create maxKeys sweepIntervalMs) hits).2 now ∧
      (run (create maxKeys sweepIntervalMs) hits).1.windows.size ≤ maxKeys ∧
      (run (create maxKeys sweepIntervalMs) hits).1.maxKeys = maxKeys := by
  induction hits using List.reverseRecOn generalizing now with
  | nil =>
    refine ⟨⟨?_, ?_, ?_⟩, Nat.zero_le _, rfl⟩
    · rintro entry ⟨⟩
    · rintro key window ⟨⟩
    · rintro key - entry ⟨⟩
  | append_singleton hits hit ih =>
    rw [List.map_append, List.map_singleton] at hclock
    obtain ⟨hbefore, -, hle⟩ := List.pairwise_append.mp hclock
    obtain ⟨hkept, hsize, hmax⟩ := ih hit.now hbefore
    obtain ⟨hsound, hafter⟩ := step_sound hkept (hsize.trans hmax.ge)
    rw [run_append]
    refine ⟨hafter.later ?_, ?_, ?_⟩
    · exact hle hit.now (by simp) now (by simp)
    · exact hsound.size_le.trans hmax.le
    · exact (step_outcome _ hit).2.1.trans hmax

/-- Under a clock that does not go back, every hit is counted in the current window of its key, or
refused, and every window that is not over stays. -/
theorem hits_sound (maxKeys : ℕ) (sweepIntervalMs : T) (hits : List (Hit T)) (hit : Hit T)
    (hclock : ((hits ++ [hit]).map Hit.now).Pairwise (· ≤ ·)) :
    Sound maxKeys (run (create maxKeys sweepIntervalMs) hits).1
      (run (create maxKeys sweepIntervalMs) hits).2 hit
      ((run (create maxKeys sweepIntervalMs) hits).1.step hit).1
      ((run (create maxKeys sweepIntervalMs) hits).1.step hit).2 := by
  rw [List.map_append, List.map_singleton] at hclock
  obtain ⟨hkept, hsize, hmax⟩ := run_kept maxKeys sweepIntervalMs hits hit.now hclock
  have hsound := step_sound hkept (hsize.trans hmax.ge)
  rw [hmax] at hsound
  exact hsound.1

def twoClients : List (Hit ℤ) := [⟨js "a", 10, 0⟩, ⟨js "b", 10, 4⟩]

theorem hits_sound_twoClients :
    ((run (create 1 (30000 : ℤ)) twoClients).1.step ⟨js "a", 10, 9⟩).1 = ⟨2, 10, false⟩ ∧
      Sound 1 (run (create 1 (30000 : ℤ)) twoClients).1 (run (create 1 (30000 : ℤ)) twoClients).2
        ⟨js "a", 10, 9⟩ ((run (create 1 (30000 : ℤ)) twoClients).1.step ⟨js "a", 10, 9⟩).1
        ((run (create 1 (30000 : ℤ)) twoClients).1.step ⟨js "a", 10, 9⟩).2 :=
  ⟨by decide, hits_sound 1 30000 twoClients ⟨js "a", 10, 9⟩ (by decide)⟩

end Nifra.RateLimit
