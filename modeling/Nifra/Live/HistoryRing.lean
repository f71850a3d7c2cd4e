import Mathlib.Data.Int.ModEq
import Mathlib.Data.Int.Notation
import Nifra.Lib.InsertionMap
import Nifra.Lib.Runs

/-! # History

Which keys changed since a watermark: the newest seq by key hash, over a ring of entries. Whatever
the ring gave up is below the floor, where every watermark reads as changed.
-/

namespace Nifra.Live

/-- `entries` is the ring, oldest first; every event with a seq above `floor` is recorded. -/
structure History where
  entries : List (ℕ × ℕ)
  latest : InsertionMap ℕ ℕ
  floor : ℕ
  last : ℕ
  capacity : ℕ
  maxAgeMs : ℤ

namespace History

def create (head capacity : ℕ) (maxAgeMs : ℤ) : History := ⟨[], ∅, head, head, capacity, maxAgeMs⟩

variable (h : History)

def evict : History :=
  match h.entries with
  | [] => h
  | (seq, hash) :: rest =>
    { h with
      entries := rest,
      latest := if h.latest.get hash = some seq then h.latest.delete hash else h.latest,
      floor := if h.floor < seq then seq else h.floor }

def recordHash (seq hash : ℕ) : History :=
  let h := if h.entries.length = h.capacity then h.evict else h
  { h with entries := h.entries ++ [(seq, hash)], latest := h.latest.set hash seq }

/-- Seqs count microseconds, so the age of an entry is read off its seq. -/
def prune (nowMs : ℤ) : History :=
  let oldest := (nowMs - h.maxAgeMs) * 1000
  (h.entries.takeWhile fun entry => entry.1 < oldest).foldl (fun h _ => h.evict) h

def record (seq : ℕ) (hashes : List ℕ) (nowMs : ℤ) : History :=
  prune { hashes.foldl (fun h hash => h.recordHash seq hash) h with last := seq } nowMs

def advance (seq : ℕ) (nowMs : ℤ) : History := prune { h with last := seq } nowMs

def known (watermark : ℕ) : Bool := decide (h.floor ≤ watermark ∧ watermark ≤ h.last)

def changedSince (hash watermark : ℕ) : Bool :=
  !h.known watermark || (h.latest.get hash).any fun seq => watermark < seq

/-- What happened up to `head` is unknown. -/
def reset (head : ℕ) : History :=
  { h with
    entries := [],
    latest := ∅,
    floor := head,
    last := head }

/-- A change is below the floor, or the newest seq of its hash is no older. -/
structure Complete (past : List (ℕ × ℕ)) (h : History) : Prop where
  recorded : ∀ change ∈ past, change.1 ≤ h.floor ∨
    ∃ seq, h.latest.get change.2 = some seq ∧ change.1 ≤ seq

variable {h : History} {past : List (ℕ × ℕ)} {seq : ℕ} {now : ℤ}

theorem Complete.create {head capacity : ℕ} {maxAgeMs : ℤ} :
    Complete [] (create head capacity maxAgeMs) := ⟨nofun⟩

theorem Complete.evict (hc : h.Complete past) : h.evict.Complete past := by
  unfold History.evict
  cases hentries : h.entries with
  | nil => exact hc
  | cons oldest rest =>
    obtain ⟨seq, hash⟩ := oldest
    constructor
    intro change hchange
    rcases hc.recorded change hchange with hfloor | ⟨newest, hnewest, hle⟩
    · left
      simp only
      split_ifs <;> omega
    · by_cases hdeleted : h.latest.get hash = some seq ∧ change.2 = hash
      · -- the newest seq of the hash goes, and the floor is raised to it
        obtain ⟨hget, hhash⟩ := hdeleted
        rw [hhash, hget] at hnewest
        obtain rfl := Option.some.inj hnewest
        left
        simp only
        split_ifs <;> omega
      · refine Or.inr ⟨newest, ?_, hle⟩
        simp only
        split_ifs with hget
        · rw [InsertionMap.get_delete, if_neg fun hhash => hdeleted ⟨hget, hhash⟩]
          exact hnewest
        · exact hnewest

theorem Complete.recordHash (hc : h.Complete past) (hseq : ∀ change ∈ past, change.1 ≤ seq)
    (hash : ℕ) : (h.recordHash seq hash).Complete (past ++ [(seq, hash)]) := by
  have hroom : (if h.entries.length = h.capacity then h.evict else h).Complete past := by
    split_ifs
    · exact hc.evict
    · exact hc
  constructor
  intro change hchange
  by_cases hhash : change.2 = hash
  · refine Or.inr ⟨seq, ?_, ?_⟩
    · rw [hhash]
      exact InsertionMap.get_set_self
    · rcases List.mem_append.mp hchange with hpast | hnew
      · exact hseq change hpast
      · rw [List.mem_singleton.mp hnew]
  · have hpast : change ∈ past := by
      rcases List.mem_append.mp hchange with hpast | hnew
      · exact hpast
      · exact absurd (by rw [List.mem_singleton.mp hnew]) hhash
    refine (hroom.recorded change hpast).imp_right ?_
    rintro ⟨newest, hnewest, hle⟩
    exact ⟨newest, by rw [History.recordHash, InsertionMap.get_set_of_ne hhash, hnewest], hle⟩

theorem prune_induction {P : History → Prop} (hevict : ∀ h, P h → P h.evict) (hP : P h) :
    P (h.prune now) := by
  have hfold (stale : List (ℕ × ℕ)) : P (stale.foldl (fun h _ => h.evict) h) := by
    induction stale generalizing h with
    | nil => exact hP
    | cons entry stale ih => exact ih (hevict h hP)
  exact hfold _

theorem Complete.prune (hc : h.Complete past) : (h.prune now).Complete past :=
  prune_induction (fun _ hc => hc.evict) hc

theorem Complete.record (hc : h.Complete past) (hseq : ∀ change ∈ past, change.1 ≤ seq)
    (hashes : List ℕ) :
    (h.record seq hashes now).Complete (past ++ hashes.map fun hash => (seq, hash)) := by
  have hfold : (hashes.foldl (fun h hash => h.recordHash seq hash) h).Complete
      (past ++ hashes.map fun hash => (seq, hash)) := by
    induction hashes generalizing h past with
    | nil => simpa using hc
    | cons hash hashes ih =>
      have hstep := ih (hc.recordHash hseq hash) fun change hchange => by
        rcases List.mem_append.mp hchange with hpast | hnew
        · exact hseq change hpast
        · rw [List.mem_singleton.mp hnew]
      simpa using hstep
  exact Complete.prune ⟨hfold.recorded⟩

theorem Complete.advance (hc : h.Complete past) : (h.advance seq now).Complete past :=
  Complete.prune ⟨hc.recorded⟩

theorem Complete.reset {head : ℕ} (hseq : ∀ change ∈ past, change.1 ≤ head) :
    (h.reset head).Complete past := ⟨fun change hchange => Or.inl (hseq change hchange)⟩

theorem Complete.changedSince (hc : h.Complete past) {hash watermark : ℕ}
    (hmem : (seq, hash) ∈ past) (hlt : watermark < seq) : h.changedSince hash watermark := by
  unfold History.changedSince
  cases hknown : h.known watermark with
  | false => rfl
  | true =>
    rcases hc.recorded _ hmem with hfloor | ⟨newest, hnewest, hle⟩
    · simp only [known, decide_eq_true_eq] at hknown
      simp only at hfloor
      omega
    · simp only at hnewest hle
      rw [hnewest, Option.any_some, decide_eq_true (hlt.trans_le hle), Bool.or_true]

theorem prune_last : (h.prune now).last = h.last := by
  refine prune_induction (P := fun h' => h'.last = h.last) (fun h' hlast => ?_) rfl
  unfold History.evict
  split
  · exact hlast
  · exact hlast

@[simp] theorem record_last {hashes : List ℕ} : (h.record seq hashes now).last = seq := prune_last

@[simp] theorem advance_last : (h.advance seq now).last = seq := prune_last

theorem known_eq_false_of_lt {watermark : ℕ} (hlt : watermark < h.floor) :
    h.known watermark = false := by
  rw [known, decide_eq_false_iff_not]
  omega

end History

/-! ## The ring of a history

Two arrays of fixed length hold the entries from `start` on, around the end. What the ring does is
what the list of its entries does, and a history answers exactly what was recorded since it began.
-/

/-- What a ring holds from `start` on. -/
def ringItems (slots : List ℕ) (start size : ℕ) : List ℕ :=
  (List.range size).map fun i => slots.getD ((start + i) % slots.length) 0

section

variable {slots : List ℕ} {start size : ℕ}

theorem length_ringItems : (ringItems slots start size).length = size := by simp [ringItems]

theorem ringItems_pop (hstart : start < slots.length) :
    ringItems slots start (size + 1) =
      slots.getD start 0 :: ringItems slots ((start + 1) % slots.length) size := by
  simp only [ringItems, List.range_succ_eq_map, List.map_cons, List.map_map, Nat.add_zero,
    Nat.mod_eq_of_lt hstart, List.cons.injEq, true_and]
  refine List.map_congr_left fun i _ => ?_
  rw [Function.comp_apply, Nat.mod_add_mod, Nat.add_right_comm, Nat.add_assoc]

theorem place_ne {i : ℕ} (hi : i < size) (hsize : size < slots.length) :
    (start + size) % slots.length ≠ (start + i) % slots.length := by
  intro h
  have hmod : size ≡ i [MOD slots.length] := Nat.ModEq.add_left_cancel' start h
  have := hmod.eq_of_lt_of_lt hsize (hi.trans hsize)
  omega

theorem ringItems_push (hsize : size < slots.length) (x : ℕ) :
    ringItems (slots.set ((start + size) % slots.length) x) start (size + 1) =
      ringItems slots start size ++ [x] := by
  have hplace : (start + size) % slots.length < slots.length := Nat.mod_lt _ (by omega)
  simp only [ringItems, List.range_succ, List.map_append, List.map_cons, List.map_nil,
    List.length_set]
  congr 1
  · refine List.map_congr_left fun i hi => ?_
    rw [List.getD_eq_getElem?_getD, List.getD_eq_getElem?_getD,
      List.getElem?_set_ne (place_ne (List.mem_range.mp hi) hsize)]
  · rw [List.getD_eq_getElem?_getD, List.getElem?_set_self hplace, Option.getD_some]

end

structure HistoryRing where
  seqs : List ℕ
  hashes : List ℕ
  latest : InsertionMap ℕ ℕ
  start : ℕ
  size : ℕ
  floor : ℕ
  last : ℕ
  capacity : ℕ
  maxAgeMs : ℤ

namespace HistoryRing

def create (head capacity : ℕ) (maxAgeMs : ℤ) : HistoryRing :=
  ⟨List.replicate capacity 0, List.replicate capacity 0, ∅, 0, 0, head, head, capacity, maxAgeMs⟩

variable (r : HistoryRing)

def evict : HistoryRing :=
  let seq := r.seqs.getD r.start 0
  let hash := r.hashes.getD r.start 0
  { r with
    latest := if r.latest.get hash = some seq then r.latest.delete hash else r.latest,
    floor := if r.floor < seq then seq else r.floor,
    start := (r.start + 1) % r.capacity,
    size := r.size - 1 }

def recordHash (seq hash : ℕ) : HistoryRing :=
  let r := if r.size = r.capacity then r.evict else r
  let place := (r.start + r.size) % r.capacity
  { r with
    seqs := r.seqs.set place seq,
    hashes := r.hashes.set place hash,
    size := r.size + 1,
    latest := r.latest.set hash seq }

def pruneTurns (oldest : ℤ) : ℕ → HistoryRing → HistoryRing
  | 0, r => r
  | n + 1, r =>
    if 0 < r.size ∧ (r.seqs.getD r.start 0 : ℤ) < oldest then pruneTurns oldest n r.evict else r

def prune (nowMs : ℤ) : HistoryRing := pruneTurns ((nowMs - r.maxAgeMs) * 1000) r.size r

def record (seq : ℕ) (hashes : List ℕ) (nowMs : ℤ) : HistoryRing :=
  prune { hashes.foldl (fun r hash => r.recordHash seq hash) r with last := seq } nowMs

def advance (seq : ℕ) (nowMs : ℤ) : HistoryRing := prune { r with last := seq } nowMs

def known (watermark : ℕ) : Bool := decide (r.floor ≤ watermark ∧ watermark ≤ r.last)

def changedSince (hash watermark : ℕ) : Bool :=
  if !r.known watermark then true
  else
    match r.latest.get hash with
    | none => false
    | some seq => decide (watermark < seq)

def reset (head : ℕ) : HistoryRing :=
  { r with
    latest := ∅,
    start := 0,
    size := 0,
    floor := head,
    last := head }

structure WellFormed (r : HistoryRing) : Prop where
  capacity_pos : 0 < r.capacity
  length_seqs : r.seqs.length = r.capacity
  length_hashes : r.hashes.length = r.capacity
  start_lt : r.start < r.capacity
  size_le : r.size ≤ r.capacity

def entries : List (ℕ × ℕ) :=
  (ringItems r.seqs r.start r.size).zip (ringItems r.hashes r.start r.size)

def toHistory : History := ⟨r.entries, r.latest, r.floor, r.last, r.capacity, r.maxAgeMs⟩

variable {r : HistoryRing} {seq hash : ℕ} {now : ℤ}

@[simp] theorem length_entries : r.entries.length = r.size := by
  simp [entries, length_ringItems]

theorem WellFormed.create {head capacity : ℕ} (h : 0 < capacity) (maxAgeMs : ℤ) :
    (create head capacity maxAgeMs).WellFormed :=
  ⟨h, List.length_replicate, List.length_replicate, h, Nat.zero_le _⟩

theorem WellFormed.evict (h : r.WellFormed) : r.evict.WellFormed where
  capacity_pos := h.capacity_pos
  length_seqs := h.length_seqs
  length_hashes := h.length_hashes
  start_lt := Nat.mod_lt _ h.capacity_pos
  size_le := (Nat.sub_le _ _).trans h.size_le

theorem WellFormed.entries_eq_cons (h : r.WellFormed) (hsize : 0 < r.size) :
    r.entries = (r.seqs.getD r.start 0, r.hashes.getD r.start 0) :: r.evict.entries := by
  obtain ⟨n, hn⟩ := Nat.exists_eq_succ_of_ne_zero hsize.ne'
  have hseqs := h.length_seqs
  have hhashes := h.length_hashes
  have hstart := h.start_lt
  have hevict : r.evict.entries = (ringItems r.seqs ((r.start + 1) % r.capacity) n).zip
      (ringItems r.hashes ((r.start + 1) % r.capacity) n) := by
    simp [HistoryRing.evict, entries, hn]
  rw [hevict, entries, hn, ringItems_pop (by omega), ringItems_pop (by omega), hseqs, hhashes,
    List.zip_cons_cons]

theorem WellFormed.toHistory_evict (h : r.WellFormed) (hsize : 0 < r.size) :
    r.evict.toHistory = r.toHistory.evict := by
  unfold History.evict
  have hentries : r.toHistory.entries = _ := h.entries_eq_cons hsize
  rw [hentries]
  rfl

theorem WellFormed.recordHash (h : r.WellFormed) : (r.recordHash seq hash).WellFormed := by
  unfold HistoryRing.recordHash
  split_ifs with hfull
  · have hevict := h.evict
    have hsize : r.evict.size < r.evict.capacity := by
      have := h.capacity_pos
      simp only [HistoryRing.evict]
      omega
    exact ⟨hevict.capacity_pos, by simpa using hevict.length_seqs,
      by simpa using hevict.length_hashes, hevict.start_lt, hsize⟩
  · have hsize := h.size_le
    exact ⟨h.capacity_pos, by simpa using h.length_seqs, by simpa using h.length_hashes,
      h.start_lt, by simp only; omega⟩

theorem WellFormed.toHistory_recordHash (h : r.WellFormed) :
    (r.recordHash seq hash).toHistory = r.toHistory.recordHash seq hash := by
  -- one more entry, once there is room
  have hpush {r : HistoryRing} (h : r.WellFormed) (hroom : r.size < r.capacity) :
      (⟨r.seqs.set ((r.start + r.size) % r.capacity) seq,
          r.hashes.set ((r.start + r.size) % r.capacity) hash, r.latest, r.start, r.size + 1,
          r.floor, r.last, r.capacity, r.maxAgeMs⟩ : HistoryRing).entries = r.entries ++ [(seq, hash)] := by
    have hseqs := h.length_seqs
    have hhashes := h.length_hashes
    simp only [entries]
    conv_lhs => rw [← hseqs, ringItems_push (by omega), hseqs, ← hhashes, ringItems_push (by omega)]
    rw [List.zip_append (by simp [length_ringItems]), List.zip_cons_cons, List.zip_nil_right]
  have hlength : r.toHistory.entries.length = r.size := length_entries
  have hcapacity : r.toHistory.capacity = r.capacity := rfl
  unfold HistoryRing.recordHash History.recordHash
  rw [hlength, hcapacity]
  split_ifs with hfull
  · have hpos := h.capacity_pos
    rw [← h.toHistory_evict (by omega)]
    simp only [toHistory, History.mk.injEq, and_true]
    exact hpush h.evict (by simp only [HistoryRing.evict]; omega)
  · simp only [toHistory, History.mk.injEq, and_true]
    have hsize := h.size_le
    exact hpush h (by omega)

theorem wellFormed_and_toHistory_pruneTurns (oldest : ℤ) {n : ℕ} (h : r.WellFormed)
    (hn : r.size = n) : (pruneTurns oldest n r).WellFormed ∧
      (pruneTurns oldest n r).toHistory =
        (r.toHistory.entries.takeWhile fun entry => entry.1 < oldest).foldl
          (fun h _ => h.evict) r.toHistory := by
  induction n generalizing r with
  | zero =>
    have hentries : r.entries = [] := List.eq_nil_of_length_eq_zero (by rw [length_entries, hn])
    refine ⟨h, ?_⟩
    have hnil : r.toHistory.entries = [] := hentries
    rw [hnil]
    rfl
  | succ n ih =>
    have hcons : r.toHistory.entries = _ := h.entries_eq_cons (by omega)
    rw [pruneTurns, hcons]
    split_ifs with hstale
    · obtain ⟨hwf, hhistory⟩ := ih h.evict (by simp only [HistoryRing.evict]; omega)
      rw [List.takeWhile_cons_of_pos (by simpa using hstale.2), List.foldl_cons,
        ← h.toHistory_evict (by omega)]
      exact ⟨hwf, hhistory⟩
    · have hfresh : ¬ (r.seqs.getD r.start 0 : ℤ) < oldest := fun hlt => hstale ⟨by omega, hlt⟩
      rw [List.takeWhile_cons_of_neg (by simpa using hfresh)]
      exact ⟨h, rfl⟩

theorem WellFormed.prune (h : r.WellFormed) : (r.prune now).WellFormed :=
  (wellFormed_and_toHistory_pruneTurns _ h rfl).1

theorem WellFormed.toHistory_prune (h : r.WellFormed) :
    (r.prune now).toHistory = r.toHistory.prune now :=
  (wellFormed_and_toHistory_pruneTurns _ h rfl).2

theorem WellFormed.recordHashes (h : r.WellFormed) (seq : ℕ) (hashes : List ℕ) :
    (hashes.foldl (fun r hash => r.recordHash seq hash) r).WellFormed ∧
      (hashes.foldl (fun r hash => r.recordHash seq hash) r).toHistory =
        hashes.foldl (fun h hash => h.recordHash seq hash) r.toHistory := by
  induction hashes generalizing r with
  | nil => exact ⟨h, rfl⟩
  | cons hash hashes ih =>
    rw [List.foldl_cons, List.foldl_cons, ← h.toHistory_recordHash]
    exact ih h.recordHash

theorem WellFormed.record (h : r.WellFormed) {hashes : List ℕ} :
    (r.record seq hashes now).WellFormed := by
  have hfold := (h.recordHashes seq hashes).1
  exact WellFormed.prune ⟨hfold.1, hfold.2, hfold.3, hfold.4, hfold.5⟩

theorem WellFormed.toHistory_record (h : r.WellFormed) {hashes : List ℕ} :
    (r.record seq hashes now).toHistory = r.toHistory.record seq hashes now := by
  obtain ⟨hfold, hhistory⟩ := h.recordHashes seq hashes
  rw [History.record, ← hhistory]
  exact WellFormed.toHistory_prune ⟨hfold.1, hfold.2, hfold.3, hfold.4, hfold.5⟩

theorem WellFormed.advance (h : r.WellFormed) : (r.advance seq now).WellFormed :=
  WellFormed.prune ⟨h.1, h.2, h.3, h.4, h.5⟩

theorem WellFormed.toHistory_advance (h : r.WellFormed) :
    (r.advance seq now).toHistory = r.toHistory.advance seq now :=
  WellFormed.toHistory_prune ⟨h.1, h.2, h.3, h.4, h.5⟩

theorem WellFormed.reset (h : r.WellFormed) (head : ℕ) : (r.reset head).WellFormed :=
  ⟨h.1, h.2, h.3, h.capacity_pos, Nat.zero_le _⟩

theorem changedSince_toHistory (r : HistoryRing) (hash watermark : ℕ) :
    r.changedSince hash watermark = r.toHistory.changedSince hash watermark := by
  have hknown : r.toHistory.known watermark = r.known watermark := rfl
  have hlatest : r.toHistory.latest = r.latest := rfl
  unfold HistoryRing.changedSince History.changedSince
  rw [hknown, hlatest]
  cases r.known watermark with
  | false => rfl
  | true => cases r.latest.get hash <;> rfl

end HistoryRing

namespace History

/-- The changes since the last reset: none is missed, and only they are known. -/
structure Exact (past : List (ℕ × ℕ)) (bound : ℕ) (h : History) : Prop where
  complete : h.Complete past
  latest_mem : ∀ hash seq, h.latest.get hash = some seq → (seq, hash) ∈ past
  entries_mem : ∀ entry ∈ h.entries, entry ∈ past
  past_le : ∀ change ∈ past, change.1 ≤ bound
  floor_le : h.floor ≤ bound

variable {h : History} {past : List (ℕ × ℕ)} {bound seq : ℕ} {now : ℤ}

theorem Exact.create (head capacity : ℕ) (maxAgeMs : ℤ) :
    (create head capacity maxAgeMs).Exact [] head where
  complete := .create
  latest_mem := fun hash seq hget => by cases hget
  entries_mem := nofun
  past_le := nofun
  floor_le := le_rfl

theorem Exact.evict (hx : h.Exact past bound) : h.evict.Exact past bound := by
  have hcomplete := hx.complete.evict
  unfold History.evict at hcomplete ⊢
  cases hentries : h.entries with
  | nil => exact hx
  | cons oldest rest =>
    obtain ⟨seq, hash⟩ := oldest
    rw [hentries] at hcomplete
    have hmem := hx.entries_mem
    rw [hentries] at hmem
    refine ⟨hcomplete, ?_, fun entry hentry => hmem entry (List.mem_cons_of_mem _ hentry),
      hx.past_le, ?_⟩
    · intro other newest hget
      simp only at hget
      split_ifs at hget
      · rw [InsertionMap.get_delete] at hget
        split_ifs at hget
        exact hx.latest_mem other newest hget
      · exact hx.latest_mem other newest hget
    · have hoid := hx.past_le _ (hmem _ List.mem_cons_self)
      have hfloor := hx.floor_le
      simp only
      split_ifs <;> assumption

theorem Exact.recordHash (hx : h.Exact past bound) (hseq : bound ≤ seq) (hash : ℕ) :
    (h.recordHash seq hash).Exact (past ++ [(seq, hash)]) seq := by
  have hroom : (if h.entries.length = h.capacity then h.evict else h).Exact past bound := by
    split_ifs
    · exact hx.evict
    · exact hx
  have hpast : ∀ change ∈ past, change.1 ≤ seq :=
    fun change hchange => (hx.past_le change hchange).trans hseq
  refine ⟨hx.complete.recordHash hpast hash, ?_, ?_, ?_, hroom.floor_le.trans hseq⟩
  · intro other newest hget
    rw [History.recordHash, InsertionMap.get_set] at hget
    by_cases hother : other = hash
    · rw [if_pos hother] at hget
      obtain rfl := Option.some.inj hget
      simp [hother]
    · rw [if_neg hother] at hget
      exact List.mem_append_left _ (hroom.latest_mem other newest hget)
  · intro entry hentry
    rcases List.mem_append.mp hentry with hold | hnew
    · exact List.mem_append_left _ (hroom.entries_mem entry hold)
    · exact List.mem_append_right _ hnew
  · intro change hchange
    rcases List.mem_append.mp hchange with hold | hnew
    · exact hpast change hold
    · rw [List.mem_singleton.mp hnew]

theorem Exact.recordHashes (hx : h.Exact past bound) (hseq : bound ≤ seq) (hashes : List ℕ) :
    (hashes.foldl (fun h hash => h.recordHash seq hash) h).Exact
      (past ++ hashes.map fun hash => (seq, hash)) seq := by
  induction hashes generalizing h past bound with
  | nil =>
    simp only [List.map_nil, List.append_nil]
    exact ⟨hx.complete, hx.latest_mem, hx.entries_mem,
      fun change hchange => (hx.past_le change hchange).trans hseq, hx.floor_le.trans hseq⟩
  | cons hash hashes ih => simpa using ih (hx.recordHash hseq hash) le_rfl

theorem Exact.prune (hx : h.Exact past bound) : (h.prune now).Exact past bound :=
  prune_induction (fun _ hx => hx.evict) hx

theorem Exact.record (hx : h.Exact past bound) (hseq : bound ≤ seq) (hashes : List ℕ) :
    (h.record seq hashes now).Exact (past ++ hashes.map fun hash => (seq, hash)) seq := by
  have hfold := hx.recordHashes hseq hashes
  exact Exact.prune ⟨⟨hfold.complete.recorded⟩, hfold.latest_mem, hfold.entries_mem, hfold.past_le,
    hfold.floor_le⟩

theorem Exact.advance (hx : h.Exact past bound) (hseq : bound ≤ seq) :
    (h.advance seq now).Exact past seq :=
  Exact.prune ⟨⟨hx.complete.recorded⟩, hx.latest_mem, hx.entries_mem,
    fun change hchange => (hx.past_le change hchange).trans hseq, hx.floor_le.trans hseq⟩

theorem Exact.reset (h : History) (head : ℕ) : (h.reset head).Exact [] head where
  complete := ⟨nofun⟩
  latest_mem := fun hash seq hget => by cases hget
  entries_mem := nofun
  past_le := nofun
  floor_le := le_rfl

theorem Exact.changedSince_eq_false_iff (hx : h.Exact past bound) {hash watermark : ℕ} :
    h.changedSince hash watermark = false ↔ (h.floor ≤ watermark ∧ watermark ≤ h.last) ∧
      ∀ change ∈ past, watermark < change.1 → change.2 ≠ hash := by
  constructor
  · intro hsame
    have hknown : h.known watermark = true := by
      rw [History.changedSince, Bool.or_eq_false_iff, Bool.not_eq_false'] at hsame
      exact hsame.1
    refine ⟨of_decide_eq_true hknown, fun change hchange hlt heq => ?_⟩
    subst heq
    rw [hx.complete.changedSince hchange hlt] at hsame
    cases hsame
  · rintro ⟨hknown, hnone⟩
    rw [History.changedSince, known, decide_eq_true hknown, Bool.not_true, Bool.false_or]
    cases hget : h.latest.get hash with
    | none => rfl
    | some seq =>
      exact decide_eq_false fun hlt => hnone _ (hx.latest_mem hash seq hget) hlt rfl

theorem floor_le_evict : h.floor ≤ h.evict.floor := by
  unfold History.evict
  split
  · rfl
  · simp only
    split_ifs <;> omega

theorem floor_le_prune : h.floor ≤ (h.prune now).floor :=
  prune_induction (P := fun h' => h.floor ≤ h'.floor) (fun _ hle => hle.trans floor_le_evict) le_rfl

theorem floor_le_record (hashes : List ℕ) : h.floor ≤ (h.record seq hashes now).floor := by
  have hfold (h : History) :
      h.floor ≤ (hashes.foldl (fun h hash => h.recordHash seq hash) h).floor := by
    induction hashes generalizing h with
    | nil => rfl
    | cons hash hashes ih =>
      refine le_trans ?_ (ih (h.recordHash seq hash))
      unfold History.recordHash
      split_ifs
      · exact floor_le_evict
      · rfl
  exact (hfold h).trans
    (floor_le_prune
      (h := { hashes.foldl (fun h hash => h.recordHash seq hash) h with last := seq }))

theorem floor_le_advance : h.floor ≤ (h.advance seq now).floor :=
  floor_le_prune (h := { h with last := seq })

end History

inductive HistoryCall
  | record (seq : ℕ) (hashes : List ℕ) (nowMs : ℤ)
  | advance (seq : ℕ) (nowMs : ℤ)
  | reset (head : ℕ)
  deriving DecidableEq

namespace HistoryRing

/-- Seqs go up: a call for one that is not above the last is none of a run. -/
def call (r : HistoryRing) : HistoryCall → Option HistoryRing
  | .record seq hashes nowMs => if r.last < seq then some (r.record seq hashes nowMs) else none
  | .advance seq nowMs => if r.last < seq then some (r.advance seq nowMs) else none
  | .reset head => some (r.reset head)

end HistoryRing

def HistoryCall.add (past : List (ℕ × List ℕ)) : HistoryCall → List (ℕ × List ℕ)
  | .record seq hashes _ => past ++ [(seq, hashes)]
  | .advance _ _ => past
  | .reset _ => []

def recordedSince (calls : List HistoryCall) : List (ℕ × List ℕ) := calls.foldl HistoryCall.add []

def HistoryCall.isReset : HistoryCall → Bool
  | .reset _ => true
  | _ => false

def changesOf (events : List (ℕ × List ℕ)) : List (ℕ × ℕ) :=
  events.flatMap fun event => event.2.map fun hash => (event.1, hash)

theorem changesOf_append (events : List (ℕ × List ℕ)) (seq : ℕ) (hashes : List ℕ) :
    changesOf (events ++ [(seq, hashes)]) =
      changesOf events ++ hashes.map fun hash => (seq, hash) := by
  simp [changesOf]

theorem mem_changesOf_iff {events : List (ℕ × List ℕ)} {seq hash : ℕ} :
    (seq, hash) ∈ changesOf events ↔ ∃ hashes, (seq, hashes) ∈ events ∧ hash ∈ hashes := by
  simp only [changesOf, List.mem_flatMap, List.mem_map, Prod.mk.injEq]
  constructor
  · rintro ⟨⟨seq', hashes⟩, hevent, hash', hhash, rfl, rfl⟩
    exact ⟨hashes, hevent, hhash⟩
  · rintro ⟨hashes, hevent, hhash⟩
    exact ⟨(seq, hashes), hevent, hash, hhash, rfl, rfl⟩

namespace HistoryRing

theorem capacity_pruneTurns (oldest : ℤ) (n : ℕ) (r : HistoryRing) :
    (pruneTurns oldest n r).capacity = r.capacity := by
  induction n generalizing r with
  | zero => rfl
  | succ n ih =>
    rw [pruneTurns]
    split_ifs
    · exact ih r.evict
    · rfl

theorem capacity_recordHashes (seq : ℕ) (hashes : List ℕ) (r : HistoryRing) :
    (hashes.foldl (fun r hash => r.recordHash seq hash) r).capacity = r.capacity := by
  induction hashes generalizing r with
  | nil => rfl
  | cons hash hashes ih =>
    rw [List.foldl_cons, ih]
    unfold HistoryRing.recordHash
    split_ifs <;> rfl

theorem capacity_call {r r' : HistoryRing} {c : HistoryCall} (h : r.call c = some r') :
    r'.capacity = r.capacity := by
  cases c with
  | record seq hashes nowMs =>
    obtain ⟨-, h⟩ := Option.ite_none_right_eq_some.mp h
    obtain rfl := Option.some.inj h
    exact (capacity_pruneTurns _ _ _).trans (capacity_recordHashes seq hashes r)
  | advance seq nowMs =>
    obtain ⟨-, h⟩ := Option.ite_none_right_eq_some.mp h
    obtain rfl := Option.some.inj h
    exact capacity_pruneTurns _ _ _
  | reset head =>
    obtain rfl := Option.some.inj h
    rfl

structure Sound (events : List (ℕ × List ℕ)) (r : HistoryRing) : Prop where
  wellFormed : r.WellFormed
  exact : r.toHistory.Exact (changesOf events) r.toHistory.last

variable {r r' : HistoryRing} {events : List (ℕ × List ℕ)} {c : HistoryCall}

theorem Sound.call (h : r.Sound events) (hcall : r.call c = some r') : r'.Sound (c.add events) := by
  cases c with
  | record seq hashes nowMs =>
    obtain ⟨hlt, hcall⟩ := Option.ite_none_right_eq_some.mp hcall
    obtain rfl := Option.some.inj hcall
    refine ⟨h.wellFormed.record, ?_⟩
    rw [h.wellFormed.toHistory_record, History.record_last, HistoryCall.add, changesOf_append]
    exact h.exact.record hlt.le hashes
  | advance seq nowMs =>
    obtain ⟨hlt, hcall⟩ := Option.ite_none_right_eq_some.mp hcall
    obtain rfl := Option.some.inj hcall
    refine ⟨h.wellFormed.advance, ?_⟩
    rw [h.wellFormed.toHistory_advance, History.advance_last, HistoryCall.add]
    exact h.exact.advance hlt.le
  | reset head =>
    obtain rfl := Option.some.inj hcall
    exact ⟨h.wellFormed.reset head, History.Exact.reset r.toHistory head⟩

theorem Sound.run {calls : List HistoryCall} (h : r.Sound events)
    (hrun : Runs.run HistoryRing.call r calls = some r') :
    r'.Sound (calls.foldl HistoryCall.add events) := by
  induction calls generalizing r events with
  | nil => exact Option.some.inj hrun ▸ h
  | cons c calls ih =>
    obtain ⟨next, hcall, hrest⟩ := Runs.run_cons_iff.mp hrun
    exact ih (h.call hcall) hrest

theorem floor_le_call (h : r.WellFormed) (hcall : r.call c = some r') (hreset : c.isReset = false) :
    r.floor ≤ r'.floor := by
  cases c with
  | record seq hashes nowMs =>
    obtain ⟨-, hcall⟩ := Option.ite_none_right_eq_some.mp hcall
    obtain rfl := Option.some.inj hcall
    have hfloor : r.toHistory.floor ≤ (r.record seq hashes nowMs).toHistory.floor := by
      rw [h.toHistory_record]
      exact History.floor_le_record hashes
    exact hfloor
  | advance seq nowMs =>
    obtain ⟨-, hcall⟩ := Option.ite_none_right_eq_some.mp hcall
    obtain rfl := Option.some.inj hcall
    have hfloor : r.toHistory.floor ≤ (r.advance seq nowMs).toHistory.floor := by
      rw [h.toHistory_advance]
      exact History.floor_le_advance
    exact hfloor
  | reset head => cases hreset

theorem Sound.floor_le_run {calls : List HistoryCall} (h : r.Sound events)
    (hrun : Runs.run HistoryRing.call r calls = some r') (hreset : ∀ c ∈ calls, c.isReset = false) :
    r.floor ≤ r'.floor := by
  induction calls generalizing r events with
  | nil => exact Option.some.inj hrun ▸ le_rfl
  | cons c calls ih =>
    obtain ⟨next, hcall, hrest⟩ := Runs.run_cons_iff.mp hrun
    rw [List.forall_mem_cons] at hreset
    exact (floor_le_call h.wellFormed hcall hreset.1).trans (ih (h.call hcall) hrest hreset.2)

/-- A key reads as unchanged exactly for a watermark that the history covers, when no event since
the last reset came after it with the key. The floor stays below the last seq and only a reset
lowers it; the ring never holds more than it has room for, within an event either. -/
theorem changedSince_exact {capacity : ℕ} (hcapacity : 1 ≤ capacity) (head : ℕ) (maxAgeMs : ℤ)
    {calls : List HistoryCall}
    (hrun : Runs.run HistoryRing.call (create head capacity maxAgeMs) calls = some r) :
    (∀ hash watermark, r.changedSince hash watermark = false ↔
      (r.floor ≤ watermark ∧ watermark ≤ r.last) ∧
        ∀ event ∈ recordedSince calls, watermark < event.1 → hash ∉ event.2) ∧
    r.floor ≤ r.last ∧ r.size ≤ capacity ∧
    (∀ (seq : ℕ) (hashes : List ℕ),
      (hashes.foldl (fun r hash => r.recordHash seq hash) r).size ≤ capacity) ∧
    ∀ more r', (∀ c ∈ more, c.isReset = false) → Runs.run HistoryRing.call r more = some r' →
      r.floor ≤ r'.floor := by
  have hstart : (create head capacity maxAgeMs).Sound [] :=
    ⟨.create hcapacity maxAgeMs, .create head capacity maxAgeMs⟩
  have hsound : r.Sound (recordedSince calls) := hstart.run hrun
  have hroom : r.capacity = capacity :=
    Runs.run_invariant (I := fun r => r.capacity = capacity)
      (fun _ _ _ h hcall => (capacity_call hcall).trans h) hrun rfl
  refine ⟨fun hash watermark => ?_, hsound.exact.floor_le, hroom ▸ hsound.wellFormed.size_le,
    fun seq hashes => ?_, fun more r' hreset hmore => hsound.floor_le_run hmore hreset⟩
  · rw [changedSince_toHistory, hsound.exact.changedSince_eq_false_iff]
    refine and_congr_right fun _ => ?_
    constructor
    · intro h event hevent hlt hmem
      exact h (event.1, hash) (mem_changesOf_iff.mpr ⟨event.2, hevent, hmem⟩) hlt rfl
    · intro h change hchange hlt heq
      obtain ⟨hashes, hevent, hmem⟩ := mem_changesOf_iff.mp hchange
      exact h _ hevent hlt (heq ▸ hmem)
  · have hfold := (hsound.wellFormed.recordHashes seq hashes).1.size_le
    rwa [capacity_recordHashes, hroom] at hfold

/-- A reset, and an event with more keys than the ring has room for, one of them twice. -/
def wrappedCalls : List HistoryCall :=
  [.record 5 [1] 0, .reset 7, .record 8 [1, 2] 0, .record 9 [3, 3, 1] 0, .advance 10 0]

theorem changedSince_wrapped : ∃ r,
    Runs.run HistoryRing.call (create 4 2 1000) wrappedCalls = some r ∧ r.floor = 9 ∧
      r.changedSince 2 9 = false ∧ r.changedSince 1 8 = true := by
  have hrun : Runs.run HistoryRing.call (create 4 2 1000) wrappedCalls = some _ := rfl
  have hexact := (changedSince_exact (by decide) 4 1000 hrun).1
  exact ⟨_, hrun, by decide, (hexact 2 9).mpr ⟨by decide, by decide⟩, by decide⟩

end HistoryRing

end Nifra.Live
