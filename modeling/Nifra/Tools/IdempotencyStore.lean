import Mathlib.Data.Int.Init
import Mathlib.Data.Nat.Cast.Defs
import Nifra.Idempotency.MemoryStore

/-! # The in-process store of tool keys

One entry for each reserved key. An entry past its `expiresAt` is treated as absent. Each
operation is handed the readings of the clock it makes, in order, and `begin` the identifier it
draws.
-/

namespace Nifra.Tools

open Idempotency (EntryKey storageKey storageKey_injective)

inductive BeginResult
  | new (reservation : JSString)
  | duplicate
  | inFlight
  | capacity
  deriving DecidableEq, Repr

structure ToolEntry (T : Type*) where
  reservation : JSString
  expiresAt : T
  completed : Bool
  deriving DecidableEq, Repr

structure ToolStoreOptions where
  maxEntries : Option ℤ
  ttlMs : Option ℤ

structure ToolStore (T : Type*) where
  entries : InsertionMap JSString (ToolEntry T)
  maxEntries : ℕ
  ttlMs : ℕ

def validIdempotencyKey (key : JSString) : Bool :=
  decide (key.length ≠ 0 ∧ key.length ≤ 255) && key.all fun c => decide (33 ≤ c ∧ c ≤ 126)

def validIdempotencyNamespace (ns : JSString) : Bool := validIdempotencyKey ns

def validated {α : Type*} (input : EntryKey) (result : α) : Except JSError α :=
  if ¬ validIdempotencyNamespace input.ns ∨ ¬ validIdempotencyKey input.key then
    .error (.typeError "tool idempotency: namespace/key is invalid")
  else .ok result

variable {T : Type*}

namespace ToolStore

def create (options : ToolStoreOptions) : Except JSError (ToolStore T) :=
  let maxEntries := options.maxEntries.getD 10000
  let ttlMs := options.ttlMs.getD 86400000
  if ¬ isSafeInteger maxEntries.natAbs ∨ maxEntries < 1 then
    .error (.rangeError "tool idempotency: maxEntries must be a positive safe integer")
  else if ¬ isSafeInteger ttlMs.natAbs ∨ ttlMs < 1 then
    .error (.rangeError "tool idempotency: ttlMs must be a positive safe integer")
  else .ok ⟨∅, maxEntries.toNat, ttlMs.toNat⟩

def abandon (s : ToolStore T) (input : EntryKey) (reservation : JSString) :
    Except JSError (ToolStore T × Bool) :=
  let key := storageKey input
  validated input <| match s.entries.get key with
  | none => (s, false)
  | some entry =>
    if entry.reservation ≠ reservation ∨ entry.completed then (s, false)
    else ({ s with entries := s.entries.delete key }, true)

variable [LinearOrder T]

def sweep (s : ToolStore T) (now : T) : ToolStore T :=
  { s with
    entries := s.entries.entries.foldl
      (fun entries e => if e.2.expiresAt ≤ now then entries.delete e.1 else entries) s.entries }

variable [Add T] [NatCast T]

/-- The part of `begin` that takes a key without a live entry. -/
def reserve (s : ToolStore T) (key : JSString) (pendingTtlMs : Option ℕ) (uuid : JSString)
    (now sweeping : T) : ToolStore T × BeginResult :=
  let s := { s with entries := s.entries.delete key }.sweep sweeping
  if s.maxEntries ≤ s.entries.size then (s, .capacity)
  else
    let expiresAt := now + ((pendingTtlMs.getD s.ttlMs : ℕ) : T)
    ({ s with entries := s.entries.set key ⟨uuid, expiresAt, false⟩ }, .new uuid)

/-- `begin`, whose clock readings are for the entry and for the sweep. -/
def begin (s : ToolStore T) (input : EntryKey) (pendingTtlMs : Option ℕ) (uuid : JSString)
    (t₁ t₂ : T) : Except JSError (ToolStore T × BeginResult) :=
  let key := storageKey input
  validated input <| match s.entries.get key with
  | some existing =>
    if t₁ < existing.expiresAt then
      (s, if existing.completed then .duplicate else .inFlight)
    else (s.reserve key pendingTtlMs uuid t₁ t₂)
  | none => (s.reserve key pendingTtlMs uuid t₁ t₂)

def complete (s : ToolStore T) (input : EntryKey) (reservation : JSString) (t₁ t₂ : T) :
    Except JSError (ToolStore T × Bool) :=
  let key := storageKey input
  validated input <| match s.entries.get key with
  | none => (s, false)
  | some entry =>
    if entry.reservation ≠ reservation ∨ entry.expiresAt ≤ t₁ then (s, false)
    else
      let entry := ⟨entry.reservation, t₂ + (s.ttlMs : T), true⟩
      ({ s with entries := s.entries.set key entry }, true)

def renew (s : ToolStore T) (input : EntryKey) (reservation : JSString) (ttlMs : ℕ) (t₁ t₂ : T) :
    Except JSError (ToolStore T × Bool) :=
  let key := storageKey input
  validated input <| match s.entries.get key with
  | none => (s, false)
  | some entry =>
    if entry.reservation ≠ reservation ∨ entry.completed ∨ entry.expiresAt ≤ t₁ then
      (s, false)
    else
      let entry := { entry with expiresAt := t₂ + (ttlMs : T) }
      ({ s with entries := s.entries.set key entry }, true)

end ToolStore

theorem of_validated {α : Type*} {input : EntryKey} {a b : α} (h : validated input a = .ok b) :
    a = b := by
  unfold validated at h
  split_ifs at h
  exact Except.ok.inj h

namespace ToolStore
variable {s s' : ToolStore T} {input : EntryKey} {key reservation uuid : JSString}
  {e e' : ToolEntry T} {t₁ t₂ now : T} {accepted : Bool}

theorem abandon_old (h : s.abandon input reservation = .ok (s', accepted))
    (he : s'.entries.get key = some e) : s.entries.get key = some e := by
  have h := of_validated h
  split at h
  · rwa [(Prod.mk.inj h).1]
  · split_ifs at h
    · rwa [(Prod.mk.inj h).1]
    · rw [← (Prod.mk.inj h).1, InsertionMap.get_delete] at he
      split_ifs at he
      exact he

theorem abandon_keeps (h : s.abandon input reservation = .ok (s', accepted))
    (he : s.entries.get key = some e) (hne : e.reservation ≠ reservation) :
    s'.entries.get key = some e := by
  have h := of_validated h
  split at h
  · rwa [← (Prod.mk.inj h).1]
  · rename_i entry hentry
    split_ifs at h with hown
    · rwa [← (Prod.mk.inj h).1]
    · rw [← (Prod.mk.inj h).1, InsertionMap.get_delete, if_neg, he]
      rintro rfl
      rw [he, Option.some.injEq] at hentry
      exact hown (Or.inl (hentry ▸ hne))

variable [LinearOrder T]

theorem get_of_get_sweep (h : (s.sweep now).entries.get key = some e) :
    s.entries.get key = some e := by
  unfold sweep at h
  generalize s.entries.entries = es at h
  simp only at h
  induction es using List.reverseRecOn with
  | nil => exact h
  | append_singleton es x ih =>
    rw [List.foldl_append, List.foldl_cons, List.foldl_nil] at h
    split_ifs at h with hx
    · rw [InsertionMap.get_delete] at h
      split_ifs at h
      exact ih h
    · exact ih h

theorem get_sweep_of_live (h : s.entries.get key = some e) (hlive : now < e.expiresAt) :
    (s.sweep now).entries.get key = some e := by
  have hsame : ∀ x ∈ s.entries.entries, x.1 = key → x.2 = e := by
    rintro ⟨k, v⟩ hx rfl
    rw [InsertionMap.get_eq_some_iff.mpr hx] at h
    exact Option.some.inj h
  unfold sweep
  generalize s.entries.entries = es at hsame
  simp only
  induction es using List.reverseRecOn with
  | nil => exact h
  | append_singleton es x ih =>
    have ih := ih fun y hy => hsame y (List.mem_append_left _ hy)
    rw [List.foldl_append, List.foldl_cons, List.foldl_nil]
    split_ifs with hx
    · rw [InsertionMap.get_delete, if_neg]
      · exact ih
      · rintro rfl
        rw [hsame x (by simp) rfl] at hx
        exact absurd hlive (not_lt.mpr hx)
    · exact ih

variable [Add T] [NatCast T] {pendingTtlMs : Option ℕ} {result : BeginResult}

theorem reserve_old (h : s.reserve key pendingTtlMs uuid t₁ t₂ = (s', result)) {k : JSString}
    (he : s'.entries.get k = some e) :
    s.entries.get k = some e ∨ k = key ∧ e.reservation = uuid ∧ result = .new uuid := by
  have hswept : ∀ {e : ToolEntry T},
      ({ s with entries := s.entries.delete key }.sweep t₂).entries.get k = some e →
        s.entries.get k = some e := by
    intro e he
    have hget := get_of_get_sweep he
    rw [InsertionMap.get_delete] at hget
    split_ifs at hget
    exact hget
  unfold reserve at h
  simp only at h
  split_ifs at h
  · obtain ⟨rfl, rfl⟩ := Prod.mk.inj h
    exact Or.inl (hswept he)
  · obtain ⟨rfl, rfl⟩ := Prod.mk.inj h
    rw [InsertionMap.get_set] at he
    split_ifs at he with hk
    · exact Or.inr ⟨hk, by rw [← Option.some.inj he], rfl⟩
    · exact Or.inl (hswept he)

theorem reserve_keeps (h : s.reserve key pendingTtlMs uuid t₁ t₂ = (s', result)) {k : JSString}
    (hk : k ≠ key) (he : s.entries.get k = some e) (hlive : t₂ < e.expiresAt) :
    s'.entries.get k = some e := by
  have hswept : ({ s with entries := s.entries.delete key }.sweep t₂).entries.get k = some e :=
    get_sweep_of_live (by rw [InsertionMap.get_delete, if_neg hk, he]) hlive
  unfold reserve at h
  simp only at h
  split_ifs at h
  · rwa [← (Prod.mk.inj h).1]
  · rwa [← (Prod.mk.inj h).1, InsertionMap.get_set, if_neg hk]

theorem reserve_result (h : s.reserve key pendingTtlMs uuid t₁ t₂ = (s', result)) :
    result = .capacity ∨ result = .new uuid := by
  unfold reserve at h
  simp only at h
  split_ifs at h
  · exact Or.inl (Prod.mk.inj h).2.symm
  · exact Or.inr (Prod.mk.inj h).2.symm

theorem begin_cases (h : s.begin input pendingTtlMs uuid t₁ t₂ = .ok (s', result)) :
    (s' = s ∧ ∀ value, result ≠ .new value) ∨
      (∀ e, s.entries.get (storageKey input) = some e → e.expiresAt ≤ t₁) ∧
        s.reserve (storageKey input) pendingTtlMs uuid t₁ t₂ = (s', result) := by
  have h := of_validated h
  cases hget : s.entries.get (storageKey input) with
  | none =>
    rw [hget] at h
    exact Or.inr ⟨nofun, h⟩
  | some existing =>
    simp only [hget] at h
    by_cases hlive : t₁ < existing.expiresAt
    · rw [if_pos hlive] at h
      refine Or.inl ⟨(Prod.mk.inj h).1.symm, fun value hvalue => ?_⟩
      rw [hvalue] at h
      have hresult := (Prod.mk.inj h).2
      split_ifs at hresult
    · rw [if_neg hlive] at h
      refine Or.inr ⟨?_, h⟩
      rintro e ⟨⟩
      exact not_lt.mp hlive

theorem begin_old (h : s.begin input pendingTtlMs uuid t₁ t₂ = .ok (s', result))
    (he : s'.entries.get key = some e) :
    s.entries.get key = some e ∨
      key = storageKey input ∧ e.reservation = uuid ∧ result = .new uuid := by
  rcases begin_cases h with ⟨rfl, -⟩ | ⟨-, h⟩
  · exact Or.inl he
  · exact reserve_old h he

theorem begin_keeps (h : s.begin input pendingTtlMs uuid t₁ t₂ = .ok (s', result)) (htt : t₁ ≤ t₂)
    (he : s.entries.get key = some e) (hlive : t₂ < e.expiresAt) :
    s'.entries.get key = some e := by
  rcases begin_cases h with ⟨rfl, -⟩ | ⟨hexpired, h⟩
  · exact he
  · refine reserve_keeps h ?_ he hlive
    rintro rfl
    exact absurd (htt.trans_lt hlive) (not_lt.mpr (hexpired e he))

theorem begin_new {value : JSString}
    (h : s.begin input pendingTtlMs uuid t₁ t₂ = .ok (s', .new value)) :
    value = uuid ∧ ∀ e, s.entries.get (storageKey input) = some e → e.expiresAt ≤ t₁ := by
  rcases begin_cases h with ⟨-, hold⟩ | ⟨hexpired, h⟩
  · exact absurd rfl (hold value)
  · refine ⟨?_, hexpired⟩
    rcases reserve_result h with hr | hr
    · cases hr
    · exact BeginResult.new.inj hr

structure Extends (s s' : ToolStore T) (now : T) : Prop where
  old : ∀ {key e'}, s'.entries.get key = some e' → ∃ e, s.entries.get key = some e ∧
    e.reservation = e'.reservation ∧ (e' = e ∨ now < e.expiresAt)
  keeps : ∀ {key e}, s.entries.get key = some e →
    ∃ e', s'.entries.get key = some e' ∧ e'.reservation = e.reservation

omit [Add T] [NatCast T] in
theorem Extends.refl : Extends s s now :=
  ⟨fun h => ⟨_, h, rfl, Or.inl rfl⟩, fun h => ⟨_, h, rfl⟩⟩

omit [Add T] [NatCast T] in
theorem Extends.set (he : s.entries.get key = some e) (hres : e'.reservation = e.reservation)
    (hlive : now < e.expiresAt) : Extends s { s with entries := s.entries.set key e' } now := by
  constructor
  · intro k x hx
    rw [InsertionMap.get_set] at hx
    split_ifs at hx with hk
    · obtain rfl := Option.some.inj hx
      exact ⟨e, hk ▸ he, hres.symm, Or.inr hlive⟩
    · exact ⟨x, hx, rfl, Or.inl rfl⟩
  · intro k x hx
    rw [InsertionMap.get_set]
    split_ifs with hk
    · rw [hk, he, Option.some.injEq] at hx
      exact ⟨e', rfl, hx ▸ hres⟩
    · exact ⟨x, hx, rfl⟩

theorem complete_extends (h : s.complete input reservation t₁ t₂ = .ok (s', accepted)) :
    Extends s s' t₁ := by
  have h := of_validated h
  split at h
  · exact (Prod.mk.inj h).1 ▸ .refl
  · rename_i entry hentry
    split_ifs at h with hrefused
    · exact (Prod.mk.inj h).1 ▸ .refl
    · rw [not_or, not_le] at hrefused
      exact (Prod.mk.inj h).1 ▸ .set hentry rfl hrefused.2

theorem renew_extends {ttlMs : ℕ}
    (h : s.renew input reservation ttlMs t₁ t₂ = .ok (s', accepted)) : Extends s s' t₁ := by
  have h := of_validated h
  split at h
  · exact (Prod.mk.inj h).1 ▸ .refl
  · rename_i entry hentry
    split_ifs at h with hrefused
    · exact (Prod.mk.inj h).1 ▸ .refl
    · rw [not_or, not_or, not_le] at hrefused
      exact (Prod.mk.inj h).1 ▸ .set hentry rfl hrefused.2.2

end ToolStore

end Nifra.Tools
