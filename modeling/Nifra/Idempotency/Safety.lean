import Mathlib.Data.List.Pairwise
import Mathlib.Tactic.Common
import Nifra.Idempotency.MemoryStore

/-! # Histories of the idempotency store

A history keeps, for each operation, the store it met and its answer. The owner of a
key is read off the answers alone: the reservation last granted, with its deadline and
its response, until an accepted abandon gives the key back.
-/

namespace Nifra.Idempotency

section Histories
variable {T : Type*} [LinearOrder T] [Add T]

inductive Op (T : Type*)
  | begin (input : BeginInput T) (uuid : JSString) (t₁ t₂ t₃ : T)
  | complete (input : CompletionInput) (t₁ t₂ : T)
  | abandon (input : AbandonInput) (t₁ : T)
  | renew (input : RenewInput T) (t₁ t₂ : T)
  | sweep (t₁ : T)
  deriving DecidableEq, Repr

def Op.times : Op T → List T
  | .begin _ _ t₁ t₂ t₃ => [t₁, t₂, t₃]
  | .complete _ t₁ t₂ => [t₁, t₂]
  | .abandon _ t₁ => [t₁]
  | .renew _ t₁ t₂ => [t₁, t₂]
  | .sweep t₁ => [t₁]

inductive Answer
  | begun (result : BeginResult)
  | settled (accepted : Bool)
  | swept
  deriving DecidableEq, Repr

structure Event (T : Type*) where
  before : MemoryStore T
  op : Op T
  answer : Answer

def MemoryStore.apply (s : MemoryStore T) : Op T → MemoryStore T × Answer
  | .begin input uuid t₁ t₂ t₃ =>
    ((s.begin input uuid t₁ t₂ t₃).1, .begun (s.begin input uuid t₁ t₂ t₃).2)
  | .complete input t₁ t₂ => ((s.complete input t₁ t₂).1, .settled (s.complete input t₁ t₂).2)
  | .abandon input t₁ => ((s.abandon input t₁).1, .settled (s.abandon input t₁).2)
  | .renew input t₁ t₂ => ((s.renew input t₁ t₂).1, .settled (s.renew input t₁ t₂).2)
  | .sweep t₁ => (s.sweep t₁, .swept)

def Event.of (s : MemoryStore T) (op : Op T) : Event T := ⟨s, op, (s.apply op).2⟩

def history (s₀ : MemoryStore T) : List (Op T) → MemoryStore T × List (Event T) :=
  List.foldl (fun sh op => ((sh.1.apply op).1, sh.2 ++ [.of sh.1 op])) (s₀, [])

def Clocked (ops : List (Op T)) : Prop := (ops.flatMap (·.times)).Pairwise (· ≤ ·)

instance (ops : List (Op T)) : Decidable (Clocked ops) :=
  inferInstanceAs (Decidable (List.Pairwise (· ≤ ·) (ops.flatMap (·.times))))

def ownerStep (k : EntryKey) (owner : Option (MemoryEntry T)) (e : Event T) :
    Option (MemoryEntry T) :=
  match e.op, e.answer with
  | .begin input _ _ _ t₃, .begun (.new reservation) =>
    if input.toEntryKey = k then
      some
        { ns := input.ns, fingerprint := input.fingerprint, reservation := reservation,
          ttlMs := input.ttlMs, expiresAt := t₃ + input.pendingTtlMs.getD input.ttlMs,
          response := none }
    else owner
  | .complete input _ t₂, .settled true =>
    if input.toEntryKey = k then
      owner.map fun o => { o with response := some input.response, expiresAt := t₂ + o.ttlMs }
    else owner
  | .abandon input _, .settled true => if input.toEntryKey = k then none else owner
  | .renew input _ t₂, .settled true =>
    if input.toEntryKey = k then owner.map fun o => { o with expiresAt := t₂ + input.ttlMs }
    else owner
  | _, _ => owner

def owner (k : EntryKey) (h : List (Event T)) : Option (MemoryEntry T) :=
  h.foldl (ownerStep k) none

namespace Event

def grants (e : Event T) (k : EntryKey) : Option JSString :=
  match e.op, e.answer with
  | .begin input _ _ _ _, .begun (.new reservation) =>
    if input.toEntryKey = k then some reservation else none
  | _, _ => none

def abandons (e : Event T) (k : EntryKey) (reservation : JSString) : Prop :=
  match e.op, e.answer with
  | .abandon input _, .settled true => input.toEntryKey = k ∧ input.reservation = reservation
  | _, _ => False

def completes (e : Event T) (k : EntryKey) : Option StoredResponse :=
  match e.op, e.answer with
  | .complete input _ _, .settled true =>
    if input.toEntryKey = k then some input.response else none
  | _, _ => none

end Event

def MemoryStore.LiveOwner (s : MemoryStore T) (k : EntryKey) (reservation : JSString) (now : T) :
    Prop :=
  ∃ e, s.entries.get (storageKey k) = some e ∧ e.reservation = reservation ∧ now < e.expiresAt

def MemoryStore.SameLive (s s' : MemoryStore T) (now : T) : Prop :=
  ∀ key e, now < e.expiresAt → (s'.entries.get key = some e ↔ s.entries.get key = some e)

end Histories

/-! ## The store holds what its answers granted

The counts of the store are exact, every stored entry is the owner of its key, and an
owner is dropped only once its deadline is past. Dropping an expired entry keeps this,
and so do a sweep and each operation.
-/

section
variable {T : Type*} [LinearOrder T]

/-- The store agrees with the owners of the keys; `past` are the clock readings so far. -/
structure Tracked (own : EntryKey → Option (MemoryEntry T)) (past : List T)
    (s : MemoryStore T) : Prop where
  count_eq : ∀ ns, s.count ns = s.entries.values.countP (·.ns = ns)
  size_le : s.entries.size ≤ s.maxEntries
  count_le : ∀ ns, s.count ns ≤ s.maxPerNamespace
  owned : ∀ key e, s.entries.get key = some e →
    ∃ k, key = storageKey k ∧ k.ns = e.ns ∧ own k = some e
  kept : ∀ k o, own k = some o →
    s.entries.get (storageKey k) = some o ∨ ∃ t ∈ past, o.expiresAt ≤ t

namespace Tracked

variable {own : EntryKey → Option (MemoryEntry T)} {past : List T} {s : MemoryStore T}
  {key : JSString} {e : MemoryEntry T}

theorem mono (ht : Tracked own past s) (past' : List T) (hsub : past ⊆ past') :
    Tracked own past' s :=
  { ht with kept := fun k o ho => (ht.kept k o ho).imp_right fun ⟨t, hm, hle⟩ => ⟨t, hsub hm, hle⟩ }

theorem count_drop (ht : Tracked own past s) (he : s.entries.get key = some e) (ns : JSString) :
    (s.drop key e).count ns + (if e.ns = ns then 1 else 0) = s.count ns := by
  have hpos : 0 < s.count e.ns := by
    have hcount := InsertionMap.countP_delete (fun f : MemoryEntry T => f.ns = e.ns) he
    rw [ht.count_eq, ← hcount]
    simp
  obtain ⟨c, hget⟩ : ∃ c, s.perNamespace.get e.ns = some c := by
    cases h : s.perNamespace.get e.ns with
    | none => simp [MemoryStore.count, h] at hpos
    | some c => exact ⟨c, rfl⟩
  simp only [MemoryStore.count, hget, Option.getD_some] at hpos
  simp only [MemoryStore.drop, MemoryStore.count, hget, Option.getD_some]
  by_cases hns : e.ns = ns
  · subst hns
    rw [if_pos (rfl : e.ns = e.ns)]
    split_ifs with hleft
    · rw [InsertionMap.get_set_self, hget]
      exact Nat.sub_add_cancel hpos
    · rw [InsertionMap.get_delete, if_pos rfl, hget]
      simp only [Option.getD_none, Option.getD_some]
      omega
  · rw [if_neg hns, Nat.add_zero]
    split_ifs
    · rw [InsertionMap.get_set_of_ne (Ne.symm hns)]
    · rw [InsertionMap.get_delete, if_neg (Ne.symm hns)]

theorem drop (ht : Tracked own past s) (he : s.entries.get key = some e)
    {own' : EntryKey → Option (MemoryEntry T)}
    (hown : ∀ k, key ≠ storageKey k → own' k = own k)
    (hgone : ∀ k o, key = storageKey k → own' k = some o → ∃ t ∈ past, o.expiresAt ≤ t) :
    Tracked own' past (s.drop key e) where
  count_eq ns := by
    have hcount := ht.count_drop he ns
    have hdelete := InsertionMap.countP_delete (fun f : MemoryEntry T => f.ns = ns) he
    rw [ht.count_eq ns, ← hdelete] at hcount
    simp only [decide_eq_true_eq] at hcount
    exact Nat.add_right_cancel hcount
  size_le := by
    have hsize := InsertionMap.size_delete he
    have hle := ht.size_le
    simp only [MemoryStore.drop]
    omega
  count_le ns := by
    have hcount := ht.count_drop he ns
    have hle := ht.count_le ns
    simp only [MemoryStore.drop] at hcount ⊢
    omega
  owned key' e' he' := by
    rw [MemoryStore.drop, InsertionMap.get_delete] at he'
    split_ifs at he' with hkey
    obtain ⟨k, hk, hns, ho⟩ := ht.owned key' e' he'
    exact ⟨k, hk, hns, (hown k fun h => hkey (hk.trans h.symm)).trans ho⟩
  kept k o ho := by
    by_cases hkey : key = storageKey k
    · exact Or.inr (hgone k o hkey ho)
    · rw [MemoryStore.drop, InsertionMap.get_delete, if_neg (Ne.symm hkey)]
      exact ht.kept k o (hown k hkey ▸ ho)

theorem drop_expired (ht : Tracked own past s) (he : s.entries.get key = some e) {t : T}
    (ht' : t ∈ past) (hle : e.expiresAt ≤ t) : Tracked own past (s.drop key e) := by
  refine ht.drop he (fun _ _ => rfl) fun k o hkey ho => ?_
  obtain ⟨k', hk', -, ho'⟩ := ht.owned key e he
  have hk : k = k' := storageKey_injective (hkey.symm.trans hk')
  rw [hk, ho', Option.some.injEq] at ho
  exact ⟨t, ht', ho ▸ hle⟩

theorem sweepFrom {now : T} (hnow : now ∈ past) {es : List (JSString × MemoryEntry T)}
    (hnodup : (es.map Prod.fst).Nodup) (hes : ∀ x ∈ es, s.entries.get x.1 = some x.2)
    (ht : Tracked own past s) :
    Tracked own past (es.foldl (fun s e => if e.2.expiresAt ≤ now then s.drop e.1 e.2 else s) s) := by
  induction es generalizing s with
  | nil => exact ht
  | cons x es ih =>
    obtain ⟨hx, hes⟩ := List.forall_mem_cons.mp hes
    rw [List.map_cons, List.nodup_cons] at hnodup
    rw [List.foldl_cons]
    split_ifs with hle
    · refine ih hnodup.2 (fun y hy => ?_) (ht.drop_expired hx hnow hle)
      have hne : y.1 ≠ x.1 := fun h => hnodup.1 (h ▸ List.mem_map_of_mem hy)
      rw [MemoryStore.drop, InsertionMap.get_delete, if_neg hne]
      exact hes y hy
    · exact ih hnodup.2 hes ht

theorem sweep (ht : Tracked own past s) {now : T} (hnow : now ∈ past) :
    Tracked own past (s.sweep now) :=
  ht.sweepFrom hnow s.entries.nodup fun _ hx => InsertionMap.get_eq_some_iff.mpr hx

end Tracked

theorem MemoryStore.get_of_get_sweep {s : MemoryStore T} {now : T} {key : JSString}
    {e : MemoryEntry T} (h : (s.sweep now).entries.get key = some e) :
    s.entries.get key = some e := by
  suffices ∀ (es : List (JSString × MemoryEntry T)) (s : MemoryStore T),
      (es.foldl (fun s e => if e.2.expiresAt ≤ now then s.drop e.1 e.2 else s) s).entries.get key =
        some e → s.entries.get key = some e from this _ s h
  intro es
  induction es with
  | nil => exact fun _ h => h
  | cons x es ih =>
    intro s h
    rw [List.foldl_cons] at h
    have hs := ih _ h
    split_ifs at hs
    · rw [MemoryStore.drop, InsertionMap.get_delete] at hs
      split_ifs at hs
      exact hs
    · exact hs

variable [Add T]

namespace Tracked

variable {own own' : EntryKey → Option (MemoryEntry T)} {past : List T} {s : MemoryStore T}
  {input : BeginInput T} {uuid : JSString} {now now' : T}

def granted (input : BeginInput T) (uuid : JSString) (now' : T) : MemoryEntry T :=
  { ns := input.ns, fingerprint := input.fingerprint, reservation := uuid,
    ttlMs := input.ttlMs, expiresAt := now' + input.pendingTtlMs.getD input.ttlMs,
    response := none }

theorem insert (ht : Tracked own past s)
    (hfree : s.entries.get (storageKey input.toEntryKey) = none)
    (hsize : s.entries.size < s.maxEntries) (hcount : s.count input.ns < s.maxPerNamespace)
    (hself : own' input.toEntryKey = some (granted input uuid now'))
    (hother : ∀ k, k ≠ input.toEntryKey → own' k = own k) :
    Tracked own' past { s with
      perNamespace := s.perNamespace.set input.ns (s.count input.ns + 1),
      entries := s.entries.set (storageKey input.toEntryKey) (granted input uuid now') } := by
  have hentries := InsertionMap.entries_delete_of_get_none hfree
  have hvalues : (s.entries.delete (storageKey input.toEntryKey)).values = s.entries.values := by
    rw [InsertionMap.values, hentries, InsertionMap.values]
  have hnew (ns : JSString) : MemoryStore.count { s with
      perNamespace := s.perNamespace.set input.ns (s.count input.ns + 1),
      entries := s.entries.set (storageKey input.toEntryKey) (granted input uuid now') } ns =
      s.count ns + if input.ns = ns then 1 else 0 := by
    rw [MemoryStore.count, InsertionMap.get_set]
    by_cases hns : input.ns = ns
    · simp [hns]
    · simp [hns, Ne.symm hns, MemoryStore.count]
  constructor
  case count_eq =>
    intro ns
    rw [hnew, ht.count_eq, InsertionMap.countP_set, hvalues]
    by_cases hns : input.ns = ns <;> simp [granted, hns]
  case size_le =>
    rw [InsertionMap.size_set, InsertionMap.size, hentries]
    exact hsize
  case count_le =>
    intro ns
    rw [hnew]
    have hle := ht.count_le ns
    split_ifs with hns
    · exact hns ▸ hcount
    · exact hle
  case owned =>
    intro key e he
    rw [InsertionMap.get_set] at he
    split_ifs at he with hkey
    · exact ⟨input.toEntryKey, hkey, by rw [← Option.some.inj he]; rfl, hself.trans he⟩
    · obtain ⟨k, hk, hns, ho⟩ := ht.owned key e he
      exact ⟨k, hk, hns, (hother k fun h => hkey (h ▸ hk)).trans ho⟩
  case kept =>
    intro k o ho
    by_cases hk : k = input.toEntryKey
    · rw [hk, hself] at ho
      rw [hk, InsertionMap.get_set_self]
      exact Or.inl ho
    · rw [InsertionMap.get_set_of_ne fun h => hk (storageKey_injective h)]
      exact ht.kept k o (hother k hk ▸ ho)

omit [Add T] in
theorem rewrite {k₀ : EntryKey} {e e' : MemoryEntry T} (ht : Tracked own past s)
    (he : s.entries.get (storageKey k₀) = some e) (hns : e'.ns = e.ns) (hself : own' k₀ = some e')
    (hother : ∀ k, k ≠ k₀ → own' k = own k) :
    Tracked own' past { s with entries := s.entries.set (storageKey k₀) e' } := by
  constructor
  case count_eq =>
    intro ns
    rw [InsertionMap.countP_set, hns, InsertionMap.countP_delete (fun f : MemoryEntry T => f.ns = ns) he]
    exact ht.count_eq ns
  case size_le =>
    rw [InsertionMap.size_set, InsertionMap.size_delete he]
    exact ht.size_le
  case count_le => exact ht.count_le
  case owned =>
    intro key f hf
    rw [InsertionMap.get_set] at hf
    split_ifs at hf with hkey
    · obtain ⟨k, hk, hkns, -⟩ := ht.owned _ e he
      refine ⟨k₀, hkey, ?_, hself.trans hf⟩
      rw [storageKey_injective hk, hkns, ← hns, Option.some.inj hf]
    · obtain ⟨k, hk, hkns, ho⟩ := ht.owned key f hf
      exact ⟨k, hk, hkns, (hother k fun h => hkey (h ▸ hk)).trans ho⟩
  case kept =>
    intro k o ho
    by_cases hk : k = k₀
    · rw [hk, hself] at ho
      rw [hk, InsertionMap.get_set_self]
      exact Or.inl ho
    · rw [InsertionMap.get_set_of_ne fun h => hk (storageKey_injective h)]
      exact ht.kept k o (hother k hk ▸ ho)

theorem reserve (ht : Tracked own past s) (uuid : JSString) (now' : T) (hnow : now ∈ past)
    (hfree : s.entries.get (storageKey input.toEntryKey) = none) :
    (s.reserve input uuid now now').2 = .capacity ∧
        Tracked own past (s.reserve input uuid now now').1 ∨
      (s.reserve input uuid now now').2 = .new uuid ∧
        ∀ own', own' input.toEntryKey = some (granted input uuid now') →
          (∀ k, k ≠ input.toEntryKey → own' k = own k) →
          Tracked own' past (s.reserve input uuid now now').1 := by
  obtain ⟨s', hs', ht', hfree'⟩ : ∃ s', (if s.full input.ns then s.sweep now else s) = s' ∧
      Tracked own past s' ∧ s'.entries.get (storageKey input.toEntryKey) = none := by
    refine ⟨_, rfl, ?_⟩
    split_ifs
    · refine ⟨ht.sweep hnow, Option.eq_none_iff_forall_ne_some.mpr fun e he => ?_⟩
      have hget := MemoryStore.get_of_get_sweep he
      simp [hfree] at hget
    · exact ⟨ht, hfree⟩
  simp only [MemoryStore.reserve, hs']
  split_ifs with hfull
  · exact Or.inl ⟨rfl, ht'⟩
  · refine Or.inr ⟨rfl, fun own' hself hother => ?_⟩
    simp only [MemoryStore.full, decide_eq_true_eq, not_or, not_le] at hfull
    exact ht'.insert hfree' hfull.1 hfull.2 hself hother

omit [Add T] in
theorem own_of_get {k : EntryKey} {e : MemoryEntry T} (ht : Tracked own past s)
    (he : s.entries.get (storageKey k) = some e) : own k = some e := by
  obtain ⟨k', hk, -, ho⟩ := ht.owned _ e he
  rwa [storageKey_injective hk]

end Tracked

def readings (h : List (Event T)) : List T := h.flatMap fun e => e.op.times

omit [LinearOrder T] in
theorem owner_append_singleton (k : EntryKey) (h : List (Event T)) (e : Event T) :
    owner k (h ++ [e]) = ownerStep k (owner k h) e := by
  rw [owner, List.foldl_append]
  rfl

namespace Tracked

variable {s : MemoryStore T} {h : List (Event T)}

theorem begin {past : List T} {own : EntryKey → Option (MemoryEntry T)}
    (ht : Tracked own past s) (input : BeginInput T) (uuid : JSString) {t₁ t₂ : T} (t₃ : T)
    (h₁ : t₁ ∈ past) (h₂ : t₂ ∈ past) :
    ((s.begin input uuid t₁ t₂ t₃).2 ≠ .new uuid → (∀ r, (s.begin input uuid t₁ t₂ t₃).2 ≠ .new r) ∧
        Tracked own past (s.begin input uuid t₁ t₂ t₃).1) ∧
      ((s.begin input uuid t₁ t₂ t₃).2 = .new uuid →
        ∀ own', own' input.toEntryKey = some (granted input uuid t₃) →
          (∀ k, k ≠ input.toEntryKey → own' k = own k) →
          Tracked own' past (s.begin input uuid t₁ t₂ t₃).1) := by
  unfold MemoryStore.begin
  split
  · rename_i hnone
    rcases ht.reserve uuid t₃ h₂ hnone with ⟨hr, ht'⟩ | ⟨hr, ht'⟩
    · simp [hr, ht']
    · simp only [hr, ne_eq, not_true_eq_false, false_implies, true_and, forall_const]
      exact ht'
  · rename_i existing hget
    split_ifs with hlive hfp
    · simp [ht]
    · cases existing.response <;> simp [ht]
    · have ht₀ := ht.drop_expired hget h₁ (not_lt.mp hlive)
      have hnone : (s.drop (storageKey input.toEntryKey) existing).entries.get
          (storageKey input.toEntryKey) = none := by
        rw [MemoryStore.drop, InsertionMap.get_delete, if_pos rfl]
      rcases ht₀.reserve uuid t₃ h₂ hnone with ⟨hr, ht'⟩ | ⟨hr, ht'⟩
      · simp [hr, ht']
      · simp only [hr, ne_eq, not_true_eq_false, false_implies, true_and, forall_const]
        exact ht'

theorem complete {past : List T} (ht : Tracked (owner · h) past s) (input : CompletionInput)
    {t₁ t₂ : T} (h₁ : t₁ ∈ past) :
    Tracked (fun k => ownerStep k (owner k h) (.of s (.complete input t₁ t₂))) past
      (s.complete input t₁ t₂).1 := by
  simp only [Event.of, MemoryStore.apply, MemoryStore.complete]
  split
  · exact ht
  · rename_i entry hget
    split_ifs with hres hexp
    · exact ht
    · exact ht.drop_expired hget h₁ hexp
    · refine ht.rewrite hget rfl ?_ fun k hk => if_neg (Ne.symm hk)
      simp [ownerStep, ht.own_of_get hget]

theorem abandon {past : List T} (ht : Tracked (owner · h) past s) (input : AbandonInput)
    {t₁ : T} (h₁ : t₁ ∈ past) :
    Tracked (fun k => ownerStep k (owner k h) (.of s (.abandon input t₁))) past
      (s.abandon input t₁).1 := by
  simp only [Event.of, MemoryStore.apply, MemoryStore.abandon]
  split
  · exact ht
  · rename_i entry hget
    split_ifs with hexp hpend
    · exact ht.drop_expired hget h₁ hexp
    · refine ht.drop hget (fun k hk => if_neg fun hk' => hk (congrArg storageKey hk')) ?_
      intro k o hkey ho
      simp [ownerStep, storageKey_injective hkey] at ho
    · exact ht

theorem renew {past : List T} (ht : Tracked (owner · h) past s) (input : RenewInput T) {t₁ t₂ : T} :
    Tracked (fun k => ownerStep k (owner k h) (.of s (.renew input t₁ t₂))) past
      (s.renew input t₁ t₂).1 := by
  simp only [Event.of, MemoryStore.apply, MemoryStore.renew]
  split
  · exact ht
  · rename_i entry hget
    split_ifs with href
    · exact ht
    · refine ht.rewrite hget rfl ?_ fun k hk => if_neg (Ne.symm hk)
      simp [ownerStep, ht.own_of_get hget]

theorem step (ht : Tracked (owner · h) (readings h) s) (op : Op T) :
    Tracked (owner · (h ++ [.of s op])) (readings (h ++ [.of s op])) (s.apply op).1 := by
  have hpast : readings (h ++ [.of s op]) = readings h ++ op.times := by
    simp [readings, Event.of]
  have ht' := ht.mono (readings (h ++ [.of s op])) (by simp [hpast])
  have htimes : ∀ t ∈ op.times, t ∈ readings (h ++ [.of s op]) := by
    simp +contextual [hpast]
  simp only [owner_append_singleton]
  generalize readings (h ++ [.of s op]) = past at *
  cases op with
  | begin input uuid t₁ t₂ t₃ =>
    obtain ⟨hold, hnew⟩ := ht'.begin input uuid t₃ (htimes t₁ (by simp [Op.times]))
      (htimes t₂ (by simp [Op.times]))
    by_cases hr : (s.begin input uuid t₁ t₂ t₃).2 = .new uuid
    · refine hnew hr _ ?_ fun k hk => ?_
      · simp [Event.of, ownerStep, MemoryStore.apply, hr, granted]
      · simp [Event.of, ownerStep, MemoryStore.apply, hr, Ne.symm hk]
    · obtain ⟨hno, ht₁⟩ := hold hr
      have hsame (k : EntryKey) :
          ownerStep k (owner k h) (.of s (.begin input uuid t₁ t₂ t₃)) = owner k h := by
        simp only [Event.of, ownerStep, MemoryStore.apply]
        cases hres : (s.begin input uuid t₁ t₂ t₃).2 with
        | new r => exact absurd hres (hno r)
        | _ => rfl
      simp only [hsame]
      exact ht₁
  | complete input t₁ t₂ => exact ht'.complete input (htimes t₁ (by simp [Op.times]))
  | abandon input t₁ => exact ht'.abandon input (htimes t₁ (by simp [Op.times]))
  | renew input t₁ t₂ => exact ht'.renew input
  | sweep t₁ => exact ht'.sweep (htimes t₁ (by simp [Op.times]))

end Tracked

theorem history_append_singleton (s₀ : MemoryStore T) (ops : List (Op T)) (op : Op T) :
    history s₀ (ops ++ [op]) = (((history s₀ ops).1.apply op).1,
      (history s₀ ops).2 ++ [.of (history s₀ ops).1 op]) := by
  rw [history, List.foldl_append]
  rfl

omit [Add T] in
theorem tracked_create {options : MemoryStoreOptions} {s₀ : MemoryStore T}
    (hs₀ : MemoryStore.create options = .ok s₀) : Tracked (fun _ => none) [] s₀ := by
  have hempty : s₀.entries = ∅ ∧ s₀.perNamespace = ∅ := by
    simp only [MemoryStore.create] at hs₀
    split_ifs at hs₀
    cases hs₀
    exact ⟨rfl, rfl⟩
  constructor
  case count_eq =>
    intro ns
    rw [MemoryStore.count, hempty.2, hempty.1]
    rfl
  case size_le =>
    rw [hempty.1]
    exact Nat.zero_le _
  case count_le =>
    intro ns
    rw [MemoryStore.count, hempty.2]
    exact Nat.zero_le _
  case owned =>
    intro key e he
    rw [hempty.1] at he
    cases he
  case kept => exact fun k o ho => nomatch ho

theorem tracked_history {options : MemoryStoreOptions} {s₀ : MemoryStore T}
    (hs₀ : MemoryStore.create options = .ok s₀) (ops : List (Op T)) :
    Tracked (owner · (history s₀ ops).2) (readings (history s₀ ops).2) (history s₀ ops).1 := by
  induction ops using List.reverseRecOn with
  | nil => exact tracked_create hs₀
  | append_singleton ops op ih =>
    rw [history_append_singleton]
    exact ih.step op

end

/-! ## The idempotency store is a reservation table

A grant waits until the owner before it has abandoned the key or its deadline is past,
and a completed response is replayed until its own deadline. Both are read off the owners
of the keys, which the events between two moments may or may not change.
-/

variable {T : Type*} [LinearOrder T] [Add T] {s₀ : MemoryStore T}

theorem history_split {ops : List (Op T)} {p q : List (Event T)} {e : Event T}
    (h : (history s₀ ops).2 = p ++ e :: q) :
    ∃ ops₁ op ops₂, ops = ops₁ ++ op :: ops₂ ∧ p = (history s₀ ops₁).2 ∧
      e = .of (history s₀ ops₁).1 op := by
  induction ops using List.reverseRecOn generalizing q with
  | nil => simp [history] at h
  | append_singleton ops op ih =>
    rw [history_append_singleton] at h
    rcases List.eq_nil_or_concat q with rfl | ⟨q, f, rfl⟩
    · obtain ⟨hp, he⟩ := List.append_inj' h rfl
      exact ⟨ops, op, [], rfl, hp.symm, (List.singleton_inj.mp he).symm⟩
    · rw [List.concat_eq_append, ← List.cons_append, ← List.append_assoc] at h
      obtain ⟨ops₁, op₁, ops₂, rfl, hp, he⟩ := ih (List.append_inj' h rfl).1
      exact ⟨ops₁, op₁, ops₂ ++ [op], by simp, hp, he⟩

theorem readings_history (ops : List (Op T)) :
    readings (history s₀ ops).2 = ops.flatMap (·.times) := by
  induction ops using List.reverseRecOn with
  | nil => rfl
  | append_singleton ops op ih =>
    rw [history_append_singleton, readings, List.flatMap_append, ← readings, ih]
    simp [Event.of]

theorem Clocked.le {ops₁ ops₂ : List (Op T)} {op : Op T} (h : Clocked (ops₁ ++ op :: ops₂))
    {t t' : T} (ht : t ∈ readings (history s₀ ops₁).2) (ht' : t' ∈ op.times) : t ≤ t' := by
  rw [readings_history] at ht
  rw [Clocked, List.flatMap_append, List.flatMap_cons] at h
  exact (List.pairwise_append.mp h).2.2 t ht t' (List.mem_append_left _ ht')

section Owner
variable {k : EntryKey} {s : MemoryStore T} {h : List (Event T)} {op : Op T} {o : MemoryEntry T}

theorem expired_of_grants (ht : Tracked (owner · h) (readings h) s)
    (hle : ∀ t ∈ readings h, ∀ t' ∈ op.times, t ≤ t') {r : JSString}
    (hr : (Event.of s op).grants k = some r) (ho : owner k h = some o) :
    ∃ t ∈ op.times, o.expiresAt ≤ t := by
  cases op with
  | begin input uuid t₁ t₂ t₃ =>
    refine ⟨t₁, by simp [Op.times], ?_⟩
    simp only [Event.of, Event.grants, MemoryStore.apply] at hr
    split at hr
    · rename_i input' _ _ _ _ r' heq heq'
      cases heq
      split_ifs at hr with hk
      subst hk
      by_contra hlive
      rcases ht.kept _ o ho with hget | ⟨t, hpast, hexp⟩
      · simp only [Answer.begun.injEq, MemoryStore.begin, hget, not_le.mp hlive, if_true] at heq'
        split_ifs at heq'
        cases hresponse : o.response <;> simp [hresponse] at heq'
      · exact hlive (hexp.trans (hle t hpast t₁ (by simp [Op.times])))
    · cases hr
  | complete => simp [Event.of, Event.grants] at hr
  | abandon => simp [Event.of, Event.grants] at hr
  | renew => simp [Event.of, Event.grants] at hr
  | sweep => simp [Event.of, Event.grants] at hr

theorem owner_kept (ht : Tracked (owner · h) (readings h) s) (ho : owner k h = some o)
    (hgrant : (Event.of s op).grants k = none)
    (habandon : ¬ (Event.of s op).abandons k o.reservation) :
    ∃ o', ownerStep k (owner k h) (.of s op) = some o' ∧ o'.reservation = o.reservation := by
  cases op with
  | begin input uuid t₁ t₂ t₃ =>
    simp only [Event.of, Event.grants, MemoryStore.apply] at hgrant
    simp only [Event.of, ownerStep, MemoryStore.apply, ho]
    cases hres : (s.begin input uuid t₁ t₂ t₃).2 with
    | new r =>
      simp only [hres] at hgrant
      split_ifs at hgrant with hk
      exact ⟨o, by simp [hk], rfl⟩
    | _ => exact ⟨o, rfl, rfl⟩
  | complete input t₁ t₂ =>
    simp only [Event.of, ownerStep, MemoryStore.apply, ho]
    cases (s.complete input t₁ t₂).2 with
    | false => exact ⟨o, rfl, rfl⟩
    | true =>
      by_cases hk : input.toEntryKey = k
      · exact ⟨_, if_pos hk, rfl⟩
      · exact ⟨o, if_neg hk, rfl⟩
  | abandon input t₁ =>
    simp only [Event.of, Event.abandons, MemoryStore.apply] at habandon
    simp only [Event.of, ownerStep, MemoryStore.apply, ho]
    cases hres : (s.abandon input t₁).2 with
    | false => exact ⟨o, rfl, rfl⟩
    | true =>
      by_cases hk : input.toEntryKey = k
      · subst hk
        have hreservation : input.reservation = o.reservation := by
          simp only [MemoryStore.abandon] at hres
          split at hres
          · cases hres
          · rename_i e hget
            have heq : e = o := Option.some.inj ((ht.own_of_get hget).symm.trans ho)
            split_ifs at hres with _ hpend
            exact heq ▸ hpend.2.symm
        simp [hres, hreservation] at habandon
      · exact ⟨o, if_neg hk, rfl⟩
  | renew input t₁ t₂ =>
    simp only [Event.of, ownerStep, MemoryStore.apply, ho]
    cases (s.renew input t₁ t₂).2 with
    | false => exact ⟨o, rfl, rfl⟩
    | true =>
      by_cases hk : input.toEntryKey = k
      · exact ⟨_, if_pos hk, rfl⟩
      · exact ⟨o, if_neg hk, rfl⟩
  | sweep => exact ⟨o, ho, rfl⟩

theorem owner_completed (ht : Tracked (owner · h) (readings h) s) (ho : owner k h = some o)
    (hresponse : o.response ≠ none) (hgrant : (Event.of s op).grants k = none)
    (hcomplete : (Event.of s op).completes k = none) :
    ownerStep k (owner k h) (.of s op) = some o := by
  cases op with
  | begin input uuid t₁ t₂ t₃ =>
    simp only [Event.of, Event.grants, MemoryStore.apply] at hgrant
    simp only [Event.of, ownerStep, MemoryStore.apply, ho]
    cases hres : (s.begin input uuid t₁ t₂ t₃).2 with
    | new r =>
      simp only [hres] at hgrant
      split_ifs at hgrant with hk
      simp [hk]
    | _ => rfl
  | complete input t₁ t₂ =>
    simp only [Event.of, Event.completes, MemoryStore.apply] at hcomplete
    simp only [Event.of, ownerStep, MemoryStore.apply, ho]
    cases hres : (s.complete input t₁ t₂).2 with
    | false => rfl
    | true =>
      simp only [hres] at hcomplete
      split_ifs at hcomplete with hk
      simp [hk]
  | abandon input t₁ =>
    simp only [Event.of, ownerStep, MemoryStore.apply, ho]
    cases hres : (s.abandon input t₁).2 with
    | false => rfl
    | true =>
      refine if_neg fun hk => ?_
      subst hk
      simp only [MemoryStore.abandon] at hres
      split at hres
      · cases hres
      · rename_i e hget
        have heq : e = o := Option.some.inj ((ht.own_of_get hget).symm.trans ho)
        split_ifs at hres with _ hpend
        exact hresponse (heq ▸ hpend.1)
  | renew input t₁ t₂ =>
    simp only [Event.of, ownerStep, MemoryStore.apply, ho]
    cases hres : (s.renew input t₁ t₂).2 with
    | false => rfl
    | true =>
      refine if_neg fun hk => ?_
      subst hk
      simp only [MemoryStore.renew] at hres
      split at hres
      · cases hres
      · rename_i e hget
        have heq : e = o := Option.some.inj ((ht.own_of_get hget).symm.trans ho)
        split_ifs at hres with href
        simp only [not_or, not_not] at href
        exact hresponse (heq ▸ href.2.1)
  | sweep => exact ho

end Owner

theorem abandoned_or_expired {ops : List (Op T)} (hclock : Clocked ops)
    (htracked : ∀ ops : List (Op T),
      Tracked (owner · (history s₀ ops).2) (readings (history s₀ ops).2) (history s₀ ops).1)
    {k : EntryKey} {r : JSString} {m : List (Event T)} :
    ∀ {p q : List (Event T)} {o : MemoryEntry T} {e₂ : Event T},
      (history s₀ ops).2 = p ++ m ++ e₂ :: q → owner k p = some o → o.reservation = r →
      (e₂.grants k).isSome →
      (∃ e ∈ m, e.abandons k r) ∨
      ∃ m₁ e m₂ o, m ++ [e₂] = m₁ ++ e :: m₂ ∧ owner k (p ++ m₁) = some o ∧
        o.reservation = r ∧ ∃ t ∈ e.op.times, o.expiresAt ≤ t := by
  induction m with
  | nil =>
    intro p q o e₂ hh ho hr hg
    rw [List.append_nil] at hh
    obtain ⟨ops₁, op, ops₂, rfl, rfl, rfl⟩ := history_split hh
    obtain ⟨r₂, hr₂⟩ := Option.isSome_iff_exists.mp hg
    exact Or.inr ⟨[], _, [], o, rfl, by rwa [List.append_nil], hr,
      expired_of_grants (htracked ops₁) (fun _ ht _ ht' => hclock.le ht ht') hr₂ ho⟩
  | cons e m ih =>
    intro p q o e₂ hh ho hr hg
    have hh' : (history s₀ ops).2 = p ++ e :: (m ++ e₂ :: q) := by simpa using hh
    obtain ⟨ops₁, op, ops₂, hops, hp, he⟩ := history_split hh'
    by_cases hgrant : (e.grants k).isSome
    · obtain ⟨r₂, hr₂⟩ := Option.isSome_iff_exists.mp hgrant
      subst hops hp he
      exact Or.inr ⟨[], _, m ++ [e₂], o, rfl, by rwa [List.append_nil], hr,
        expired_of_grants (htracked ops₁) (fun _ ht _ ht' => hclock.le ht ht') hr₂ ho⟩
    · by_cases habandon : e.abandons k r
      · exact Or.inl ⟨e, List.mem_cons_self, habandon⟩
      · have hkept : ∃ o', ownerStep k (owner k p) e = some o' ∧ o'.reservation = o.reservation := by
          subst hp he
          exact owner_kept (htracked ops₁) ho (Option.not_isSome_iff_eq_none.mp hgrant)
            (hr ▸ habandon)
        obtain ⟨o', ho', hr'⟩ := hkept
        rw [← owner_append_singleton] at ho'
        rcases ih (p := p ++ [e]) (by simpa using hh) ho' (hr'.trans hr) hg with
          ⟨f, hf, hab⟩ | ⟨m₁, f, m₂, o₁, hm, ho₁, hr₁, ht⟩
        · exact Or.inl ⟨f, List.mem_cons_of_mem _ hf, hab⟩
        · exact Or.inr ⟨e :: m₁, f, m₂, o₁, by simp [hm], by simpa using ho₁, hr₁, ht⟩

theorem owner_still_completed {ops : List (Op T)}
    (htracked : ∀ ops : List (Op T),
      Tracked (owner · (history s₀ ops).2) (readings (history s₀ ops).2) (history s₀ ops).1)
    (hclock : Clocked ops) {k : EntryKey} {o : MemoryEntry T} (hresponse : o.response ≠ none)
    {m : List (Event T)} :
    ∀ {p : List (Event T)}, (history s₀ ops).2 = p ++ m → owner k p = some o →
      (∀ e ∈ m, e.completes k = none) → (∀ t ∈ readings m, t < o.expiresAt) →
      owner k (p ++ m) = some o := by
  induction m with
  | nil => exact fun hh ho _ _ => by rwa [List.append_nil]
  | cons e m ih =>
    intro p hh ho hcomp hlive
    obtain ⟨ops₁, op, ops₂, hops, hp, he⟩ := history_split hh
    have hgrant : e.grants k = none := by
      by_contra hsome
      obtain ⟨r, hr⟩ := Option.ne_none_iff_exists'.mp hsome
      subst hops hp he
      obtain ⟨t, ht, hexp⟩ := expired_of_grants (htracked ops₁)
        (fun _ ht _ ht' => hclock.le ht ht') hr ho
      exact absurd hexp (not_le.mpr (hlive t (List.mem_append_left _ ht)))
    have hnext : owner k (p ++ [e]) = some o := by
      rw [owner_append_singleton]
      subst hp he
      exact owner_completed (htracked ops₁) ho hresponse hgrant (hcomp _ List.mem_cons_self)
    have hrest := ih (p := p ++ [e]) (by simpa using hh) hnext
      (fun f hf => hcomp f (List.mem_cons_of_mem _ hf))
      fun t ht => hlive t (by
        rw [readings, List.flatMap_cons]
        exact List.mem_append_right _ ht)
    simpa using hrest

structure ReservationTable (s : MemoryStore T) (h : List (Event T)) : Prop where
  /-- `perNamespace` counts the stored entries of each namespace. -/
  counts : ∀ ns, (s.perNamespace.get ns).getD 0 = s.entries.values.countP (·.ns = ns)
  /-- The entries never exceed the bounds. -/
  bounded : s.entries.size ≤ s.maxEntries ∧
    ∀ ns, s.entries.values.countP (·.ns = ns) ≤ s.maxPerNamespace
  /-- Between two `new` answers for a key the earlier reservation was abandoned or expired. -/
  granted_once : ∀ k p e₁ m e₂ q r₁ r₂, h = p ++ e₁ :: (m ++ e₂ :: q) →
    e₁.grants k = some r₁ → e₂.grants k = some r₂ →
    (∃ e ∈ m, e.abandons k r₁) ∨
    ∃ m₁ e m₂ o, m ++ [e₂] = m₁ ++ e :: m₂ ∧ owner k (p ++ e₁ :: m₁) = some o ∧
      o.reservation = r₁ ∧ ∃ t ∈ e.op.times, o.expiresAt ≤ t
  /-- A reservation that is not the live owner is refused, and changes no live entry. -/
  stale_refused : ∀ (k : EntryKey) r t₁, ¬ s.LiveOwner k r t₁ →
    (∀ response t₂, (s.complete ⟨k, r, response⟩ t₁ t₂).2 = false ∧
      s.SameLive (s.complete ⟨k, r, response⟩ t₁ t₂).1 t₁) ∧
    (∀ ttlMs t₂, (s.renew ⟨k, r, ttlMs⟩ t₁ t₂).2 = false ∧
      s.SameLive (s.renew ⟨k, r, ttlMs⟩ t₁ t₂).1 t₁) ∧
    (s.abandon ⟨k, r⟩ t₁).2 = false ∧ s.SameLive (s.abandon ⟨k, r⟩ t₁).1 t₁
  /-- From an accepted completion, the last one of its key, to its deadline, every `begin`
  of the key replays the response or answers `mismatch`. -/
  replays : ∀ k p e q response, h = p ++ e :: q → e.completes k = some response →
    (∀ e' ∈ q, e'.completes k = none) →
    ∃ o, owner k (p ++ [e]) = some o ∧ o.response = some response ∧
      ∀ input uuid t₁ t₂ t₃, input.toEntryKey = k → (∀ t ∈ readings h, t ≤ t₁) →
        t₁ < o.expiresAt → (s.begin input uuid t₁ t₂ t₃).2 =
          if input.fingerprint = o.fingerprint then .replay response else .mismatch
  /-- Keys of different namespaces, and different keys of one, never collide in storage. -/
  keys_apart : Function.Injective storageKey

omit [Add T] in
theorem sameLive_drop {s : MemoryStore T} {key : JSString} {e : MemoryEntry T} {t : T}
    (he : s.entries.get key = some e) (hexp : e.expiresAt ≤ t) : s.SameLive (s.drop key e) t := by
  intro key' e' hlive
  rw [MemoryStore.drop, InsertionMap.get_delete]
  split_ifs with hkey
  · subst hkey
    rw [he]
    constructor
    · intro h
      cases h
    · rintro ⟨⟩
      exact absurd hexp (not_le.mpr hlive)
  · rfl

theorem stale_refused (s : MemoryStore T) (k : EntryKey) (r : JSString) (t₁ : T)
    (hstale : ¬ s.LiveOwner k r t₁) :
    (∀ response t₂, (s.complete ⟨k, r, response⟩ t₁ t₂).2 = false ∧
      s.SameLive (s.complete ⟨k, r, response⟩ t₁ t₂).1 t₁) ∧
    (∀ ttlMs t₂, (s.renew ⟨k, r, ttlMs⟩ t₁ t₂).2 = false ∧
      s.SameLive (s.renew ⟨k, r, ttlMs⟩ t₁ t₂).1 t₁) ∧
    (s.abandon ⟨k, r⟩ t₁).2 = false ∧ s.SameLive (s.abandon ⟨k, r⟩ t₁).1 t₁ := by
  have hsame : s.SameLive s t₁ := fun _ _ _ => Iff.rfl
  cases hget : s.entries.get (storageKey k) with
  | none => simp [MemoryStore.complete, MemoryStore.renew, MemoryStore.abandon, hget, hsame]
  | some e =>
    have hdrop (hexp : e.expiresAt ≤ t₁) := sameLive_drop hget hexp
    by_cases hexp : e.expiresAt ≤ t₁
    · by_cases hr : e.reservation = r
      · simp [MemoryStore.complete, MemoryStore.renew, MemoryStore.abandon, hget, hexp, hr, hsame,
          hdrop]
      · simp [MemoryStore.complete, MemoryStore.renew, MemoryStore.abandon, hget, hexp, hr, hsame,
          hdrop]
    · have hr : e.reservation ≠ r := fun hr => hstale ⟨e, hget, hr, not_le.mp hexp⟩
      simp [MemoryStore.complete, MemoryStore.renew, MemoryStore.abandon, hget, hexp, hr, hsame]

omit [LinearOrder T] in
theorem owner_of_grants {k : EntryKey} {h : List (Event T)} {e : Event T} {r : JSString}
    (hr : e.grants k = some r) : ∃ o, owner k (h ++ [e]) = some o ∧ o.reservation = r := by
  rw [owner_append_singleton]
  obtain ⟨before, op, answer⟩ := e
  cases op with
  | begin input uuid t₁ t₂ t₃ =>
    cases answer with
    | begun result =>
      cases result with
      | new r' =>
        simp only [Event.grants] at hr
        split_ifs at hr with hk
        exact ⟨_, if_pos hk, Option.some.inj hr⟩
      | _ => cases hr
    | _ => cases hr
  | _ => cases hr

theorem owner_of_completes {k : EntryKey} {h : List (Event T)} {s : MemoryStore T} {op : Op T}
    {response : StoredResponse} (ht : Tracked (owner · h) (readings h) s)
    (hc : (Event.of s op).completes k = some response) :
    ∃ o, owner k (h ++ [.of s op]) = some o ∧ o.response = some response := by
  rw [owner_append_singleton]
  cases op with
  | complete input t₁ t₂ =>
    simp only [Event.of, Event.completes, MemoryStore.apply] at hc
    cases hres : (s.complete input t₁ t₂).2 with
    | false => simp [hres] at hc
    | true =>
      simp only [hres] at hc
      split_ifs at hc with hk
      subst hk
      obtain ⟨e, hget⟩ : ∃ e, s.entries.get (storageKey input.toEntryKey) = some e := by
        simp only [MemoryStore.complete] at hres
        split at hres
        · cases hres
        · exact ⟨_, by assumption⟩
      have hstep : ownerStep input.toEntryKey (owner input.toEntryKey h)
          (.of s (.complete input t₁ t₂)) = some
            { e with response := some input.response, expiresAt := t₂ + e.ttlMs } := by
        simp [Event.of, ownerStep, MemoryStore.apply, hres, ht.own_of_get hget]
      exact ⟨_, hstep, hc⟩
  | begin => simp [Event.of, Event.completes] at hc
  | abandon => simp [Event.of, Event.completes] at hc
  | renew => simp [Event.of, Event.completes] at hc
  | sweep => simp [Event.of, Event.completes] at hc

/-- The store is a reservation table after every history on a clock that never decreases. -/
theorem reservation_table {options : MemoryStoreOptions}
    (hs₀ : MemoryStore.create options = .ok s₀) {ops : List (Op T)} (hclock : Clocked ops) :
    ReservationTable (history s₀ ops).1 (history s₀ ops).2 := by
  have htracked := fun ops : List (Op T) => tracked_history hs₀ ops
  have ht := htracked ops
  constructor
  case counts => exact ht.count_eq
  case bounded => exact ⟨ht.size_le, fun ns => ht.count_eq ns ▸ ht.count_le ns⟩
  case granted_once =>
    intro k p e₁ m e₂ q r₁ r₂ hh h₁ h₂
    obtain ⟨o, ho, hr⟩ := owner_of_grants (h := p) h₁
    have hh' : (history s₀ ops).2 = (p ++ [e₁]) ++ m ++ e₂ :: q := by simpa using hh
    have hsplit := abandoned_or_expired hclock htracked hh' ho hr (by simp [h₂])
    simpa only [List.append_assoc, List.singleton_append] using hsplit
  case stale_refused => exact stale_refused _
  case replays =>
    intro k p e q response hh hc hlast
    obtain ⟨o, ho, hresponse⟩ : ∃ o, owner k (p ++ [e]) = some o ∧ o.response = some response := by
      obtain ⟨ops₁, op, ops₂, -, rfl, rfl⟩ := history_split hh
      exact owner_of_completes (htracked ops₁) hc
    refine ⟨o, ho, hresponse, fun input uuid t₁ t₂ t₃ hk hnow hlive => ?_⟩
    have hpast : ∀ t ∈ readings q, t < o.expiresAt := fun t hmem => by
      have hread : t ∈ readings (history s₀ ops).2 := by
        rw [hh, readings, List.flatMap_append, List.flatMap_cons]
        exact List.mem_append_right _ (List.mem_append_right _ hmem)
      exact (hnow t hread).trans_lt hlive
    have hstill := owner_still_completed htracked hclock (by simp [hresponse])
      (p := p ++ [e]) (m := q) (by simpa using hh) ho hlast hpast
    have hown : owner k (history s₀ ops).2 = some o := by simpa [hh] using hstill
    rcases ht.kept k o hown with hget | ⟨t, hmem, hexp⟩
    · subst hk
      simp only [MemoryStore.begin, hget, hlive, if_true, hresponse]
      by_cases hfp : input.fingerprint = o.fingerprint
      · simp [hfp]
      · simp [hfp, Ne.symm hfp]
    · exact absurd (hexp.trans (hnow t hmem)) (not_le.mpr hlive)
  case keys_apart => exact storageKey_injective

def memoryStore : MemoryStore ℕ := ⟨∅, ∅, 10000, 10000⟩

theorem create_memoryStore : MemoryStore.create ⟨none, none⟩ = .ok memoryStore := rfl

def orderKey : EntryKey := ⟨js "shop", js "order-1"⟩

def firstResponse : StoredResponse := ⟨200, [], js "Zmlyc3Q="⟩

def secondResponse : StoredResponse := ⟨200, [], js "c2Vjb25k"⟩

/-- A key that is reserved, completed, and completed again under the same reservation. -/
def completedTwice : List (Op ℕ) :=
  [.begin ⟨orderKey, js "fp", 100, none⟩ (js "r1") 0 0 0,
    .complete ⟨orderKey, js "r1", firstResponse⟩ 1 1,
    .complete ⟨orderKey, js "r1", secondResponse⟩ 2 2]

theorem reservation_table_completedTwice :
    ReservationTable (history memoryStore completedTwice).1
      (history memoryStore completedTwice).2 :=
  reservation_table create_memoryStore (by decide)

/-- The live owner may complete its key again: the earlier response is then not replayed. -/
theorem response_overwritten : ¬ ∀ ops : List (Op ℕ), Clocked ops →
    ∀ k p e q response, (history memoryStore ops).2 = p ++ e :: q →
      e.completes k = some response →
      ∃ o, owner k (p ++ [e]) = some o ∧ ∀ input uuid t₁ t₂ t₃, input.toEntryKey = k →
        (∀ t ∈ readings (history memoryStore ops).2, t ≤ t₁) → t₁ < o.expiresAt →
        ((history memoryStore ops).1.begin input uuid t₁ t₂ t₃).2 =
          if input.fingerprint = o.fingerprint then .replay response else .mismatch := by
  intro h
  let ops₁ : List (Op ℕ) := completedTwice.take 1
  let ops₂ : List (Op ℕ) := completedTwice.take 2
  obtain ⟨o, ho, hreplay⟩ := h completedTwice (by decide) orderKey
    (history memoryStore ops₁).2
    (.of (history memoryStore ops₁).1 (.complete ⟨orderKey, js "r1", firstResponse⟩ 1 1))
    [.of (history memoryStore ops₂).1 (.complete ⟨orderKey, js "r1", secondResponse⟩ 2 2)]
    firstResponse rfl (by decide +kernel)
  have howner : o = ⟨js "shop", js "fp", js "r1", 100, 101, some firstResponse⟩ :=
    Option.some.inj (ho.symm.trans (by decide +kernel))
  subst howner
  have hbegin := hreplay ⟨orderKey, js "fp", 100, none⟩ (js "r2") 3 3 3 rfl (by decide) (by decide)
  exact absurd hbegin (by decide +kernel)

end Nifra.Idempotency
