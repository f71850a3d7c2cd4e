import Mathlib.Data.List.Nodup
import Mathlib.Tactic.Common
import Nifra.Idempotency.MemoryStore

/-! # The contract of an idempotency store

A book keeps every reservation that a store has given out, with what became of it. The contract
says which answers to an operation a book allows: `begin` takes a key that has no live owner, and
only the live owner of a key can settle or renew it. A store that keeps the contract may answer
in any allowed way.
-/

namespace Nifra.Idempotency

variable {T : Type*}

inductive StoreOp (T : Type*)
  | begin (input : BeginInput T)
  | complete (input : CompletionInput)
  | abandon (input : AbandonInput)
  | renew (input : RenewInput T)
  deriving DecidableEq, Repr

inductive StoreAnswer
  | begun (result : BeginResult)
  | settled (accepted : Bool)
  deriving DecidableEq, Repr

structure Holding (T : Type*) where
  entryKey : EntryKey
  fingerprint : JSString
  reservation : JSString
  ttlMs : T
  grantedAt : T
  expiresAt : T
  response : Option StoredResponse
  abandonedAt : Option T
  deriving DecidableEq, Repr

abbrev Book (T : Type*) := List (Holding T)

namespace Book
variable [LinearOrder T] (b : Book T)

/-- The last reservation of a key, unless it was abandoned or has expired. -/
def live (k : EntryKey) (now : T) : Option (Holding T) :=
  (b.find? fun h => h.entryKey = k).filter fun h => h.abandonedAt = none ∧ now < h.expiresAt

def owned (k : EntryKey) (reservation : JSString) (now : T) : Option (Holding T) :=
  (b.live k now).filter fun h => h.reservation = reservation

def pending (k : EntryKey) (reservation : JSString) (now : T) : Option (Holding T) :=
  (b.owned k reservation now).filter fun h => h.response = none

def update (reservation : JSString) (change : Holding T → Holding T) : Book T :=
  b.map fun h => if h.reservation = reservation then change h else h

variable [Add T]

/-- What a `begin` may answer: a reservation is given out once. -/
def begin (input : BeginInput T) (now : T) : BeginResult → Option (Book T)
  | .new reservation =>
    if b.live input.toEntryKey now = none ∧ ∀ h ∈ b, h.reservation ≠ reservation then
      some
        ({ entryKey := input.toEntryKey, fingerprint := input.fingerprint,
           reservation := reservation, ttlMs := input.ttlMs, grantedAt := now,
           expiresAt := now + input.pendingTtlMs.getD input.ttlMs, response := none,
           abandonedAt := none } :: b)
    else none
  | .replay response =>
    if ∃ h ∈ b.live input.toEntryKey now,
        h.fingerprint = input.fingerprint ∧ h.response = some response then some b
    else none
  | .mismatch =>
    if ∃ h ∈ b.live input.toEntryKey now, h.fingerprint ≠ input.fingerprint then some b else none
  | .inFlight =>
    if ∃ h ∈ b.live input.toEntryKey now,
        h.fingerprint = input.fingerprint ∧ h.response = none then some b
    else none
  | .capacity => if b.live input.toEntryKey now = none then some b else none

/-- A pending reservation takes its result; one that has its result may take another. -/
def complete (input : CompletionInput) (now : T) : Bool → Option (Book T)
  | true =>
    if (b.owned input.toEntryKey input.reservation now).isSome then
      some <| b.update input.reservation fun h =>
        { h with response := some input.response, expiresAt := now + h.ttlMs }
    else none
  | false => if b.pending input.toEntryKey input.reservation now = none then some b else none

omit [Add T] in
def abandon (input : AbandonInput) (now : T) (accepted : Bool) : Option (Book T) :=
  if (b.pending input.toEntryKey input.reservation now).isSome = accepted then
    some <| if accepted then
      b.update input.reservation fun h => { h with abandonedAt := some now }
    else b
  else none

def renew (input : RenewInput T) (now : T) (accepted : Bool) : Option (Book T) :=
  if (b.pending input.toEntryKey input.reservation now).isSome = accepted then
    some <| if accepted then
      b.update input.reservation fun h => { h with expiresAt := now + input.ttlMs }
    else b
  else none

/-- The book after an operation that was answered so, if the contract allows the answer. -/
def perform : StoreOp T → T → StoreAnswer → Option (Book T)
  | .begin input, now, .begun result => b.begin input now result
  | .complete input, now, .settled accepted => b.complete input now accepted
  | .abandon input, now, .settled accepted => b.abandon input now accepted
  | .renew input, now, .settled accepted => b.renew input now accepted
  | _, _, _ => none

end Book

/-- The reservation was abandoned, or has expired: its lease has lapsed or its result is not kept
any longer. -/
def Holding.Ended [LE T] (h : Holding T) (now : T) : Prop :=
  (∃ t, h.abandonedAt = some t ∧ t ≤ now) ∨ h.expiresAt ≤ now

section Contract
variable [LinearOrder T] {h h' : Holding T} {b b' : Book T} {now t : T} {k : EntryKey}
  {r : JSString}

theorem Holding.Ended.mono (hh : h.Ended t) (hle : t ≤ now) : h.Ended now := by
  rcases hh with ⟨u, hu, hut⟩ | hexpired
  · exact Or.inl ⟨u, hu, hut.trans hle⟩
  · exact Or.inr (hexpired.trans hle)

namespace Book

/-- One reservation of a key after the other: each had ended when the next was given out. -/
structure Ordered (b : Book T) (now : T) : Prop where
  granted : ∀ h ∈ b, h.grantedAt ≤ now
  abandoned : ∀ h ∈ b, ∀ t, h.abandonedAt = some t → t ≤ now
  unique : (b.map Holding.reservation).Nodup
  exclusive : b.Pairwise fun h' h => h'.entryKey = h.entryKey →
    h.grantedAt ≤ h'.grantedAt ∧ h.Ended h'.grantedAt

theorem Ordered.empty : Ordered ([] : Book T) now :=
  ⟨nofun, nofun, List.nodup_nil, List.Pairwise.nil⟩

theorem Ordered.mono (hb : b.Ordered t) (hle : t ≤ now) : b.Ordered now :=
  ⟨fun h hh => (hb.granted h hh).trans hle, fun h hh u hu => (hb.abandoned h hh u hu).trans hle,
    hb.unique, hb.exclusive⟩

theorem live_eq_some (hlive : b.live k now = some h) :
    h ∈ b ∧ h.entryKey = k ∧ h.abandonedAt = none ∧ now < h.expiresAt := by
  obtain ⟨hfind, hopen⟩ := Option.filter_eq_some_iff.mp hlive
  simp only [decide_eq_true_eq] at hopen
  exact ⟨List.mem_of_find?_eq_some hfind, by simpa using List.find?_some hfind, hopen⟩

theorem not_ended_of_live (hlive : b.live k now = some h) : ¬ h.Ended now := by
  obtain ⟨-, -, habandoned, hexpires⟩ := live_eq_some hlive
  rintro (⟨t, ht, -⟩ | hexpired)
  · rw [habandoned] at ht
    cases ht
  · exact absurd hexpires (not_lt.mpr hexpired)

theorem ended_of_not_live (hb : b.Ordered now) (hlive : b.live k now = none) (hh : h ∈ b)
    (hk : h.entryKey = k) : h.Ended now := by
  cases hfind : b.find? fun h => h.entryKey = k with
  | none =>
    have := List.find?_eq_none.mp hfind h hh
    simp [hk] at this
  | some h₀ =>
    have hended : h₀.Ended now := by
      rw [live, hfind, Option.filter_some] at hlive
      split_ifs at hlive with hopen
      simp only [decide_eq_true_eq, not_and_or, not_lt] at hopen
      rcases hopen with hopen | hexpired
      · obtain ⟨t, ht⟩ := Option.ne_none_iff_exists'.mp hopen
        exact Or.inl ⟨t, ht, hb.abandoned h₀ (List.mem_of_find?_eq_some hfind) t ht⟩
      · exact Or.inr hexpired
    obtain ⟨hkey, as, bs, hsplit, has⟩ := List.find?_eq_some_iff_append.mp hfind
    rw [hsplit] at hh
    rcases List.mem_append.mp hh with hmem | hmem
    · have := has h hmem
      simp [hk] at this
    · rcases List.mem_cons.mp hmem with rfl | hmem
      · exact hended
      · have hexclusive := hb.exclusive
        rw [hsplit] at hexclusive
        have hpair := List.rel_of_pairwise_cons (List.pairwise_append.mp hexclusive).2.1 hmem
        have hkey : h₀.entryKey = k := by simpa using hkey
        refine (hpair (by rw [hkey, hk])).2.mono (hb.granted h₀ ?_)
        rw [hsplit]
        simp

theorem Ordered.cons (hb : b.Ordered now) (hlive : b.live h.entryKey now = none)
    (hfresh : ∀ h' ∈ b, h'.reservation ≠ h.reservation) (hgranted : h.grantedAt = now)
    (hopen : h.abandonedAt = none) : Ordered (h :: b) now := by
  constructor
  · intro h' hh'
    rcases List.mem_cons.mp hh' with rfl | hh'
    · exact hgranted.le
    · exact hb.granted h' hh'
  · intro h' hh' t ht
    rcases List.mem_cons.mp hh' with rfl | hh'
    · rw [hopen] at ht
      cases ht
    · exact hb.abandoned h' hh' t ht
  · rw [List.map_cons, List.nodup_cons]
    refine ⟨fun hmem => ?_, hb.unique⟩
    obtain ⟨h', hh', heq⟩ := List.mem_map.mp hmem
    exact hfresh h' hh' heq
  · refine List.pairwise_cons.mpr ⟨fun h' hh' hk => ?_, hb.exclusive⟩
    rw [hgranted]
    exact ⟨hb.granted h' hh', ended_of_not_live hb hlive hh' hk.symm⟩

theorem Ordered.update (hb : b.Ordered now) (hlive : b.live k now = some h)
    {change : Holding T → Holding T} (hkey : ∀ h, (change h).entryKey = h.entryKey)
    (hreservation : ∀ h, (change h).reservation = h.reservation)
    (hgranted : ∀ h, (change h).grantedAt = h.grantedAt)
    (habandoned : ∀ h t, (change h).abandonedAt = some t → h.abandonedAt = some t ∨ t = now) :
    Ordered (b.update h.reservation change) now := by
  have hfield : ∀ h', (if h'.reservation = h.reservation then change h' else h').entryKey =
      h'.entryKey ∧ (if h'.reservation = h.reservation then change h' else h').reservation =
      h'.reservation ∧ (if h'.reservation = h.reservation then change h' else h').grantedAt =
      h'.grantedAt := by
    intro h'
    split_ifs
    · exact ⟨hkey h', hreservation h', hgranted h'⟩
    · exact ⟨rfl, rfl, rfl⟩
  constructor
  · intro x hx
    obtain ⟨h', hh', rfl⟩ := List.mem_map.mp hx
    rw [(hfield h').2.2]
    exact hb.granted h' hh'
  · intro x hx t ht
    obtain ⟨h', hh', rfl⟩ := List.mem_map.mp hx
    split_ifs at ht
    · rcases habandoned h' t ht with ht | rfl
      · exact hb.abandoned h' hh' t ht
      · exact le_rfl
    · exact hb.abandoned h' hh' t ht
  · have hmap : (b.update h.reservation change).map Holding.reservation =
        b.map Holding.reservation := by
      rw [Book.update, List.map_map]
      exact List.map_congr_left fun h' _ => (hfield h').2.1
    rw [hmap]
    exact hb.unique
  · rw [Book.update, List.pairwise_map]
    refine hb.exclusive.imp_of_mem ?_
    intro h₁ h₂ hh₁ hh₂ hpair hsame
    rw [(hfield h₁).1, (hfield h₂).1] at hsame
    rw [(hfield h₁).2.2, (hfield h₂).2.2]
    obtain ⟨hle, hended⟩ := hpair hsame
    refine ⟨hle, ?_⟩
    rw [if_neg]
    · exact hended
    · intro hown
      have heq : h₂ = h :=
        List.inj_on_of_nodup_map hb.unique hh₂ (live_eq_some hlive).1 hown
      exact not_ended_of_live hlive (heq ▸ hended.mono (hb.granted h₁ hh₁))

def Gave (b : Book T) (k : EntryKey) (r : JSString) : Prop :=
  ∃ h ∈ b, h.entryKey = k ∧ h.reservation = r

omit [LinearOrder T] in
theorem Gave.update {r' : JSString} {change : Holding T → Holding T}
    (hkey : ∀ h, (change h).entryKey = h.entryKey)
    (hreservation : ∀ h, (change h).reservation = h.reservation) (hgave : b.Gave k r) :
    (b.update r' change).Gave k r := by
  obtain ⟨h, hh, rfl, rfl⟩ := hgave
  refine ⟨_, List.mem_map_of_mem hh, ?_⟩
  split_ifs
  · exact ⟨hkey h, hreservation h⟩
  · exact ⟨rfl, rfl⟩

theorem live_of_owned (howned : b.owned k r now = some h) :
    b.live k now = some h ∧ h.reservation = r := by
  obtain ⟨hlive, hr⟩ := Option.filter_eq_some_iff.mp howned
  exact ⟨hlive, by simpa using hr⟩

theorem live_of_pending (hpending : b.pending k r now = some h) :
    b.live k now = some h ∧ h.reservation = r :=
  live_of_owned (Option.filter_eq_some_iff.mp hpending).1

structure Follows (b b' : Book T) (now : T) : Prop where
  ordered : b.Ordered now → b'.Ordered now
  gave : ∀ k r, b.Gave k r → b'.Gave k r

theorem Follows.refl : b.Follows b now := ⟨id, fun _ _ => id⟩

theorem Follows.update (hlive : b.live k now = some h) {change : Holding T → Holding T}
    (hkey : ∀ h, (change h).entryKey = h.entryKey)
    (hreservation : ∀ h, (change h).reservation = h.reservation)
    (hgranted : ∀ h, (change h).grantedAt = h.grantedAt)
    (habandoned : ∀ h t, (change h).abandonedAt = some t → h.abandonedAt = some t ∨ t = now) :
    b.Follows (b.update h.reservation change) now :=
  ⟨fun hb => hb.update hlive hkey hreservation hgranted habandoned,
    fun _ _ => Gave.update hkey hreservation⟩

variable [Add T]

theorem begin_follows {input : BeginInput T} {result : BeginResult}
    (hbegin : b.begin input now result = some b') : b.Follows b' now := by
  cases result with
  | new reservation =>
    simp only [begin] at hbegin
    split_ifs at hbegin with hguard
    obtain rfl := Option.some.inj hbegin
    refine ⟨fun hb => hb.cons hguard.1 hguard.2 rfl rfl, ?_⟩
    rintro k r ⟨h, hh, hk, hr⟩
    exact ⟨h, List.mem_cons_of_mem _ hh, hk, hr⟩
  | replay | mismatch | inFlight | capacity =>
    simp only [begin] at hbegin
    split_ifs at hbegin
    obtain rfl := Option.some.inj hbegin
    exact .refl

theorem begin_gives {input : BeginInput T}
    (hbegin : b.begin input now (.new r) = some b') :
    b'.Gave input.toEntryKey r ∧ ∀ k, ¬ b.Gave k r := by
  simp only [begin] at hbegin
  split_ifs at hbegin with hguard
  obtain rfl := Option.some.inj hbegin
  refine ⟨⟨_, List.mem_cons_self, rfl, rfl⟩, ?_⟩
  rintro k ⟨h, hh, -, hr⟩
  exact hguard.2 h hh hr

theorem complete_follows {input : CompletionInput} {accepted : Bool}
    (hcomplete : b.complete input now accepted = some b') : b.Follows b' now := by
  cases accepted with
  | true =>
    simp only [complete] at hcomplete
    split_ifs at hcomplete with howned
    obtain rfl := Option.some.inj hcomplete
    obtain ⟨h, hh⟩ := Option.isSome_iff_exists.mp howned
    obtain ⟨hlive, hr⟩ := live_of_owned hh
    rw [← hr]
    exact .update hlive (fun _ => rfl) (fun _ => rfl) (fun _ => rfl) fun _ _ => Or.inl
  | false =>
    simp only [complete] at hcomplete
    split_ifs at hcomplete
    obtain rfl := Option.some.inj hcomplete
    exact .refl

omit [Add T] in
theorem abandon_follows {input : AbandonInput} {accepted : Bool}
    (habandon : b.abandon input now accepted = some b') : b.Follows b' now := by
  simp only [abandon] at habandon
  split_ifs at habandon with hpending haccepted
  · obtain rfl := Option.some.inj habandon
    obtain ⟨h, hh⟩ := Option.isSome_iff_exists.mp (hpending.trans haccepted)
    obtain ⟨hlive, hr⟩ := live_of_pending hh
    rw [← hr]
    refine .update hlive (fun _ => rfl) (fun _ => rfl) (fun _ => rfl) fun _ t ht => Or.inr ?_
    exact (Option.some.inj ht).symm
  · obtain rfl := Option.some.inj habandon
    exact .refl

theorem renew_follows {input : RenewInput T} {accepted : Bool}
    (hrenew : b.renew input now accepted = some b') : b.Follows b' now := by
  simp only [renew] at hrenew
  split_ifs at hrenew with hpending haccepted
  · obtain rfl := Option.some.inj hrenew
    obtain ⟨h, hh⟩ := Option.isSome_iff_exists.mp (hpending.trans haccepted)
    obtain ⟨hlive, hr⟩ := live_of_pending hh
    rw [← hr]
    exact .update hlive (fun _ => rfl) (fun _ => rfl) (fun _ => rfl) fun _ _ => Or.inl
  · obtain rfl := Option.some.inj hrenew
    exact .refl

theorem perform_follows {op : StoreOp T} {answer : StoreAnswer}
    (hperform : b.perform op now answer = some b') : b.Follows b' now := by
  unfold perform at hperform
  split at hperform
  · exact begin_follows hperform
  · exact complete_follows hperform
  · exact abandon_follows hperform
  · exact renew_follows hperform
  · cases hperform

/-- The first reservation was given out before the second one, and had ended by then. -/
def Precedes (b : Book T) (r r' : JSString) : Prop :=
  ∃ h ∈ b, ∃ h' ∈ b, h.reservation = r ∧ h'.reservation = r' ∧ h.grantedAt ≤ h'.grantedAt ∧
    h.Ended h'.grantedAt

omit [Add T] in
theorem Ordered.precedes (hb : b.Ordered now) {r' : JSString} (hne : r ≠ r')
    (hr : b.Gave k r) (hr' : b.Gave k r') : b.Precedes r r' ∨ b.Precedes r' r := by
  obtain ⟨h, hh, hk, rfl⟩ := hr
  obtain ⟨h', hh', hk', rfl⟩ := hr'
  let After (x y : Holding T) : Prop :=
    x.entryKey = y.entryKey → y.grantedAt ≤ x.grantedAt ∧ y.Ended x.grantedAt
  have hpair : h ≠ h' → After h h' ∨ After h' h :=
    List.Pairwise.forall_of_forall_of_flip (R := fun x y => x ≠ y → After x y ∨ After y x)
      (fun x _ hx => absurd rfl hx) (hb.exclusive.imp fun hxy _ => Or.inl hxy)
      (hb.exclusive.imp fun hxy _ => Or.inr hxy) hh hh'
  have hdiff : h ≠ h' := fun heq => hne (heq ▸ rfl)
  rcases hpair hdiff with hpair | hpair
  · exact Or.inr ⟨h', hh', h, hh, rfl, rfl, hpair (hk.trans hk'.symm)⟩
  · exact Or.inl ⟨h, hh, h', hh', rfl, rfl, hpair (hk'.trans hk.symm)⟩

end Book

end Contract

end Nifra.Idempotency
