import Mathlib.Data.List.Nodup
import Nifra.Channels.Continuity

/-! # Members of the subscriber sets

A subscription is a member of one set while it is open, of the set that its channel maps to, and of
none when it is closed. Closing the last member of a set takes the set away from its channel.
-/

namespace Nifra.Channels

variable {Message : Type*} {hub : MemoryHub Message} {sub : MemorySubscription Message} {k : ℕ}
  {f : MemorySubscription Message → MemorySubscription Message}

/-- A method of a subscription: its channel, its set and its cursor stay, and one that is closed
stays closed for the same reason. -/
structure Method (f : MemorySubscription Message → MemorySubscription Message) : Prop where
  channel : ∀ sub, (f sub).channel = sub.channel
  members : ∀ sub, (f sub).members = sub.members
  since : ∀ sub, (f sub).since = sub.since
  closed : ∀ sub, sub.isClosed → (f sub).isClosed ∧ (f sub).reason = sub.reason

theorem method_close (reason : ChannelCloseReason) :
    Method fun sub : MemorySubscription Message => sub.close reason := by
  constructor <;> intro sub <;> unfold MemorySubscription.close
  · split <;> rfl
  · split <;> rfl
  · split <;> rfl
  · intro h
    rw [if_pos h]
    exact ⟨h, rfl⟩

theorem method_push (event : ChannelEvent Message) :
    Method fun sub : MemorySubscription Message => sub.push event := by
  have hclose : Method fun sub : MemorySubscription Message => sub.close .backpressure :=
    method_close .backpressure
  constructor <;> intro sub <;> unfold MemorySubscription.push
  · split
    · rfl
    · split
      · rfl
      · split
        · exact hclose.channel sub
        · rfl
  · split
    · rfl
    · split
      · rfl
      · split
        · exact hclose.members sub
        · rfl
  · split
    · rfl
    · split
      · rfl
      · split
        · exact hclose.since sub
        · rfl
  · intro h
    rw [if_pos h]
    exact ⟨h, rfl⟩

theorem method_next : Method fun sub : MemorySubscription Message => sub.next := by
  constructor <;> intro sub <;> unfold MemorySubscription.next
  · split
    · rfl
    · split <;> rfl
  · split
    · rfl
    · split <;> rfl
  · split
    · rfl
    · split <;> rfl
  · intro h
    split
    · exact ⟨h, rfl⟩
    · rw [if_pos h]
      exact ⟨h, rfl⟩

namespace MemoryHub

def setOf (hub : MemoryHub Message) (m : ℕ) : List ℕ := hub.sets.getD m []

structure Membership (hub : MemoryHub Message) : Prop where
  joined : ∀ k sub, hub.subscriptions[k]? = some sub → sub.isClosed = false →
    hub.subscribers sub.channel = some sub.members ∧ k ∈ hub.setOf sub.members
  member : ∀ m, ∀ k ∈ hub.setOf m,
    ∃ sub, hub.subscriptions[k]? = some sub ∧ sub.isClosed = false ∧ sub.members = m
  nodup : ∀ m, (hub.setOf m).Nodup
  named : ∀ channel m, hub.subscribers channel = some m → m < hub.sets.length
  apart : ∀ channel other m, hub.subscribers channel = some m → hub.subscribers other = some m →
    channel = other

@[simp] theorem update_published : (hub.update k f).published = hub.published := by
  unfold update
  split
  · rfl
  · dsimp only
    split <;> rfl

@[simp] theorem update_sequences : (hub.update k f).sequences = hub.sequences := by
  unfold update
  split
  · rfl
  · dsimp only
    split <;> rfl

@[simp] theorem update_history : (hub.update k f).history = hub.history := by
  unfold update
  split
  · rfl
  · dsimp only
    split <;> rfl

@[simp] theorem update_historySize : (hub.update k f).historySize = hub.historySize := by
  unfold update
  split
  · rfl
  · dsimp only
    split <;> rfl

theorem update_subscriptions (hub : MemoryHub Message) (k : ℕ)
    (f : MemorySubscription Message → MemorySubscription Message) (j : ℕ) :
    (hub.update k f).subscriptions[j]? =
      if k = j then hub.subscriptions[j]?.map f else hub.subscriptions[j]? := by
  unfold update
  cases hsub : hub.subscriptions[k]? with
  | none =>
    dsimp only
    by_cases heq : k = j
    · rw [if_pos heq, ← heq, hsub]
      rfl
    · rw [if_neg heq]
  | some sub =>
    have hchanged : (if sub.isClosed = false ∧ (f sub).isClosed then
        { hub with subscriptions := hub.subscriptions.set k (f sub) }.remove k sub
        else { hub with subscriptions := hub.subscriptions.set k (f sub) }).subscriptions =
          hub.subscriptions.set k (f sub) := by
      split <;> rfl
    dsimp only
    rw [hchanged, List.getElem?_set]
    split
    · next heq =>
      rw [← heq, hsub, if_pos (List.getElem?_eq_some_iff.mp hsub).1]
      rfl
    · rfl

theorem getD_set {sets : List (List ℕ)} {m : ℕ} (hm : m < sets.length) (set : List ℕ) (i : ℕ) :
    (sets.set m set).getD i [] = if m = i then set else sets.getD i [] := by
  rw [List.getD_eq_getElem?_getD, List.getElem?_set, List.getD_eq_getElem?_getD]
  split
  · rfl
  · rfl

theorem lt_of_mem_setOf {m : ℕ} (hk : k ∈ hub.setOf m) : m < hub.sets.length := by
  by_contra hlt
  rw [setOf, List.getD_eq_getElem?_getD, List.getElem?_eq_none (by omega)] at hk
  cases hk

theorem Membership.channel_of_mem (h : hub.Membership) {channel : JSString} {m : ℕ}
    (hm : hub.subscribers channel = some m) (hk : k ∈ hub.setOf m) :
    ∃ sub, hub.subscriptions[k]? = some sub ∧ sub.channel = channel := by
  obtain ⟨sub, hsub, hopen, hmembers⟩ := h.member m k hk
  obtain ⟨hjoined, -⟩ := h.joined k sub hsub hopen
  rw [hmembers] at hjoined
  exact ⟨sub, hsub, h.apart _ _ m hjoined hm⟩

theorem Membership.leave (h : hub.Membership) {next : MemorySubscription Message}
    (hsub : hub.subscriptions[k]? = some sub) (hopen : sub.isClosed = false)
    (hclosed : next.isClosed) :
    ({ hub with subscriptions := hub.subscriptions.set k next }.remove k sub).Membership := by
  have hlt := (List.getElem?_eq_some_iff.mp hsub).1
  obtain ⟨hchannel, hk⟩ := h.joined k sub hsub hopen
  have hsets (i : ℕ) : (hub.sets.set sub.members
      ((hub.sets.getD sub.members []).erase k)).getD i [] =
        if sub.members = i then (hub.setOf sub.members).erase k else hub.setOf i :=
    getD_set (lt_of_mem_setOf hk) _ i
  -- the channel may lose its set
  have hsome : ∀ channel m, (if (hub.sets.getD sub.members []).erase k = [] then
      Function.update hub.subscribers sub.channel none else hub.subscribers) channel = some m →
        hub.subscribers channel = some m := by
    intro channel m hm
    split at hm
    · by_cases hsame : channel = sub.channel
      · rw [hsame, Function.update_self] at hm
        cases hm
      · rwa [Function.update_of_ne hsame] at hm
    · exact hm
  constructor
  · intro j other hj hother
    simp only [MemoryHub.remove, setOf] at hj ⊢
    rw [hsets]
    by_cases hne : k = j
    · rw [hne, List.getElem?_set_self (hne ▸ hlt)] at hj
      obtain rfl := Option.some.inj hj
      rw [hclosed] at hother
      cases hother
    · rw [List.getElem?_set_ne hne] at hj
      obtain ⟨hjoined, hmem⟩ := h.joined j other hj hother
      have hstays : sub.members = other.members → j ∈ (hub.setOf sub.members).erase k := by
        intro heq
        rw [heq]
        exact (List.mem_erase_of_ne (Ne.symm hne)).mpr hmem
      constructor
      · split
        · next hempty =>
          by_cases hsame : other.channel = sub.channel
          · rw [hsame, hchannel] at hjoined
            have hj := hstays (Option.some.inj hjoined)
            rw [setOf, hempty] at hj
            cases hj
          · rw [Function.update_of_ne hsame]
            exact hjoined
        · exact hjoined
      · split
        · exact hstays ‹_›
        · exact hmem
  · intro m j hj
    simp only [MemoryHub.remove, setOf] at hj ⊢
    rw [hsets] at hj
    have hne : k ≠ j := by
      rintro rfl
      split at hj
      · exact (List.Nodup.not_mem_erase (h.nodup sub.members)) hj
      · next hother =>
        obtain ⟨again, hagain, -, heq⟩ := h.member m k hj
        rw [hsub] at hagain
        obtain rfl := Option.some.inj hagain
        exact hother heq
    rw [List.getElem?_set_ne hne]
    split at hj
    · next heq =>
      rw [← heq]
      exact h.member sub.members j (List.mem_of_mem_erase hj)
    · exact h.member m j hj
  · intro m
    simp only [MemoryHub.remove, setOf]
    rw [hsets]
    split
    · exact (h.nodup sub.members).erase k
    · exact h.nodup m
  · intro channel m hm
    simp only [MemoryHub.remove] at hm ⊢
    rw [List.length_set]
    exact h.named channel m (hsome channel m hm)
  · intro channel other m hone htwo
    exact h.apart channel other m (hsome channel m hone) (hsome other m htwo)

theorem Membership.stay (h : hub.Membership) {next : MemorySubscription Message}
    (hsub : hub.subscriptions[k]? = some sub) (hchannel : next.channel = sub.channel)
    (hmembers : next.members = sub.members) (hclosed : next.isClosed = sub.isClosed) :
    { hub with subscriptions := hub.subscriptions.set k next }.Membership := by
  have hlt := (List.getElem?_eq_some_iff.mp hsub).1
  constructor
  · intro j other hj hopen
    by_cases heq : k = j
    · rw [heq, List.getElem?_set_self (heq ▸ hlt)] at hj
      obtain rfl := Option.some.inj hj
      rw [hchannel, hmembers, ← heq]
      rw [hclosed] at hopen
      exact h.joined k sub hsub hopen
    · rw [List.getElem?_set_ne heq] at hj
      exact h.joined j other hj hopen
  · intro m j hj
    obtain ⟨other, hother, hopen, hm⟩ := h.member m j hj
    by_cases heq : k = j
    · rw [← heq, hsub] at hother
      obtain rfl := Option.some.inj hother
      refine ⟨next, by rw [← heq, List.getElem?_set_self hlt], ?_, hmembers.trans hm⟩
      rw [hclosed]
      exact hopen
    · exact ⟨other, by rw [List.getElem?_set_ne heq]; exact hother, hopen, hm⟩
  · exact h.nodup
  · exact h.named
  · exact h.apart

theorem Membership.update (h : hub.Membership) (hf : Method f) (k : ℕ) :
    (hub.update k f).Membership := by
  unfold MemoryHub.update
  cases hsub : hub.subscriptions[k]? with
  | none => exact h
  | some sub =>
    dsimp only
    split
    · next hcloses => exact h.leave hsub hcloses.1 hcloses.2
    · next hstays =>
      have hsame : (f sub).isClosed = sub.isClosed := by
        cases hclosed : sub.isClosed with
        | true => exact (hf.closed sub hclosed).1
        | false => simpa [hclosed] using hstays
      exact h.stay hsub (hf.channel sub) (hf.members sub) hsame

theorem enter_spec (hub : MemoryHub Message) (channel : JSString) :
    (hub.enter channel).1.subscriptions = hub.subscriptions ∧
      (hub.enter channel).1.published = hub.published ∧
      (hub.enter channel).1.sequences = hub.sequences ∧
      (hub.enter channel).1.history = hub.history ∧
      (hub.enter channel).1.historySize = hub.historySize ∧
      (hub.enter channel).1.subscribers channel = some (hub.enter channel).2 := by
  unfold enter
  split
  · next members hmembers => exact ⟨rfl, rfl, rfl, rfl, rfl, hmembers⟩
  · exact ⟨rfl, rfl, rfl, rfl, rfl, Function.update_self _ _ _⟩

theorem Membership.enter (h : hub.Membership) (channel : JSString) :
    (hub.enter channel).1.Membership := by
  unfold MemoryHub.enter
  split
  · exact h
  · next hnone =>
    -- an empty set, which no subscription has yet
    have hsets (m : ℕ) : (hub.sets ++ [[]]).getD m [] = hub.setOf m := by
      rw [setOf, List.getD_eq_getElem?_getD, List.getD_eq_getElem?_getD, List.getElem?_append]
      split
      · rfl
      · rw [List.getElem?_eq_none (by omega : hub.sets.length ≤ m), List.getElem?_singleton]
        split <;> rfl
    have hne : ∀ other m, hub.subscribers other = some m → other ≠ channel := by
      rintro other m hm rfl
      rw [hnone] at hm
      cases hm
    constructor <;> dsimp only
    · intro k sub hsub hopen
      obtain ⟨hjoined, hk⟩ := h.joined k sub hsub hopen
      refine ⟨?_, ?_⟩
      · rw [Function.update_of_ne (hne _ _ hjoined)]
        exact hjoined
      · rw [setOf, hsets]
        exact hk
    · intro m k hk
      rw [setOf, hsets] at hk
      exact h.member m k hk
    · intro m
      rw [setOf, hsets]
      exact h.nodup m
    · intro other m hm
      rw [List.length_append, List.length_singleton]
      by_cases heq : other = channel
      · rw [heq, Function.update_self] at hm
        obtain rfl := Option.some.inj hm
        exact Nat.lt_succ_self _
      · rw [Function.update_of_ne heq] at hm
        exact Nat.lt_succ_of_lt (h.named other m hm)
    · intro one two m hone htwo
      by_cases heq : one = channel
      · by_cases heq' : two = channel
        · exact heq.trans heq'.symm
        · rw [heq, Function.update_self] at hone
          rw [Function.update_of_ne heq'] at htwo
          obtain rfl := Option.some.inj hone
          exact absurd (h.named two _ htwo) (Nat.lt_irrefl _)
      · rw [Function.update_of_ne heq] at hone
        by_cases heq' : two = channel
        · rw [heq', Function.update_self] at htwo
          obtain rfl := Option.some.inj htwo
          exact absurd (h.named one _ hone) (Nat.lt_irrefl _)
        · rw [Function.update_of_ne heq'] at htwo
          exact h.apart one two m hone htwo

theorem Membership.add (h : hub.Membership) (hopen : sub.isClosed = false)
    (hmembers : hub.subscribers sub.channel = some sub.members) : (hub.add sub).Membership := by
  have hm := h.named _ _ hmembers
  have hsets (m : ℕ) : (hub.add sub).setOf m = if sub.members = m then
      hub.setOf sub.members ++ [hub.subscriptions.length] else hub.setOf m := getD_set hm _ m
  have hold : ∀ m, ∀ k ∈ hub.setOf m, k < hub.subscriptions.length := by
    intro m k hk
    obtain ⟨other, hother, -⟩ := h.member m k hk
    exact (List.getElem?_eq_some_iff.mp hother).1
  have hmem : ∀ m, ∀ k ∈ hub.setOf m, k ∈ (hub.add sub).setOf m := by
    intro m k hk
    rw [hsets]
    split
    · next heq =>
      rw [heq]
      exact List.mem_append_left _ hk
    · exact hk
  constructor
  · intro k other hother hopen'
    rw [MemoryHub.add, List.getElem?_append] at hother
    split at hother
    · obtain ⟨hjoined, hk⟩ := h.joined k other hother hopen'
      exact ⟨hjoined, hmem _ k hk⟩
    · next hlt =>
      rw [List.getElem?_singleton] at hother
      split at hother
      · next heq =>
        obtain rfl := Option.some.inj hother
        refine ⟨hmembers, ?_⟩
        rw [hsets, if_pos rfl, show k = hub.subscriptions.length by omega]
        exact List.mem_append_right _ (List.mem_singleton_self _)
      · cases hother
  · intro m k hk
    have hcases : k ∈ hub.setOf m ∨ sub.members = m ∧ k = hub.subscriptions.length := by
      rw [hsets] at hk
      split at hk
      · next heq =>
        rcases List.mem_append.mp hk with hk | hk
        · rw [heq] at hk
          exact Or.inl hk
        · exact Or.inr ⟨heq, List.mem_singleton.mp hk⟩
      · exact Or.inl hk
    rcases hcases with hk | ⟨heq, rfl⟩
    · obtain ⟨other, hother, hrest⟩ := h.member m k hk
      refine ⟨other, ?_, hrest⟩
      rw [MemoryHub.add, List.getElem?_append_left (hold m k hk)]
      exact hother
    · refine ⟨sub, ?_, hopen, heq⟩
      rw [MemoryHub.add, List.getElem?_append_right (Nat.le_refl _), Nat.sub_self]
      rfl
  · intro m
    rw [hsets]
    split
    · refine List.nodup_append.mpr ⟨h.nodup _, List.nodup_singleton _, ?_⟩
      rintro k hk last hlast rfl
      obtain rfl := List.mem_singleton.mp hlast
      exact Nat.lt_irrefl _ (hold _ _ hk)
    · exact h.nodup m
  · intro channel m hm
    rw [MemoryHub.add, List.length_set]
    exact h.named channel m hm
  · exact h.apart

theorem Membership.updateAll (h : hub.Membership) (hf : Method f) (ks : List ℕ) :
    (hub.updateAll ks f).Membership := by
  induction ks generalizing hub with
  | nil => exact h
  | cons k ks ih => exact ih (h.update hf k)

theorem updateAll_subscriptions (hub : MemoryHub Message) {ks : List ℕ} (hks : ks.Nodup)
    (f : MemorySubscription Message → MemorySubscription Message) (j : ℕ) :
    (hub.updateAll ks f).subscriptions[j]? =
      if j ∈ ks then hub.subscriptions[j]?.map f else hub.subscriptions[j]? := by
  induction ks generalizing hub with
  | nil => rfl
  | cons k ks ih =>
    obtain ⟨hk, hks⟩ := List.nodup_cons.mp hks
    have hrest := ih (hub.update k f) hks
    rw [update_subscriptions] at hrest
    refine hrest.trans ?_
    by_cases heq : k = j
    · rw [← heq, if_neg hk, if_pos rfl, if_pos List.mem_cons_self]
    · rw [if_neg heq]
      simp only [List.mem_cons, Ne.symm heq, false_or]

theorem updateAll_kept (hub : MemoryHub Message) (ks : List ℕ)
    (f : MemorySubscription Message → MemorySubscription Message) :
    (hub.updateAll ks f).published = hub.published ∧
      (hub.updateAll ks f).sequences = hub.sequences ∧
      (hub.updateAll ks f).history = hub.history ∧
      (hub.updateAll ks f).historySize = hub.historySize := by
  induction ks generalizing hub with
  | nil => exact ⟨rfl, rfl, rfl, rfl⟩
  | cons k ks ih =>
    obtain ⟨hpublished, hsequences, hhistory, hsize⟩ := ih (hub.update k f)
    exact ⟨hpublished.trans update_published, hsequences.trans update_sequences,
      hhistory.trans update_history, hsize.trans update_historySize⟩

end MemoryHub

end Nifra.Channels
