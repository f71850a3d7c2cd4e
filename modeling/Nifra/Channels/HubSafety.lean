import Mathlib.Data.Nat.Digits.Lemmas
import Nifra.Channels.HubMembers

/-! # Subscribers miss nothing without being told

The history of a channel is an end of what it has published, so a token is refused or the events
after it are queued, and a token names one event of one channel.
-/

namespace Nifra.Channels

variable {Message : Type*} {hub : MemoryHub Message} {sub : MemorySubscription Message}
  {channel : JSString} {published : List (ChannelEvent Message)}

theorem value36_digit36 {d : ℕ} (h : d < 36) : value36 (digit36 d) = some d := by
  unfold value36 digit36
  split
  · rw [if_pos (by omega), Nat.add_sub_cancel_left]
  · rw [if_neg (by omega), if_pos (by omega), Nat.add_sub_cancel_left]

theorem radix36_eq (n : ℕ) : ∃ digits, radix36 n = digits.map digit36 ∧ (∀ d ∈ digits, d < 36) ∧
    digits ≠ [] ∧ Nat.ofDigits 36 digits.reverse = n := by
  unfold radix36
  split
  · next h =>
    refine ⟨[0], rfl, by simp, List.cons_ne_nil _ _, ?_⟩
    simp [h]
  · next h =>
    refine ⟨(Nat.digits 36 n).reverse, rfl, ?_, ?_, ?_⟩
    · intro d hd
      exact Nat.digits_lt_base (by omega) (List.mem_reverse.mp hd)
    · rw [Ne, List.reverse_eq_nil_iff]
      exact Nat.digits_ne_nil_iff_ne_zero.mpr h
    · rw [List.reverse_reverse, Nat.ofDigits_digits]

theorem mapM_value36 {digits : List ℕ} (h : ∀ d ∈ digits, d < 36) :
    (digits.map digit36).mapM value36 = some digits := by
  induction digits with
  | nil => rfl
  | cons d digits ih =>
    obtain ⟨hd, hrest⟩ := List.forall_mem_cons.mp h
    simp [List.mapM_cons, value36_digit36 hd, ih hrest]

theorem mem_of_mapM_value36 {s : JSString} {values : List ℕ} (h : s.mapM value36 = some values) :
    58 ∉ s := by
  induction s generalizing values with
  | nil => exact List.not_mem_nil
  | cons c s ih =>
    rw [List.mapM_cons] at h
    obtain ⟨value, hvalue, h⟩ := Option.bind_eq_some_iff.mp h
    obtain ⟨rest, hrest, -⟩ := Option.bind_eq_some_iff.mp h
    rw [List.mem_cons, not_or]
    refine ⟨?_, ih hrest⟩
    rintro rfl
    cases hvalue

theorem sequenceOf_tokenFor (channel : JSString) {n : ℕ} (hn : 0 < n) (hsafe : isSafeInteger n) :
    sequenceOf channel (tokenFor channel n) = some n := by
  obtain ⟨digits, heq, hlt, hne, hvalue⟩ := radix36_eq n
  have hstart : (channel ++ [58]) <+: tokenFor channel n :=
    ⟨radix36 n, by rw [tokenFor, List.append_assoc, List.singleton_append]⟩
  have hdrop : (tokenFor channel n).drop (channel.length + 1) = radix36 n := by
    rw [tokenFor, ← List.drop_drop, List.drop_left, List.drop_one, List.tail_cons]
  have hsome : radix36 n ≠ [] := by
    rw [heq, Ne, List.map_eq_nil_iff]
    exact hne
  rw [sequenceOf, if_pos hstart]
  simp only [hdrop, hsome, if_false]
  rw [heq, mapM_value36 hlt]
  simp only [hvalue, hsafe, hn, and_self, if_true]

theorem append_colon_inj {a b s t : JSString} (hs : 58 ∉ s) (ht : 58 ∉ t)
    (h : a ++ 58 :: s = b ++ 58 :: t) : a = b := by
  rcases List.append_eq_append_iff.mp h with ⟨more, rfl, hmore⟩ | ⟨more, rfl, hmore⟩
  · cases more with
    | nil => rw [List.append_nil]
    | cons c more =>
      refine absurd ?_ hs
      rw [(List.cons.inj hmore).2]
      exact List.mem_append_right _ List.mem_cons_self
  · cases more with
    | nil => rw [List.append_nil]
    | cons c more =>
      refine absurd ?_ ht
      rw [(List.cons.inj hmore).2]
      exact List.mem_append_right _ List.mem_cons_self

theorem sequenceOf_other {other : JSString} (h : other ≠ channel) (n : ℕ) :
    sequenceOf other (tokenFor channel n) = none := by
  unfold sequenceOf
  split
  · next hstart =>
    obtain ⟨rest, hrest⟩ := hstart
    have hdrop : (tokenFor channel n).drop (other.length + 1) = rest := by
      rw [← hrest, List.drop_left' (by simp)]
    simp only [hdrop]
    split
    · rfl
    · split
      · rfl
      · next values hvalues =>
        obtain ⟨digits, heq, hlt, -, -⟩ := radix36_eq n
        refine absurd ?_ h
        rw [List.append_assoc, List.singleton_append, tokenFor] at hrest
        refine append_colon_inj (mem_of_mapM_value36 hvalues) ?_ hrest
        rw [heq]
        exact mem_of_mapM_value36 (mapM_value36 hlt)
  · rfl

namespace MemoryHub

structure Log (hub : MemoryHub Message) : Prop where
  numbered : ∀ channel, Numbered channel (hub.published channel)
  counted : ∀ channel, hub.sequences channel = (hub.published channel).length
  safe : ∀ channel, isSafeInteger (hub.sequences channel)
  retained : ∀ channel, hub.history channel <:+ hub.published channel
  unkept : hub.historySize = 0 → ∀ channel, hub.history channel = []

theorem filter_suffix {history : List (ChannelEvent Message)} {start n : ℕ}
    (h : ∀ i event, history[i]? = some event → event.sequence = start + i + 1) :
    (history.filter fun event => event.sequence > n) = history.drop (n - start) := by
  induction history generalizing start with
  | nil => rw [List.drop_nil, List.filter_nil]
  | cons event history ih =>
    have hfirst := h 0 event rfl
    have hrest : history.filter (fun event => event.sequence > n) =
        history.drop (n - (start + 1)) :=
      ih fun i other hi => by
        rw [h (i + 1) other hi]
        omega
    rw [List.filter_cons]
    by_cases hn : n ≤ start
    · rw [if_pos (by rw [decide_eq_true_eq]; omega), hrest, Nat.sub_eq_zero_of_le hn,
        Nat.sub_eq_zero_of_le (Nat.le_succ_of_le hn)]
      rfl
    · rw [if_neg (by rw [decide_eq_true_eq]; omega), hrest,
        show n - start = n - (start + 1) + 1 by omega, List.drop_succ_cons]

theorem Log.replayAfter (h : hub.Log) {token : JSString} {requested : ℕ}
    {replay : List (ChannelEvent Message)}
    (hreplay : hub.replayAfter channel token = some (requested, replay)) :
    sequenceOf channel token = some requested ∧
      requested ≤ (hub.published channel).length ∧
      replay = (hub.published channel).drop requested := by
  unfold MemoryHub.replayAfter at hreplay
  cases hsequence : sequenceOf channel token with
  | none =>
    rw [hsequence] at hreplay
    cases hreplay
  | some n =>
    rw [hsequence] at hreplay
    dsimp only at hreplay
    split at hreplay
    · next hknown =>
      split at hreplay
      · cases hreplay
      · obtain ⟨rfl, rfl⟩ := Prod.mk.inj (Option.some.inj hreplay)
        rw [h.counted] at hknown
        refine ⟨rfl, hknown.1, ?_⟩
        obtain ⟨front, hfront⟩ := h.retained channel
        have hsequences : ∀ i event, (hub.history channel)[i]? = some event →
            event.sequence = front.length + i + 1 := by
          intro i event hevent
          refine (h.numbered channel (front.length + i) event ?_).1
          rw [← hfront, List.getElem?_append_right (Nat.le_add_right _ _), Nat.add_sub_cancel_left]
          exact hevent
        rw [filter_suffix hsequences]
        -- the named event is in the history, or it is the last one
        have hn : front.length ≤ n := by
          rcases hknown.2 with heq | hany
          · rw [heq, ← hfront, List.length_append]
            exact Nat.le_add_right _ _
          · obtain ⟨event, hmem, heq⟩ := List.any_eq_true.mp hany
            obtain ⟨i, hi⟩ := List.mem_iff_getElem?.mp hmem
            have hsequence := hsequences i event hi
            rw [decide_eq_true_eq] at heq
            omega
        conv_rhs => rw [← hfront, List.drop_append, List.drop_eq_nil_of_le hn, List.nil_append]
    · cases hreplay

theorem record_of_ne {event : ChannelEvent Message} {other : JSString} (h : other ≠ channel) :
    (hub.record channel event).published other = hub.published other ∧
      (hub.record channel event).sequences other = hub.sequences other ∧
      (hub.record channel event).history other = hub.history other := by
  refine ⟨Function.update_of_ne h _ _, Function.update_of_ne h _ _, ?_⟩
  unfold record
  dsimp only
  split
  · exact Function.update_of_ne h _ _
  · rfl

theorem record_self {event : ChannelEvent Message} :
    (hub.record channel event).published channel = hub.published channel ++ [event] ∧
      (hub.record channel event).sequences channel = event.sequence :=
  ⟨Function.update_self _ _ _, Function.update_self _ _ _⟩

theorem Log.record (h : hub.Log) (data : Message) (hroom : hub.sequences channel ≠ 2 ^ 53 - 1) :
    (hub.record channel ⟨hub.sequences channel + 1, tokenFor channel (hub.sequences channel + 1),
      data⟩).Log := by
  have hcount := h.counted channel
  have hevent := (h.numbered channel).snoc data
  rw [← hcount] at hevent
  constructor
  · intro other
    by_cases heq : other = channel
    · rw [heq, record_self.1]
      exact hevent
    · rw [(record_of_ne heq).1]
      exact h.numbered other
  · intro other
    by_cases heq : other = channel
    · rw [heq, record_self.1, record_self.2, hcount, List.length_append, List.length_singleton]
    · rw [(record_of_ne heq).1, (record_of_ne heq).2.1]
      exact h.counted other
  · intro other
    by_cases heq : other = channel
    · rw [heq, record_self.2]
      have hsafe := h.safe channel
      simp only [isSafeInteger, decide_eq_true_eq] at hsafe ⊢
      omega
    · rw [(record_of_ne heq).2.1]
      exact h.safe other
  · intro other
    by_cases heq : other = channel
    · rw [heq, record_self.1]
      obtain ⟨front, hfront⟩ := h.retained channel
      unfold MemoryHub.record
      dsimp only
      split
      · rw [Function.update_self]
        rw [← hfront, List.append_assoc]
        split
        · exact (List.tail_suffix _).trans (List.suffix_append _ _)
        · exact List.suffix_append _ _
      · next hsize =>
        rw [h.unkept (by omega) channel]
        exact List.nil_suffix
    · rw [(record_of_ne heq).1, (record_of_ne heq).2.2]
      exact h.retained other
  · intro hsize other
    unfold MemoryHub.record at hsize ⊢
    dsimp only at hsize ⊢
    rw [if_neg (by omega)]
    exact h.unkept hsize other

structure Inv (hub : MemoryHub Message) : Prop where
  membership : hub.Membership
  log : hub.Log
  sound : ∀ (k : ℕ) sub, hub.subscriptions[k]? = some sub →
    sub.Sound (hub.published sub.channel)

theorem Log.updateAll (h : hub.Log)
    (f : MemorySubscription Message → MemorySubscription Message) (ks : List ℕ) :
    (hub.updateAll ks f).Log := by
  obtain ⟨hpublished, hsequences, hhistory, hsize⟩ := updateAll_kept hub ks f
  constructor
  · rw [hpublished]
    exact h.numbered
  · rw [hpublished, hsequences]
    exact h.counted
  · rw [hsequences]
    exact h.safe
  · rw [hpublished, hhistory]
    exact h.retained
  · rw [hsize, hhistory]
    exact h.unkept

theorem Inv.updateAll (h : hub.Inv)
    {f : MemorySubscription Message → MemorySubscription Message} (hf : Method f)
    (hsound : ∀ (sub : MemorySubscription Message) published, sub.Sound published →
      (f sub).Sound published)
    {ks : List ℕ} (hks : ks.Nodup) : (hub.updateAll ks f).Inv where
  membership := h.membership.updateAll hf ks
  log := h.log.updateAll f ks
  sound := by
    intro k sub hsub
    rw [updateAll_subscriptions hub hks] at hsub
    rw [(updateAll_kept hub ks f).1]
    split at hsub
    · obtain ⟨old, hold, rfl⟩ := Option.map_eq_some_iff.mp hsub
      rw [hf.channel]
      exact hsound old _ (h.sound k old hold)
    · exact h.sound k sub hsub

theorem Inv.update (h : hub.Inv) {f : MemorySubscription Message → MemorySubscription Message}
    (hf : Method f) (hsound : ∀ (sub : MemorySubscription Message) published,
      sub.Sound published → (f sub).Sound published) (k : ℕ) : (hub.update k f).Inv :=
  h.updateAll hf hsound (List.nodup_singleton k)

theorem Inv.close (h : hub.Inv) (reason : ChannelCloseReason) (k : ℕ) :
    (hub.update k fun sub => sub.close reason).Inv :=
  h.update (method_close reason) (fun _ _ hsound => hsound.close reason) k

theorem Inv.abort (h : hub.Inv) (signal : ℕ) : (hub.abort signal).Inv := by
  have hnoted : { hub with aborted := signal :: hub.aborted }.Inv :=
    ⟨⟨h.membership.joined, h.membership.member, h.membership.nodup, h.membership.named,
        h.membership.apart⟩,
      ⟨h.log.numbered, h.log.counted, h.log.safe, h.log.retained, h.log.unkept⟩, h.sound⟩
  exact hnoted.updateAll (method_close .aborted) (fun _ _ hsound => hsound.close .aborted)
    (List.nodup_range.filter _)

theorem Membership.nodup_membersOf (h : hub.Membership) (channel : JSString) :
    (hub.membersOf channel).Nodup := by
  unfold membersOf
  split
  · exact List.nodup_nil
  · next members _ => exact h.nodup members

theorem Membership.mem_membersOf (h : hub.Membership) {k : ℕ}
    (hsub : hub.subscriptions[k]? = some sub) :
    k ∈ hub.membersOf channel ↔ sub.isClosed = false ∧ sub.channel = channel := by
  unfold membersOf
  constructor
  · intro hk
    split at hk
    · cases hk
    · next members hmembers =>
      obtain ⟨other, hother, hopen, -⟩ := h.member members k hk
      rw [hsub] at hother
      obtain rfl := Option.some.inj hother
      obtain ⟨again, hagain, hchannel⟩ := h.channel_of_mem hmembers hk
      rw [hsub] at hagain
      obtain rfl := Option.some.inj hagain
      exact ⟨hopen, hchannel⟩
  · rintro ⟨hopen, rfl⟩
    obtain ⟨hmembers, hk⟩ := h.joined k sub hsub hopen
    rw [hmembers]
    exact hk

theorem Inv.publish (h : hub.Inv) {data : Message} {next : MemoryHub Message}
    (hpublish : hub.publish channel data = .ok next) : next.Inv := by
  unfold MemoryHub.publish at hpublish
  dsimp only at hpublish
  split at hpublish
  · cases hpublish
  · next hroom =>
    obtain rfl := Except.ok.inj hpublish
    have hlog := h.log.record data hroom
    generalize (⟨hub.sequences channel + 1, tokenFor channel (hub.sequences channel + 1), data⟩ :
      ChannelEvent Message) = event at hlog ⊢
    have hpush := method_push event
    have hmembership : (hub.record channel event).Membership :=
      ⟨h.membership.joined, h.membership.member, h.membership.nodup, h.membership.named,
        h.membership.apart⟩
    refine ⟨hmembership.updateAll hpush _, hlog.updateAll _ _, ?_⟩
    intro k sub hsub
    rw [updateAll_subscriptions _ (h.membership.nodup_membersOf channel)] at hsub
    rw [(updateAll_kept _ _ _).1]
    split at hsub
    · next hk =>
      obtain ⟨old, hold, rfl⟩ := Option.map_eq_some_iff.mp hsub
      obtain ⟨-, rfl⟩ := (h.membership.mem_membersOf hold).mp hk
      rw [hpush.channel, record_self.1]
      exact (h.sound k old hold).push event
    · next hk =>
      have hold := h.sound k sub hsub
      by_cases heq : sub.channel = channel
      · -- closed before
        subst heq
        rw [record_self.1]
        refine hold.closed_append ?_ [event]
        by_contra hopen
        exact hk ((h.membership.mem_membersOf hsub).mpr ⟨by simpa using hopen, rfl⟩)
      · rw [(record_of_ne heq).1]
        exact hold

theorem sound_create (channel : JSString) (queue members : ℕ) {since : ℕ} (signal : Option ℕ)
    (hsince : since ≤ published.length) : (MemorySubscription.create channel queue members since
      (published.drop since) signal).Sound published :=
  ⟨[], 0, rfl, rfl, fun h => absurd rfl h, nofun, List.nil_prefix, fun _ => rfl, hsince, rfl, rfl⟩

theorem Inv.add (h : hub.Inv) (hopen : sub.isClosed = false)
    (hmembers : hub.subscribers sub.channel = some sub.members)
    (hsound : sub.Sound (hub.published sub.channel)) : (hub.add sub).Inv where
  membership := h.membership.add hopen hmembers
  log := ⟨h.log.numbered, h.log.counted, h.log.safe, h.log.retained, h.log.unkept⟩
  sound := by
    intro k other hother
    rw [MemoryHub.add, List.getElem?_append] at hother
    split at hother
    · exact h.sound k other hother
    · rw [List.getElem?_singleton] at hother
      split at hother
      · obtain rfl := Option.some.inj hother
        exact hsound
      · cases hother

theorem Inv.enter (h : hub.Inv) (channel : JSString) : (hub.enter channel).1.Inv := by
  obtain ⟨hsubscriptions, hpublished, hsequences, hhistory, hsize, -⟩ := enter_spec hub channel
  refine ⟨h.membership.enter channel, ?_, ?_⟩
  · constructor
    · rw [hpublished]
      exact h.log.numbered
    · rw [hpublished, hsequences]
      exact h.log.counted
    · rw [hsequences]
      exact h.log.safe
    · rw [hpublished, hhistory]
      exact h.log.retained
    · rw [hsize, hhistory]
      exact h.log.unkept
  · rw [hsubscriptions, hpublished]
    exact h.sound

theorem Inv.attach (h : hub.Inv) (queue : ℕ) {since : ℕ} (signal : Option ℕ)
    (hsince : since ≤ (hub.published channel).length) :
    (hub.attach channel queue since ((hub.published channel).drop since) signal).Inv := by
  obtain ⟨-, hpublished, -, -, -, hmembers⟩ := enter_spec hub channel
  have hsound := sound_create channel queue (hub.enter channel).2 signal hsince
  rw [← hpublished] at hsound
  have hadded := (h.enter channel).add rfl hmembers hsound
  unfold MemoryHub.attach
  rw [← hpublished]
  dsimp only
  split
  · exact hadded.close .aborted _
  · exact hadded

/-- Every subscription stays, in its channel and with its cursor; one that is closed stays closed
for the same reason. -/
def Stays (hub next : MemoryHub Message) : Prop :=
  ∀ (k : ℕ) sub, hub.subscriptions[k]? = some sub → ∃ after, next.subscriptions[k]? = some after ∧
    after.channel = sub.channel ∧ after.since = sub.since ∧
    (sub.isClosed → after.isClosed ∧ after.reason = sub.reason)

theorem Stays.refl (hub : MemoryHub Message) : hub.Stays hub :=
  fun _ sub hsub => ⟨sub, hsub, rfl, rfl, fun h => ⟨h, rfl⟩⟩

theorem Stays.trans {mid next : MemoryHub Message} (h : hub.Stays mid) (h' : mid.Stays next) :
    hub.Stays next := by
  intro k sub hsub
  obtain ⟨after, hafter, hchannel, hsince, hclosed⟩ := h k sub hsub
  obtain ⟨last, hlast, hchannel', hsince', hclosed'⟩ := h' k after hafter
  refine ⟨last, hlast, hchannel'.trans hchannel, hsince'.trans hsince, fun hsub => ?_⟩
  obtain ⟨hone, hreason⟩ := hclosed hsub
  exact ⟨(hclosed' hone).1, (hclosed' hone).2.trans hreason⟩

theorem stays_update {f : MemorySubscription Message → MemorySubscription Message} (hf : Method f)
    (hub : MemoryHub Message) (k : ℕ) : hub.Stays (hub.update k f) := by
  intro j sub hsub
  rw [update_subscriptions]
  split
  · exact ⟨f sub, by rw [hsub, Option.map_some], hf.channel sub, hf.since sub, hf.closed sub⟩
  · exact ⟨sub, hsub, rfl, rfl, fun h => ⟨h, rfl⟩⟩

theorem stays_updateAll {f : MemorySubscription Message → MemorySubscription Message}
    (hf : Method f) (hub : MemoryHub Message) (ks : List ℕ) : hub.Stays (hub.updateAll ks f) := by
  induction ks generalizing hub with
  | nil => exact Stays.refl hub
  | cons k ks ih => exact (stays_update hf hub k).trans (ih _)

theorem attach_new (hub : MemoryHub Message) (channel : JSString) (queue since : ℕ)
    (replay : List (ChannelEvent Message)) (signal : Option ℕ) :
    ∃ sub, (hub.attach channel queue since replay signal).subscriptions[hub.subscriptions.length]? =
      some sub ∧ sub.channel = channel ∧ sub.since = since ∧ sub.calls = [] := by
  obtain ⟨hsubscriptions, -⟩ := enter_spec hub channel
  have hadded : ((hub.enter channel).1.add (.create channel queue (hub.enter channel).2 since replay
      signal)).subscriptions[hub.subscriptions.length]? =
        some (.create channel queue (hub.enter channel).2 since replay signal) := by
    rw [MemoryHub.add, hsubscriptions, List.getElem?_append_right (Nat.le_refl _), Nat.sub_self]
    rfl
  unfold MemoryHub.attach
  dsimp only
  split
  · refine ⟨(MemorySubscription.create channel queue (hub.enter channel).2 since replay
      signal).close .aborted, ?_, rfl, rfl, rfl⟩
    rw [update_subscriptions, if_pos rfl, hadded]
    rfl
  · exact ⟨_, hadded, rfl, rfl, rfl⟩

theorem stays_attach (hub : MemoryHub Message) (channel : JSString) (queue since : ℕ)
    (replay : List (ChannelEvent Message)) (signal : Option ℕ) :
    hub.Stays (hub.attach channel queue since replay signal) := by
  obtain ⟨hsubscriptions, -⟩ := enter_spec hub channel
  have hadded : hub.Stays ((hub.enter channel).1.add (.create channel queue (hub.enter channel).2
      since replay signal)) := by
    intro k sub hsub
    refine ⟨sub, ?_, rfl, rfl, fun h => ⟨h, rfl⟩⟩
    rw [MemoryHub.add, hsubscriptions,
      List.getElem?_append_left (List.getElem?_eq_some_iff.mp hsub).1]
    exact hsub
  unfold MemoryHub.attach
  dsimp only
  split
  · exact hadded.trans (stays_update (method_close .aborted) _ _)
  · exact hadded

theorem Inv.subscribe (h : hub.Inv) {options : ChannelSubscribeOptions}
    {next : MemoryHub Message} (hsubscribe : hub.subscribe channel options = .ok next) :
    next.Inv ∧ hub.Stays next ∧ ∃ sub, next.subscriptions[hub.subscriptions.length]? = some sub ∧
      sub.channel = channel ∧ sub.calls = [] ∧
      match options.resumeFrom with
      | none => sub.since = hub.sequences channel
      | some token => sequenceOf channel token = some sub.since := by
  unfold MemoryHub.subscribe at hsubscribe
  split at hsubscribe
  · cases hsubscribe
  · next queue _ =>
    split at hsubscribe
    · next hnone =>
      obtain rfl := Except.ok.inj hsubscribe
      have hcount := h.log.counted channel
      have hattach := h.attach queue options.signal (Nat.le_of_eq hcount)
      rw [hcount, List.drop_length, ← hcount] at hattach
      obtain ⟨sub, hsub, hchannel, hsince, hcalls⟩ :=
        attach_new hub channel queue (hub.sequences channel) [] options.signal
      refine ⟨hattach, stays_attach _ _ _ _ _ _, sub, hsub, hchannel, hcalls, ?_⟩
      simpa only [hnone] using hsince
    · next token htoken =>
      split at hsubscribe
      · cases hsubscribe
      · next requested replay hreplay =>
        split at hsubscribe
        · cases hsubscribe
        · obtain rfl := Except.ok.inj hsubscribe
          obtain ⟨hsequence, hle, rfl⟩ := h.log.replayAfter hreplay
          obtain ⟨sub, hsub, hchannel, hsince, hcalls⟩ :=
            attach_new hub channel queue requested ((hub.published channel).drop requested)
              options.signal
          refine ⟨h.attach queue options.signal hle, stays_attach _ _ _ _ _ _, sub, hsub, hchannel,
            hcalls, ?_⟩
          simpa only [htoken, hsince] using hsequence

theorem subscribe_error {options : ChannelSubscribeOptions} {error : ChannelError}
    (h : hub.subscribe channel options = .error error) :
    (∃ token ∈ options.resumeFrom, error = .resumeUnavailable channel token) ∨
      (options.maxQueue.getD (.int hub.maxQueue)).safeFrom 1 = none := by
  unfold MemoryHub.subscribe at h
  split at h
  · next hnone => exact Or.inr hnone
  · split at h
    · cases h
    · next token htoken =>
      refine Or.inl ⟨token, htoken, ?_⟩
      split at h
      · exact (Except.error.inj h).symm
      · split at h
        · exact (Except.error.inj h).symm
        · cases h

theorem Inv.step (h : hub.Inv) (action : Action Message) :
    (hub.step action).Inv ∧ hub.Stays (hub.step action) := by
  cases action with
  | subscribe channel options =>
    simp only [MemoryHub.step]
    cases hsubscribe : hub.subscribe channel options with
    | error => exact ⟨h, Stays.refl hub⟩
    | ok next =>
      obtain ⟨hinv, hstays, -⟩ := h.subscribe hsubscribe
      exact ⟨hinv, hstays⟩
  | publish channel data =>
    simp only [MemoryHub.step]
    cases hpublish : hub.publish channel data with
    | error => exact ⟨h, Stays.refl hub⟩
    | ok next =>
      refine ⟨h.publish hpublish, ?_⟩
      unfold MemoryHub.publish at hpublish
      dsimp only at hpublish
      split at hpublish
      · cases hpublish
      · obtain rfl := Except.ok.inj hpublish
        exact stays_updateAll (method_push _) (hub.record channel _) _
  | next k =>
    exact ⟨h.update method_next (fun _ _ hsound => hsound.next) k, stays_update method_next hub k⟩
  | close k => exact ⟨h.close .closed k, stays_update (method_close .closed) hub k⟩
  | abort signal =>
    exact ⟨h.abort signal,
      stays_updateAll (method_close .aborted) { hub with aborted := signal :: hub.aborted } _⟩

theorem Inv.run (h : hub.Inv) (actions : List (Action Message)) :
    (hub.run actions).Inv ∧ hub.Stays (hub.run actions) := by
  induction actions generalizing hub with
  | nil => exact ⟨h, Stays.refl hub⟩
  | cons action actions ih =>
    obtain ⟨hinv, hstays⟩ := h.step action
    obtain ⟨hrun, hrest⟩ := ih hinv
    exact ⟨hrun, hstays.trans hrest⟩

theorem inv_memoryChannelHub {maxQueue historySize : Option OptionNumber}
    (h : memoryChannelHub maxQueue historySize = .ok hub) : hub.Inv := by
  unfold memoryChannelHub at h
  split at h
  · cases h
  · split at h
    · cases h
    · obtain rfl := Except.ok.inj h
      refine ⟨⟨nofun, ?_, ?_, nofun, nofun⟩, ⟨?_, fun _ => rfl, fun _ => rfl, ?_, fun _ _ => rfl⟩,
        nofun⟩
      · intro m k hk
        cases hk
      · exact fun _ => List.nodup_nil
      · exact fun _ _ => nofun
      · exact fun _ => List.nil_suffix

/-- A subscriber gets all that its channel publishes after its cursor, in order, up to a close with
a reason. A token that was reported is refused, or the next event follows. -/
theorem continuity {maxQueue historySize : Option OptionNumber}
    (h : memoryChannelHub maxQueue historySize = .ok hub) (actions : List (Action Message)) :
    (∀ channel, Numbered channel ((hub.run actions).published channel)) ∧
    (∀ (k : ℕ) sub, (hub.run actions).subscriptions[k]? = some sub →
      sub.Sound ((hub.run actions).published sub.channel) ∧
      (sub.isClosed → ∀ set ∈ (hub.run actions).sets, k ∉ set)) ∧
    (∀ later, (hub.run actions).Stays ((hub.run actions).run later)) ∧
    (∀ channel options next, (hub.run actions).subscribe channel options = .ok next →
      ∃ sub, next.subscriptions[(hub.run actions).subscriptions.length]? = some sub ∧
        sub.channel = channel ∧ sub.calls = [] ∧
        match options.resumeFrom with
        | none => sub.since = (hub.run actions).sequences channel
        | some token => sequenceOf channel token = some sub.since) ∧
    (∀ channel options error, (hub.run actions).subscribe channel options = .error error →
      (∃ token ∈ options.resumeFrom, error = .resumeUnavailable channel token) ∨
        (options.maxQueue.getD (.int (hub.run actions).maxQueue)).safeFrom 1 = none) ∧
    (∀ channel, ∀ event ∈ (hub.run actions).published channel,
      sequenceOf channel event.resumeToken = some event.sequence ∧
      ∀ other ≠ channel, sequenceOf other event.resumeToken = none) := by
  obtain ⟨hinv, -⟩ := (inv_memoryChannelHub h).run actions
  refine ⟨hinv.log.numbered, ?_, ?_, ?_, ?_, ?_⟩
  · intro k sub hsub
    refine ⟨hinv.sound k sub hsub, ?_⟩
    intro hclosed set hset hk
    obtain ⟨m, hm⟩ := List.mem_iff_getElem?.mp hset
    have hmem : k ∈ (hub.run actions).setOf m := by
      rw [setOf, List.getD_eq_getElem?_getD, hm]
      exact hk
    obtain ⟨other, hother, hopen, -⟩ := hinv.membership.member m k hmem
    rw [hsub] at hother
    obtain rfl := Option.some.inj hother
    rw [hclosed] at hopen
    cases hopen
  · exact fun later => (hinv.run later).2
  · intro channel options next hsubscribe
    exact (hinv.subscribe hsubscribe).2.2
  · intro channel options error hsubscribe
    exact subscribe_error hsubscribe
  · intro channel event hevent
    obtain ⟨i, hi⟩ := List.mem_iff_getElem?.mp hevent
    obtain ⟨hsequence, htoken⟩ := hinv.log.numbered channel i event hi
    have hsafe := hinv.log.safe channel
    have hlt := (List.getElem?_eq_some_iff.mp hi).1
    rw [hinv.log.counted channel] at hsafe
    simp only [isSafeInteger, decide_eq_true_eq] at hsafe
    rw [htoken, hsequence]
    refine ⟨sequenceOf_tokenFor channel (Nat.succ_pos i) ?_,
      fun other hother => sequenceOf_other hother _⟩
    simp only [isSafeInteger, decide_eq_true_eq]
    omega

/-- A slow reader is closed, and resumes after the event it has taken. -/
theorem continuity_backpressure : ∃ hub : MemoryHub ℕ,
    memoryChannelHub (some (.int 1)) (some (.int 3)) = .ok hub ∧
      ∀ (k : ℕ) sub, (hub.run [.subscribe (js "a") ⟨none, none, none⟩, .publish (js "a") 5, .next 0,
        .publish (js "a") 6, .publish (js "a") 7]).subscriptions[k]? = some sub →
        sub.Sound ((hub.run [.subscribe (js "a") ⟨none, none, none⟩, .publish (js "a") 5, .next 0,
          .publish (js "a") 6, .publish (js "a") 7]).published sub.channel) :=
  ⟨_, rfl, fun k sub hsub => ((continuity (show memoryChannelHub (some (.int 1)) (some (.int 3)) =
    .ok _ from rfl) _).2.1 k sub hsub).1⟩

end MemoryHub

end Nifra.Channels
