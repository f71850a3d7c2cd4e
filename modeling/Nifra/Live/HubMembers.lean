import Nifra.Live.Hub

/-! # Members

`members` counts the sockets that hold a tag, whatever joins and leaves. Only changes and flushes
touch the coalescing windows, and what was sent stays sent.
-/

namespace Nifra.Live.LiveHub

variable {hub hub' hub'' : LiveHub} {ws ws' code : ℕ} {tag tag' : JSString} {s : LiveSocket}

def count (hub : LiveHub) (tag : JSString) : ℕ :=
  hub.sockets.values.countP fun s => s.tags.has tag

def nonzero (n : ℕ) : Option ℕ := if n = 0 then none else some n

theorem getD_nonzero {n : ℕ} : (nonzero n).getD 0 = n := by
  unfold nonzero
  split_ifs with hzero
  · exact hzero.symm
  · rfl

/-- `members` counts the holders of a tag, and the tags that are yet to be left. -/
def Owing (hub : LiveHub) (owed : List JSString) : Prop :=
  ∀ tag, hub.members.get tag = nonzero (hub.count tag + owed.count tag)

def Counted (hub : LiveHub) : Prop := ∀ tag, hub.members.get tag = nonzero (hub.count tag)

theorem owing_nil : hub.Owing [] ↔ hub.Counted := by
  simp [Owing, Counted]

theorem counted_create : create.Counted := fun _ => rfl

theorem Owing.leaveTopic {owed : List JSString} (h : hub.Owing (tag :: owed)) :
    (hub.leaveTopic tag).Owing owed := by
  intro tag'
  change (hub.leaveTopic tag).members.get tag' = nonzero (hub.count tag' + owed.count tag')
  have htag' := h tag'
  have hmem : hub.members.get tag = some (hub.count tag + owed.count tag + 1) := by
    rw [h tag, List.count_cons_self, nonzero, if_neg (by omega), Nat.add_assoc]
  simp only [LiveHub.leaveTopic, hmem, Option.getD_some, Nat.add_sub_cancel]
  by_cases hsame : tag' = tag
  · subst hsame
    split_ifs with hzero
    · rw [InsertionMap.get_delete, if_pos rfl, nonzero, if_pos hzero]
    · rw [InsertionMap.get_set_self, nonzero, if_neg hzero]
  · rw [List.count_cons_of_ne (Ne.symm hsame)] at htag'
    split_ifs
    · rw [InsertionMap.get_delete, if_neg hsame, htag']
    · rw [InsertionMap.get_set_of_ne hsame, htag']

theorem Owing.foldl_leaveTopic {owed : List JSString} (h : hub.Owing owed) :
    (owed.foldl LiveHub.leaveTopic hub).Counted := by
  induction owed generalizing hub with
  | nil => exact owing_nil.mp h
  | cons tag owed ih => exact ih h.leaveTopic

theorem get_update {f : LiveSocket → LiveSocket} : (hub.update ws f).sockets.get ws' =
    if ws' = ws then (hub.sockets.get ws).map f else hub.sockets.get ws' := by
  unfold update
  split
  · next hnone =>
    split_ifs with hws
    · rw [hws, hnone, Option.map_none]
    · rfl
  · next s hs =>
    rw [InsertionMap.get_set, hs]
    rfl

theorem count_update (f : LiveSocket → LiveSocket) (tag : JSString)
    (hs : hub.sockets.get ws = some s) :
    (hub.update ws f).count tag + (if s.tags.has tag then 1 else 0) =
      hub.count tag + if (f s).tags.has tag then 1 else 0 := by
  have hdelete := InsertionMap.countP_delete (fun s : LiveSocket => s.tags.has tag) hs
  rw [update, hs]
  simp only [count, InsertionMap.countP_set]
  omega

theorem count_delete (hs : hub.sockets.get ws = some s) :
    LiveHub.count { hub with sockets := hub.sockets.delete ws } tag +
      (if s.tags.has tag then 1 else 0) = hub.count tag :=
  InsertionMap.countP_delete (fun s : LiveSocket => s.tags.has tag) hs

theorem count_keys (tags : InsertionMap JSString Unit) (tag : JSString) :
    tags.keys.count tag = if tags.has tag then 1 else 0 := by
  have hmem : tag ∈ tags.keys ↔ tags.has tag := by
    rw [InsertionMap.mem_keys_iff, InsertionMap.has, Option.isSome_iff_exists]
  have hnodup : tags.keys.Nodup := tags.nodup
  split_ifs with h
  · exact List.count_eq_one_of_mem hnodup (hmem.mpr h)
  · exact List.count_eq_zero_of_not_mem fun hkey => h (hmem.mp hkey)

theorem holds_iff : hub.holds ws tag ↔ ∃ s, hub.sockets.get ws = some s ∧ s.tags.has tag := by
  rw [holds, Option.any_eq_true]

theorem Counted.member (h : hub.Counted) (hholds : hub.holds ws tag) :
    ∃ n, hub.members.get tag = some n := by
  obtain ⟨s, hs, htag⟩ := holds_iff.mp hholds
  have hpos : 0 < hub.count tag := by
    rw [count, List.countP_pos_iff]
    exact ⟨s, InsertionMap.mem_values_iff.mpr ⟨ws, hs⟩, htag⟩
  exact ⟨hub.count tag, by rw [h tag, nonzero, if_neg (by omega)]⟩

structure Quiet (hub hub' : LiveHub) : Prop where
  coalescing : hub'.coalescing = hub.coalescing
  timer : hub'.timer = hub.timer
  sent : hub.sent <+: hub'.sent
  counted : hub.Counted → hub'.Counted

theorem Quiet.refl : hub.Quiet hub := ⟨rfl, rfl, List.prefix_rfl, id⟩

theorem Quiet.trans (h : hub.Quiet hub') (h' : hub'.Quiet hub'') : hub.Quiet hub'' :=
  ⟨h'.coalescing.trans h.coalescing, h'.timer.trans h.timer, h.sent.trans h'.sent,
    h'.counted ∘ h.counted⟩

theorem Quiet.foldl {α : Type*} {f : LiveHub → α → LiveHub}
    (hf : ∀ (hub : LiveHub) a, hub.Quiet (f hub a)) (l : List α) : hub.Quiet (l.foldl f hub) := by
  induction l generalizing hub with
  | nil => exact .refl
  | cons a l ih => exact (hf hub a).trans ih

def Apart (ws : ℕ) (hub hub' : LiveHub) : Prop :=
  ∀ ws' ≠ ws, hub'.sockets.get ws' = hub.sockets.get ws'

theorem Apart.refl : Apart ws hub hub := fun _ _ => rfl

theorem Apart.trans (h : Apart ws hub hub') (h' : Apart ws hub' hub'') : Apart ws hub hub'' :=
  fun other hne => (h' other hne).trans (h other hne)

theorem Apart.foldl {α : Type*} {f : LiveHub → α → LiveHub}
    (hf : ∀ hub a, Apart ws hub (f hub a)) (l : List α) : Apart ws hub (l.foldl f hub) := by
  induction l generalizing hub with
  | nil => exact .refl
  | cons a l ih => exact (hf hub a).trans ih

theorem Apart.holds (h : Apart ws hub hub') (hne : ws' ≠ ws) :
    hub'.holds ws' tag = hub.holds ws' tag := by
  rw [LiveHub.holds, LiveHub.holds, h ws' hne]

theorem foldl_leaveTopic_fields (hub : LiveHub) (tags : List JSString) :
    (tags.foldl leaveTopic hub).sockets = hub.sockets ∧
      (tags.foldl leaveTopic hub).coalescing = hub.coalescing ∧
      (tags.foldl leaveTopic hub).timer = hub.timer ∧
      (tags.foldl leaveTopic hub).sent = hub.sent ∧
      (tags.foldl leaveTopic hub).down = hub.down := by
  induction tags generalizing hub with
  | nil => exact ⟨rfl, rfl, rfl, rfl, rfl⟩
  | cons tag tags ih => exact ih (hub.leaveTopic tag)

theorem sockets_forget : (hub.forget ws).sockets = hub.sockets.delete ws := by
  unfold forget
  split
  · next hnone =>
    ext1
    exact (InsertionMap.entries_delete_of_get_none hnone).symm
  · exact (foldl_leaveTopic_fields _ _).1

theorem forget_down : (hub.forget ws).down = hub.down := by
  unfold forget
  split
  · rfl
  · exact (foldl_leaveTopic_fields _ _).2.2.2.2

theorem forget_sent : (hub.forget ws).sent = hub.sent := by
  unfold forget
  split
  · rfl
  · exact (foldl_leaveTopic_fields _ _).2.2.2.1

theorem quiet_forget : hub.Quiet (hub.forget ws) := by
  unfold forget
  split
  · exact .refl
  · next s hs =>
    obtain ⟨-, hcoalescing, htimer, hsent, -⟩ := foldl_leaveTopic_fields
      { hub with sockets := hub.sockets.delete ws } s.tags.keys
    refine ⟨hcoalescing, htimer, by rw [hsent], fun hcounted => ?_⟩
    refine Owing.foldl_leaveTopic fun tag => ?_
    rw [count_keys, count_delete hs]
    exact hcounted tag

theorem apart_forget : Apart ws hub (hub.forget ws) := by
  intro ws' hne
  rw [sockets_forget, InsertionMap.get_delete, if_neg hne]

theorem quiet_drop : hub.Quiet (hub.drop ws code) := by
  have h : hub.Quiet (hub.forget ws) := quiet_forget
  exact ⟨h.coalescing, h.timer, h.sent.trans (List.prefix_append _ _), h.counted⟩

theorem apart_drop : Apart ws hub (hub.drop ws code) := apart_forget

theorem get_drop : (hub.drop ws code).sockets.get ws = none := by
  change (hub.forget ws).sockets.get ws = none
  rw [sockets_forget, InsertionMap.get_delete, if_pos rfl]

theorem drop_down : (hub.drop ws code).down = hub.down := forget_down

theorem quiet_send {frame : Sent} {slow : Bool} : hub.Quiet (hub.send ws frame slow) := by
  have hframe : hub.Quiet { hub with sent := hub.sent ++ [frame] } :=
    ⟨rfl, rfl, List.prefix_append _ _, id⟩
  unfold send
  split_ifs
  · exact hframe.trans quiet_drop
  · exact hframe

theorem sent_send (hub : LiveHub) (ws : ℕ) (frame : Sent) (slow : Bool) :
    hub.sent ++ [frame] <+: (hub.send ws frame slow).sent := by
  simp only [send]
  split_ifs
  · have hdrop : LiveHub.Quiet { hub with sent := hub.sent ++ [frame] }
        (LiveHub.drop { hub with sent := hub.sent ++ [frame] } ws closeCapacity) := quiet_drop
    exact hdrop.sent
  · exact List.prefix_rfl

theorem apart_send {frame : Sent} {slow : Bool} : Apart ws hub (hub.send ws frame slow) := by
  unfold send
  split_ifs
  · exact apart_drop
  · exact .refl

theorem apart_update {f : LiveSocket → LiveSocket} : Apart ws hub (hub.update ws f) :=
  fun ws' hne => by rw [get_update, if_neg hne]

theorem update_fields (hub : LiveHub) (ws : ℕ) (f : LiveSocket → LiveSocket) :
    (hub.update ws f).coalescing = hub.coalescing ∧ (hub.update ws f).timer = hub.timer ∧
    (hub.update ws f).sent = hub.sent ∧ (hub.update ws f).members = hub.members ∧
    (hub.update ws f).down = hub.down := by
  unfold update
  split
  · exact ⟨rfl, rfl, rfl, rfl, rfl⟩
  · exact ⟨rfl, rfl, rfl, rfl, rfl⟩

theorem quiet_update {f : LiveSocket → LiveSocket}
    (hf : ∀ s, hub.sockets.get ws = some s → (f s).tags = s.tags) :
    hub.Quiet (hub.update ws f) := by
  obtain ⟨hcoalescing, htimer, hsent, hmembers, -⟩ := update_fields hub ws f
  refine ⟨hcoalescing, htimer, by rw [hsent], fun hcounted tag => ?_⟩
  have hsame : (hub.update ws f).count tag = hub.count tag := by
    cases hs : hub.sockets.get ws with
    | none => rw [update, hs]
    | some s =>
      have hcount := count_update f tag hs
      rw [hf s hs] at hcount
      omega
  rw [hmembers, hsame]
  exact hcounted tag

theorem count_leave (hs : hub.sockets.get ws = some s) (htag : s.tags.has tag) :
    (hub.leave ws tag).count tag' + [tag].count tag' = hub.count tag' := by
  have hcount := count_update (fun s => { s with tags := s.tags.delete tag }) tag' hs
  change (hub.update ws _).count tag' + [tag].count tag' = hub.count tag'
  simp only [InsertionMap.has, InsertionMap.get_delete] at hcount htag
  by_cases hsame : tag' = tag
  · subst hsame
    simp only [htag, if_pos, Option.isSome_none, Bool.false_eq_true, if_false] at hcount
    rw [List.count_singleton_self]
    exact hcount
  · rw [if_neg hsame] at hcount
    rw [List.count_cons_of_ne (Ne.symm hsame), List.count_nil]
    exact Nat.add_right_cancel hcount

theorem quiet_leave (h : hub.holds ws tag) : hub.Quiet (hub.leave ws tag) := by
  obtain ⟨s, hs, htag⟩ := holds_iff.mp h
  obtain ⟨hcoalescing, htimer, hsent, hmembers, -⟩ := update_fields hub ws
    (fun s => { s with tags := s.tags.delete tag })
  refine ⟨hcoalescing, htimer, ?_, fun hcounted => owing_nil.mp ?_⟩
  · change hub.sent <+: (hub.update ws _).sent
    rw [hsent]
  · refine Owing.leaveTopic fun tag' => ?_
    rw [hmembers, hcounted tag']
    exact congrArg nonzero (count_leave hs htag).symm

theorem apart_leave : Apart ws hub (hub.leave ws tag) := apart_update

theorem count_join (hs : hub.sockets.get ws = some s) (htag : s.tags.has tag = false) :
    (hub.join ws tag).count tag' = hub.count tag' + [tag].count tag' := by
  have hcount := count_update (fun s => { s with tags := s.tags.set tag () }) tag' hs
  change (hub.update ws _).count tag' = hub.count tag' + [tag].count tag'
  simp only [InsertionMap.has, InsertionMap.get_set] at hcount htag
  by_cases hsame : tag' = tag
  · subst hsame
    simp only [htag, if_pos, Option.isSome_some, Bool.false_eq_true, if_false] at hcount
    rw [List.count_singleton_self]
    exact hcount
  · rw [if_neg hsame] at hcount
    rw [List.count_cons_of_ne (Ne.symm hsame), List.count_nil]
    exact Nat.add_right_cancel hcount

theorem quiet_join (h : hub.holds ws tag = false) (hs : hub.sockets.get ws = some s) :
    hub.Quiet (hub.join ws tag) := by
  obtain ⟨hcoalescing, htimer, hsent, hmembers, -⟩ := update_fields hub ws
    (fun s => { s with tags := s.tags.set tag () })
  refine ⟨hcoalescing, htimer, ?_, fun hcounted tag' => ?_⟩
  · change hub.sent <+: (hub.update ws _).sent
    rw [hsent]
  · have hnew : s.tags.has tag = false := by simpa [holds, hs] using h
    rw [count_join hs hnew]
    change ((hub.update ws _).members.set tag _).get tag' = _
    rw [hmembers, InsertionMap.get_set]
    by_cases hsame : tag' = tag
    · subst hsame
      rw [if_pos rfl, hcounted tag', List.count_singleton_self, getD_nonzero]
      rfl
    · rw [if_neg hsame, hcounted tag', List.count_cons_of_ne (Ne.symm hsame), List.count_nil]
      rfl

theorem apart_join : Apart ws hub (hub.join ws tag) := apart_update

theorem quiet_closeAll : hub.Quiet (hub.closeAll code) := .foldl (fun _ _ => quiet_drop) _

theorem quiet_revokeSocket {sub : Option JSString} : hub.Quiet (hub.revokeSocket sub ws) := by
  unfold revokeSocket
  split_ifs
  · exact quiet_drop
  · exact .refl

theorem quiet_leaveHeld : hub.Quiet (if hub.holds ws tag then hub.leave ws tag else hub) := by
  split_ifs with h
  · exact quiet_leave h
  · exact .refl

theorem apart_leaveHeld : Apart ws hub (if hub.holds ws tag then hub.leave ws tag else hub) := by
  split_ifs
  · exact apart_leave
  · exact .refl

theorem quiet_leaveTags {sub : Option JSString} {tags : List JSString} :
    hub.Quiet (hub.leaveTags sub tags ws) := by
  unfold leaveTags
  split_ifs
  · exact .foldl (fun _ _ => quiet_leaveHeld) _
  · exact .refl

theorem apart_leaveTags {sub : Option JSString} {tags : List JSString} :
    Apart ws hub (hub.leaveTags sub tags ws) := by
  unfold leaveTags
  split_ifs
  · exact .foldl (fun _ _ => apart_leaveHeld) _
  · exact .refl

theorem holds_leave (hne : tag' ≠ tag) : (hub.leave ws tag).holds ws tag' = hub.holds ws tag' := by
  change ((hub.update ws _).sockets.get ws).any _ = (hub.sockets.get ws).any _
  rw [get_update, if_pos rfl, Option.any_map]
  cases hub.sockets.get ws with
  | none => rfl
  | some s =>
    simp only [Option.any_some, InsertionMap.has, InsertionMap.get_delete, if_neg hne]

theorem holds_join : (hub.join ws tag).holds ws tag' =
    ((hub.sockets.get ws).isSome && (decide (tag' = tag) || hub.holds ws tag')) := by
  change ((hub.update ws _).sockets.get ws).any _ = _
  rw [get_update, if_pos rfl, Option.any_map, holds]
  cases hub.sockets.get ws with
  | none => rfl
  | some s =>
    simp only [Option.any_some, InsertionMap.has, InsertionMap.get_set, Option.isSome_some,
      Bool.true_and]
    split_ifs with hsame
    · simp [hsame]
    · simp [hsame]

theorem quiet_leaveOthers (next : InsertionMap JSString Unit) {tags : List JSString}
    (hnodup : tags.Nodup) (hheld : ∀ tag ∈ tags, hub.holds ws tag) :
    hub.Quiet
      (tags.foldl (fun hub tag => if next.has tag then hub else hub.leave ws tag) hub) := by
  induction tags generalizing hub with
  | nil => exact .refl
  | cons tag tags ih =>
    obtain ⟨hnew, hnodup⟩ := List.nodup_cons.mp hnodup
    rw [List.foldl_cons]
    split_ifs
    · exact ih hnodup fun tag' htag' => hheld tag' (List.mem_cons_of_mem _ htag')
    · refine (quiet_leave (hheld tag List.mem_cons_self)).trans (ih hnodup fun tag' htag' => ?_)
      rw [holds_leave (by rintro rfl; exact hnew htag')]
      exact hheld tag' (List.mem_cons_of_mem _ htag')

theorem apart_leaveOthers {next : InsertionMap JSString Unit} {tags : List JSString} :
    Apart ws hub
      (tags.foldl (fun hub tag => if next.has tag then hub else hub.leave ws tag) hub) := by
  refine .foldl (fun hub tag => ?_) _
  split_ifs
  · exact .refl
  · exact apart_leave

theorem isSome_leave :
    ((hub.leave ws tag).sockets.get ws).isSome = (hub.sockets.get ws).isSome := by
  change ((hub.update ws _).sockets.get ws).isSome = _
  rw [get_update, if_pos rfl, Option.isSome_map]

theorem isSome_join : ((hub.join ws tag).sockets.get ws).isSome = (hub.sockets.get ws).isSome := by
  change ((hub.update ws _).sockets.get ws).isSome = _
  rw [get_update, if_pos rfl, Option.isSome_map]

theorem isSome_leaveOthers (hub : LiveHub) (next : InsertionMap JSString Unit)
    (tags : List JSString) :
    ((tags.foldl (fun hub tag => if next.has tag then hub else hub.leave ws tag)
      hub).sockets.get ws).isSome = (hub.sockets.get ws).isSome := by
  induction tags generalizing hub with
  | nil => rfl
  | cons tag tags ih =>
    rw [List.foldl_cons, ih]
    split_ifs
    · rfl
    · exact isSome_leave

structure Joined (ws : ℕ) (tags : List JSString) (hub hub' : LiveHub) : Prop where
  quiet : hub.Quiet hub'
  apart : Apart ws hub hub'
  isSome : (hub'.sockets.get ws).isSome
  held : ∀ tag ∈ tags, hub'.holds ws tag
  kept : ∀ tag, hub.holds ws tag → hub'.holds ws tag

theorem joined_foldl (tags : List JSString) (hs : (hub.sockets.get ws).isSome) :
    Joined ws tags hub
      (tags.foldl (fun hub tag => if hub.holds ws tag then hub else hub.join ws tag) hub) := by
  induction tags generalizing hub with
  | nil => exact ⟨.refl, .refl, hs, nofun, fun _ => id⟩
  | cons tag tags ih =>
    rw [List.foldl_cons]
    split_ifs with hheld
    · obtain ⟨hquiet, hapart, hsome, hall, hkept⟩ := ih hs
      refine ⟨hquiet, hapart, hsome, fun tag' htag' => ?_, hkept⟩
      rcases List.mem_cons.mp htag' with rfl | htag'
      · exact hkept _ hheld
      · exact hall tag' htag'
    · obtain ⟨s, hget⟩ := Option.isSome_iff_exists.mp hs
      have hrest : Joined ws tags (hub.join ws tag) _ := ih (isSome_join.trans hs)
      obtain ⟨hquiet, hapart, hsome, hall, hkept⟩ := hrest
      have hjoin := quiet_join (Bool.eq_false_of_not_eq_true hheld) hget
      refine ⟨hjoin.trans hquiet, apart_join.trans hapart, hsome, fun tag' htag' => ?_,
        fun tag' htag' => hkept tag' ?_⟩
      · rcases List.mem_cons.mp htag' with rfl | htag'
        · exact hkept _ (by rw [holds_join, hs]; simp)
        · exact hall tag' htag'
      · rw [holds_join, hs, htag']
        simp

theorem holds_of_mem_keys (hs : hub.sockets.get ws = some s) (htag : tag ∈ s.tags.keys) :
    hub.holds ws tag := by
  obtain ⟨u, hu⟩ := InsertionMap.mem_keys_iff.mp htag
  exact holds_iff.mpr ⟨s, hs, by rw [InsertionMap.has, hu]; rfl⟩

theorem joined_rewatch (next : InsertionMap JSString Unit) (hs : hub.sockets.get ws = some s) :
    hub.Quiet (hub.rewatch ws s.tags next) ∧ Apart ws hub (hub.rewatch ws s.tags next) ∧
      ((hub.rewatch ws s.tags next).sockets.get ws).isSome ∧
      ∀ tag ∈ next.keys, (hub.rewatch ws s.tags next).holds ws tag := by
  have hleave : hub.Quiet _ := quiet_leaveOthers next s.tags.nodup
    fun tag htag => holds_of_mem_keys hs htag
  have hsome : ((s.tags.keys.foldl _ hub).sockets.get ws).isSome = true :=
    (isSome_leaveOthers hub next s.tags.keys).trans (by rw [hs]; rfl)
  have hjoin := joined_foldl next.keys hsome
  exact ⟨hleave.trans hjoin.quiet, apart_leaveOthers.trans hjoin.apart, hjoin.isSome, hjoin.held⟩

end Nifra.Live.LiveHub
