import Nifra.Lib.Runs
import Nifra.Live.HubWindows

/-! # Runs of the hub

Sockets open, watch and close, events are applied, windows end. A watch is installed some time after
its frame came, over the state that the hub has by then.
-/

namespace Nifra.Live

structure HubState where
  core : LiveCore
  installing : List Installing

/-- `install` takes up the suspended watch at `n`, and `fail` ends it with an error. `drop` is a
sweep, and `closing` a transport that has begun to close. -/
inductive HubAction
  | openSocket (ws : ℕ) (sid : JSString) (now : ℤ) (overRss slow : Bool)
  | restore (ws : ℕ) (s : LiveSocket) (stored : Option (Option JSString × List JSString))
  | message (ws : ℕ) (data : Inbound) (now : ℤ) (slow : Bool)
  | install (n : ℕ) (slow : Bool)
  | fail (n : ℕ)
  | drop (ws code : ℕ)
  | close (ws : ℕ)
  | closing (ws : ℕ)
  | apply (event : LiveBusEvent) (now : ℤ)
  | flush
  | resync (head : ℕ)
  | lose

def Inbound.listed (options : HubOptions) : Inbound → Bool
  | .watch frame => frame.grants.all fun grant =>
    grant.all fun grant => decide (grant.secret < options.secretCount)
  | _ => true

namespace HubState
variable (options : HubOptions)

def create (head capacity limit : ℕ) (maxAgeMs ttlMs : ℤ) : HubState :=
  ⟨⟨.create head capacity maxAgeMs, .create head ttlMs limit, .create⟩, []⟩

def withHub (s : HubState) (hub : LiveHub) : HubState :=
  { s with core := { s.core with hub := hub } }

def fresh (s : HubState) (ws : ℕ) : Bool :=
  !s.core.hub.sockets.has ws && s.installing.all fun i => i.ws ≠ ws

def step (s : HubState) : HubAction → Option HubState
  | .openSocket ws sid now overRss slow =>
    if s.fresh ws then some (s.withHub (s.core.hub.openSocket options ws sid now overRss slow))
    else none
  | .restore ws socket stored =>
    if s.fresh ws then some (s.withHub (s.core.hub.restore ws socket stored)) else none
  | .message ws data now slow =>
    if data.listed options then
      let (hub, watch) := s.core.hub.message ws data now slow
      some { s.withHub hub with installing := s.installing ++ watch.toList }
    else none
  | .install n slow => do
    let i ← s.installing[n]?
    some ⟨s.core.install options i slow, s.installing.eraseIdx n⟩
  | .fail n => do
    let i ← s.installing[n]?
    some { s.withHub (s.core.hub.drop i.ws closeError) with installing := s.installing.eraseIdx n }
  | .drop ws code => some (s.withHub (s.core.hub.drop ws code))
  | .close ws => some (s.withHub (s.core.hub.forget ws))
  | .closing ws => some (s.withHub (s.core.hub.update ws fun s => { s with isOpen := false }))
  | .apply event now =>
    if s.core.history.last < event.seq then
      (s.core.applyEvent options event now).map fun core => { s with core := core }
    else none
  | .flush => if s.core.hub.timer then some (s.withHub s.core.hub.flush) else none
  | .resync head => some { s with core := s.core.forgetUntil (max head s.core.history.last) }
  | .lose => some { s with core := s.core.lose }

end HubState

inductive HubState.Step (options : HubOptions) (s : HubState) : HubAction → HubState → Prop
  | openSocket {ws : ℕ} {sid : JSString} {now : ℤ} {overRss slow : Bool} (h : s.fresh ws) :
    Step options s (.openSocket ws sid now overRss slow)
      (s.withHub (s.core.hub.openSocket options ws sid now overRss slow))
  | restore {ws : ℕ} {socket : LiveSocket} {stored : Option (Option JSString × List JSString)}
    (h : s.fresh ws) :
    Step options s (.restore ws socket stored) (s.withHub (s.core.hub.restore ws socket stored))
  | message {ws : ℕ} {data : Inbound} {now : ℤ} {slow : Bool} (h : data.listed options) :
    Step options s (.message ws data now slow)
      { s.withHub (s.core.hub.message ws data now slow).1 with
        installing := s.installing ++ (s.core.hub.message ws data now slow).2.toList }
  | install {n : ℕ} {slow : Bool} {i : Installing} (h : s.installing[n]? = some i) :
    Step options s (.install n slow) ⟨s.core.install options i slow, s.installing.eraseIdx n⟩
  | fail {n : ℕ} {i : Installing} (h : s.installing[n]? = some i) :
    Step options s (.fail n)
      { s.withHub (s.core.hub.drop i.ws closeError) with installing := s.installing.eraseIdx n }
  | drop {ws code : ℕ} : Step options s (.drop ws code) (s.withHub (s.core.hub.drop ws code))
  | close {ws : ℕ} : Step options s (.close ws) (s.withHub (s.core.hub.forget ws))
  | closing {ws : ℕ} : Step options s (.closing ws)
    (s.withHub (s.core.hub.update ws fun s => { s with isOpen := false }))
  | apply {event : LiveBusEvent} {now : ℤ} {core : LiveCore} (h : s.core.history.last < event.seq)
    (hcore : s.core.applyEvent options event now = some core) :
    Step options s (.apply event now) { s with core := core }
  | flush (h : s.core.hub.timer) : Step options s .flush (s.withHub s.core.hub.flush)
  | resync {head : ℕ} : Step options s (.resync head)
    { s with core := s.core.forgetUntil (max head s.core.history.last) }
  | lose : Step options s .lose { s with core := s.core.lose }

theorem HubState.step_cases {options : HubOptions} {s t : HubState} {action : HubAction}
    (h : s.step options action = some t) : s.Step options action t := by
  cases action with
  | openSocket ws sid now overRss slow =>
    simp only [step] at h
    split_ifs at h with hfresh
    exact Option.some.inj h ▸ .openSocket hfresh
  | restore ws socket stored =>
    simp only [step] at h
    split_ifs at h with hfresh
    exact Option.some.inj h ▸ .restore hfresh
  | message ws data now slow =>
    simp only [step] at h
    split_ifs at h with hlisted
    exact Option.some.inj h ▸ .message hlisted
  | install n slow =>
    simp only [step, Option.bind_eq_bind, Option.bind_eq_some_iff] at h
    obtain ⟨i, hi, h⟩ := h
    exact Option.some.inj h ▸ .install hi
  | fail n =>
    simp only [step, Option.bind_eq_bind, Option.bind_eq_some_iff] at h
    obtain ⟨i, hi, h⟩ := h
    exact Option.some.inj h ▸ .fail hi
  | drop ws code => exact Option.some.inj h ▸ .drop
  | close ws => exact Option.some.inj h ▸ .close
  | closing ws => exact Option.some.inj h ▸ .closing
  | apply event now =>
    simp only [step] at h
    split_ifs at h with hseq
    obtain ⟨core, hcore, rfl⟩ := Option.map_eq_some_iff.mp h
    exact .apply hseq hcore
  | flush =>
    simp only [step] at h
    split_ifs at h with htimer
    exact Option.some.inj h ▸ .flush htimer
  | resync head => exact Option.some.inj h ▸ .resync
  | lose => exact Option.some.inj h ▸ .lose

namespace LiveHub
variable {options : HubOptions} {hub hub' hub'' : LiveHub} {ws ws' code : ℕ} {tag : JSString}
  {s : LiveSocket}

theorem quiet_newSocket (hs : hub.sockets.get ws = none) (htags : s.tags = ∅) :
    hub.Quiet { hub with sockets := hub.sockets.set ws s } := by
  refine ⟨rfl, rfl, List.prefix_rfl, fun hcounted tag => ?_⟩
  have hsame : LiveHub.count { hub with sockets := hub.sockets.set ws s } tag = hub.count tag := by
    have hempty : s.tags.has tag = false := by rw [htags]; rfl
    change (hub.sockets.set ws s).values.countP (fun s => s.tags.has tag) = _
    rw [InsertionMap.countP_set, hempty, count, InsertionMap.values, InsertionMap.values,
      InsertionMap.entries_delete_of_get_none hs]
    rfl
  rw [hsame]
  exact hcounted tag

theorem apart_newSocket : Apart ws hub { hub with sockets := hub.sockets.set ws s } :=
  fun _ hne => InsertionMap.get_set_of_ne hne

theorem quiet_openSocket {sid : JSString} {now : ℤ} {overRss slow : Bool}
    (hs : hub.sockets.get ws = none) :
    hub.Quiet (hub.openSocket options ws sid now overRss slow) := by
  unfold openSocket
  split_ifs
  · exact ⟨rfl, rfl, List.prefix_append _ _, id⟩
  · exact (quiet_newSocket hs rfl).trans quiet_send

theorem apart_openSocket {sid : JSString} {now : ℤ} {overRss slow : Bool} :
    Apart ws hub (hub.openSocket options ws sid now overRss slow) := by
  unfold openSocket
  split_ifs
  · exact .refl
  · exact apart_newSocket.trans apart_send

theorem quiet_restore {stored : Option (Option JSString × List JSString)}
    (hs : hub.sockets.get ws = none) : hub.Quiet (hub.restore ws s stored) := by
  have hnew := quiet_newSocket (s := { s with tags := ∅ }) hs rfl
  cases stored with
  | none => exact hnew
  | some stored =>
    obtain ⟨sub, tags⟩ := stored
    have hsub : hub.Quiet (LiveHub.update _ ws fun s => { s with sub := some sub }) :=
      hnew.trans (quiet_update fun _ _ => rfl)
    refine hsub.trans (joined_foldl tags ?_).quiet
    rw [get_update, if_pos rfl, Option.isSome_map, InsertionMap.get_set_self]
    rfl

theorem apart_joinOthers {tags : List JSString} : Apart ws hub
    (tags.foldl (fun hub tag => if hub.holds ws tag then hub else hub.join ws tag) hub) := by
  refine .foldl (fun hub tag => ?_) tags
  split_ifs
  · exact .refl
  · exact apart_join

theorem apart_restore {stored : Option (Option JSString × List JSString)} :
    Apart ws hub (hub.restore ws s stored) := by
  cases stored with
  | none => exact apart_newSocket
  | some stored => exact (apart_newSocket.trans apart_update).trans apart_joinOthers

def Same (ws : ℕ) (hub hub' : LiveHub) : Prop :=
  hub'.sockets.get ws = none ∨ hub'.sockets.get ws = hub.sockets.get ws

theorem Same.refl : Same ws hub hub := Or.inr rfl

theorem Same.trans (h : Same ws hub hub') (h' : Same ws hub' hub'') : Same ws hub hub'' := by
  rcases h' with hnone | hsame
  · exact Or.inl hnone
  · unfold Same
    rw [hsame]
    exact h

theorem Same.foldl {α : Type*} {f : LiveHub → α → LiveHub}
    (hf : ∀ (hub : LiveHub) a, Same ws hub (f hub a)) (l : List α) :
    Same ws hub (l.foldl f hub) := by
  induction l generalizing hub with
  | nil => exact .refl
  | cons a l ih => exact (hf hub a).trans ih

theorem same_drop : Same ws hub (hub.drop ws' code) := by
  by_cases hws : ws = ws'
  · subst hws
    exact Or.inl get_drop
  · exact Or.inr (apart_drop ws hws)

theorem same_closeAll : Same ws hub (hub.closeAll code) := .foldl (fun _ _ => same_drop) _

theorem same_revokeSocket {sub : Option JSString} : Same ws hub (hub.revokeSocket sub ws') := by
  unfold revokeSocket
  split_ifs
  · exact same_drop
  · exact .refl

/-- Other sockets stay as they are, and this one keeps its tags while it is kept. -/
structure Still (ws : ℕ) (hub hub' : LiveHub) : Prop where
  quiet : hub.Quiet hub'
  apart : Apart ws hub hub'
  held : (hub'.sockets.get ws).isSome →
    (hub.sockets.get ws).isSome ∧ ∀ tag, hub'.holds ws tag = hub.holds ws tag

theorem Still.refl : Still ws hub hub := ⟨.refl, .refl, fun hs => ⟨hs, fun _ => rfl⟩⟩

theorem Still.trans (h : Still ws hub hub') (h' : Still ws hub' hub'') : Still ws hub hub'' := by
  refine ⟨h.quiet.trans h'.quiet, h.apart.trans h'.apart, fun hs'' => ?_⟩
  obtain ⟨hs', hsame'⟩ := h'.held hs''
  obtain ⟨hs, hsame⟩ := h.held hs'
  exact ⟨hs, fun tag => (hsame' tag).trans (hsame tag)⟩

theorem still_drop : Still ws hub (hub.drop ws code) :=
  ⟨quiet_drop, apart_drop, fun hs => by rw [get_drop] at hs; cases hs⟩

theorem still_send {frame : Sent} {slow : Bool} : Still ws hub (hub.send ws frame slow) := by
  have hframe : Still ws hub { hub with sent := hub.sent ++ [frame] } :=
    ⟨⟨rfl, rfl, List.prefix_append _ _, id⟩, .refl, fun hs => ⟨hs, fun _ => rfl⟩⟩
  unfold send
  split_ifs
  · exact hframe.trans still_drop
  · exact hframe

theorem still_update {f : LiveSocket → LiveSocket}
    (hf : ∀ s, hub.sockets.get ws = some s → (f s).tags = s.tags) :
    Still ws hub (hub.update ws f) := by
  refine ⟨quiet_update hf, apart_update, fun hs => ?_⟩
  rw [get_update, if_pos rfl, Option.isSome_map] at hs
  obtain ⟨s, hget⟩ := Option.isSome_iff_exists.mp hs
  refine ⟨hs, fun tag => ?_⟩
  rw [holds, holds, get_update, if_pos rfl, hget, Option.map_some, Option.any_some,
    Option.any_some, hf s hget]

theorem countFrame_tags (s : LiveSocket) (now : ℤ) : (s.countFrame now).tags = s.tags := by
  unfold LiveSocket.countFrame
  simp only
  split_ifs
  · rfl
  · rfl

theorem still_takeWatch {watch : Watch}
    (hs : ∀ s', hub.sockets.get ws = some s' → s.tags = s'.tags) :
    Still ws hub (hub.takeWatch ws s watch).1 := by
  unfold takeWatch
  have hcount : Still ws hub
      (hub.update ws fun _ => { s with watches := s.watches + 1 }) := still_update hs
  simp only
  split_ifs
  · exact hcount.trans still_drop
  · exact hcount
  · exact hcount.trans (still_update fun _ _ => rfl)

theorem still_message {data : Inbound} {now : ℤ} {slow : Bool} :
    Still ws hub (hub.message ws data now slow).1 := by
  unfold message
  split
  · exact .refl
  · next s hs =>
    have hcount : Still ws hub (hub.update ws fun _ => s.countFrame now) := by
      refine still_update fun s' hs' => ?_
      rw [countFrame_tags, Option.some.inj (hs.symm.trans hs')]
    simp only
    split_ifs
    · exact hcount.trans still_drop
    · cases data with
      | heartbeat => exact hcount.trans still_send
      | malformed => exact hcount.trans still_drop
      | watch watch =>
        refine hcount.trans (still_takeWatch fun s' hs' => ?_)
        rw [get_update, if_pos rfl, hs] at hs'
        rw [← Option.some.inj hs']

theorem watch_of_message {data : Inbound} {now : ℤ} {slow : Bool} {i : Installing}
    (h : (hub.message ws data now slow).2 = some i) : data = .watch i.watch ∧ i.ws = ws := by
  unfold message at h
  split at h
  · cases h
  · simp only at h
    split_ifs at h
    cases data with
    | heartbeat => cases h
    | malformed => cases h
    | watch watch =>
      simp only [takeWatch] at h
      split_ifs at h
      obtain rfl := Option.some.inj h
      exact ⟨rfl, rfl⟩

theorem leaveOthers_sent {next : InsertionMap JSString Unit} {tags : List JSString} :
    (tags.foldl (fun hub tag => if next.has tag then hub else hub.leave ws tag) hub).sent =
      hub.sent := by
  induction tags generalizing hub with
  | nil => rfl
  | cons tag tags ih =>
    rw [List.foldl_cons, ih]
    split_ifs
    · rfl
    · exact (update_fields hub ws _).2.2.1

theorem joinOthers_sent {tags : List JSString} :
    (tags.foldl (fun hub tag => if hub.holds ws tag then hub else hub.join ws tag) hub).sent =
      hub.sent := by
  induction tags generalizing hub with
  | nil => rfl
  | cons tag tags ih =>
    rw [List.foldl_cons, ih]
    split_ifs
    · rfl
    · exact (update_fields hub ws _).2.2.1

theorem rewatch_sent {held next : InsertionMap JSString Unit} :
    (hub.rewatch ws held next).sent = hub.sent := joinOthers_sent.trans leaveOthers_sent

end LiveHub

/-- The hub that a watch reaches `ready` in holds its tags. -/
structure Watched (core : LiveCore) (i : Installing) (prepared : List Prepared) (hub : LiveHub) :
    Prop where
  quiet : core.hub.Quiet hub
  apart : LiveHub.Apart i.ws core.hub hub
  sent : hub.sent = core.hub.sent
  held : ∀ tag ∈ (LiveHub.tagSet prepared).keys, hub.holds i.ws tag

inductive Installed (core : LiveCore) (i : Installing) (prepared : List Prepared) (slow : Bool) :
    LiveHub → Prop
  | ignored : Installed core i prepared slow core.hub
  | refused (code : ℕ) : Installed core i prepared slow (core.hub.drop i.ws code)
  | ready (hub : LiveHub) (h : Watched core i prepared hub) : Installed core i prepared slow
    (hub.send i.ws (.ready i.ws i.watch.gen (prepared.map (staleOf core.history))) slow)

theorem installed_installPrepared {options : HubOptions} {core : LiveCore} {i : Installing}
    {prepared : List Prepared} {slow : Bool} :
    Installed core i prepared slow (core.installPrepared options i prepared slow) := by
  unfold LiveCore.installPrepared
  split
  · exact .ignored
  · next s hs =>
    split_ifs
    · exact .ignored
    · exact .refused closeCapacity
    · split
      · exact .refused _
      · next sub _ =>
        simp only
        split_ifs
        · exact .refused closeCapacity
        · refine .ready _ ?_
          have hsub : core.hub.Quiet (core.hub.update i.ws fun s => { s with sub := sub }) :=
            LiveHub.quiet_update fun _ _ => rfl
          have hget : (core.hub.update i.ws fun s => { s with sub := sub }).sockets.get i.ws =
              some { s with sub := sub } := by
            rw [LiveHub.get_update, if_pos rfl, hs]
            rfl
          obtain ⟨hquiet, hapart, -, hheld⟩ :=
            LiveHub.joined_rewatch (LiveHub.tagSet prepared) hget
          exact ⟨hsub.trans hquiet, LiveHub.apart_update.trans hapart,
            LiveHub.rewatch_sent.trans (LiveHub.update_fields _ _ _).2.2.1, hheld⟩

theorem install_cases (options : HubOptions) (core : LiveCore) (i : Installing) (slow : Bool) :
    (∃ code, (core.install options i slow).hub = core.hub.drop i.ws code) ∨
      ∃ prepared, options.prepare i.sid [] i.watch.grants = .ok prepared ∧
        Installed core i prepared slow (core.install options i slow).hub := by
  simp only [LiveCore.install]
  cases hprepared : options.prepare i.sid [] i.watch.grants with
  | error code => exact Or.inl ⟨code, rfl⟩
  | ok prepared => exact Or.inr ⟨prepared, rfl, installed_installPrepared⟩

end Nifra.Live
