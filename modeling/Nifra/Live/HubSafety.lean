import Nifra.Live.HubRuns

/-! # No change is lost

A change that a watch does not report as stale is published to its socket after `ready`, or is noted
in a window that is yet to end.
-/

namespace Nifra.Live

open LiveHub

variable {options : HubOptions} {s t : HubState} {action : HubAction} {past : List (ℕ × ℕ)}
  {ws : ℕ} {tag : JSString} {key : LiveKey}

namespace HubAction

/-- The changes that an action records, with the hashes of their keys. -/
def changes (options : HubOptions) : HubAction → List (ℕ × ℕ)
  | .apply ⟨seq, .change texts⟩ _ =>
    (texts.filterMap toKey?).map fun key => (seq, options.hash key)
  | _ => []

end HubAction

structure HubState.Sound (options : HubOptions) (past : List (ℕ × ℕ)) (s : HubState) : Prop where
  counted : s.core.hub.Counted
  windowed : s.core.hub.Windowed options
  complete : s.core.history.Complete past
  bound : ∀ change ∈ past, change.1 ≤ s.core.history.last
  listed : ∀ i ∈ s.installing, ∀ grant, some grant ∈ i.watch.grants →
    grant.secret < options.secretCount

/-- What a step does to the hub: it leaves the windows alone, fans a change out, or ends them. -/
inductive Fans (options : HubOptions) (hub hub' : LiveHub) : Prop
  | quiet (h : hub.Quiet hub')
  | change (keys : List LiveKey) (h : hub' = hub.change (tagged options keys))
  | flush (h : hub' = hub.flush)

namespace Fans
variable {hub hub' : LiveHub}

theorem sent (h : Fans options hub hub') : hub.sent <+: hub'.sent := by
  cases h with
  | quiet h => exact h.sent
  | change keys h => exact h ▸ fanned_change.sent
  | flush h => exact h ▸ fanned_flush.sent

theorem counted (h : Fans options hub hub') (hcounted : hub.Counted) : hub'.Counted := by
  cases h with
  | quiet h => exact h.counted hcounted
  | change keys h => exact h ▸ fanned_change.counted hcounted
  | flush h => exact h ▸ fanned_flush.counted hcounted

theorem windowed (h : Fans options hub hub') (hwindowed : hub.Windowed options) :
    hub'.Windowed options := by
  cases h with
  | quiet h => exact hwindowed.quiet h
  | change keys h => exact h ▸ hwindowed.change
  | flush h => exact h ▸ hwindowed.flush

theorem noted (h : Fans options hub hub') (hcounted : hub.Counted) (hnoted : hub.Noted key tag)
    (hholds : hub.holds ws tag) : Published ws tag hub hub' ∨ hub'.Noted key tag := by
  cases h with
  | quiet h =>
    right
    unfold Noted
    rw [h.coalescing]
    exact hnoted
  | change keys h => exact Or.inr (h ▸ hnoted.change)
  | flush h => exact Or.inl (h ▸ published_flush hcounted hnoted hholds)

end Fans

theorem quiet_revoke {hub : LiveHub} {event : LiveRevocation} {tags : List JSString} :
    hub.Quiet (hub.revoke event tags) := by
  unfold LiveHub.revoke
  split
  · exact .foldl (fun _ _ => quiet_revokeSocket) _
  · have hpublish := fanned_publishTags hub tags
    obtain ⟨hcoalescing, htimer⟩ := publishTags_window hub tags
    have hquiet : hub.Quiet (hub.publishTags tags) :=
      ⟨hcoalescing, htimer, hpublish.sent, hpublish.counted⟩
    exact hquiet.trans (.foldl (fun _ _ => quiet_leaveTags) _)

theorem get_of_fresh (h : s.fresh ws) : s.core.hub.sockets.get ws = none := by
  rw [HubState.fresh, Bool.and_eq_true, Bool.not_eq_true', InsertionMap.has,
    Option.isSome_eq_false_iff, Option.isNone_iff_eq_none] at h
  exact h.1

structure Applies (options : HubOptions) (action : HubAction) (s t : HubState) : Prop where
  fans : Fans options s.core.hub t.core.hub
  complete : ∀ past, s.core.history.Complete past →
    (∀ change ∈ past, change.1 ≤ s.core.history.last) →
    t.core.history.Complete (past ++ action.changes options) ∧
      ∀ change ∈ past ++ action.changes options, change.1 ≤ t.core.history.last

theorem Applies.of_history (hfans : Fans options s.core.hub t.core.hub)
    (hhistory : t.core.history = s.core.history) (hnone : action.changes options = []) :
    Applies options action s t := by
  refine ⟨hfans, fun past hcomplete hbound => ?_⟩
  rw [hnone, hhistory, List.append_nil]
  exact ⟨hcomplete, hbound⟩

theorem applies_apply {event : LiveBusEvent} {now : ℤ} {core : LiveCore}
    (hseq : s.core.history.last < event.seq)
    (hcore : s.core.applyEvent options event now = some core) :
    Applies options (.apply event now) s { s with core := core } := by
  obtain ⟨seq, input⟩ := event
  have hpast {past : List (ℕ × ℕ)} (hbound : ∀ change ∈ past, change.1 ≤ s.core.history.last) :
      ∀ change ∈ past, change.1 ≤ seq := fun change hchange =>
    (hbound change hchange).trans hseq.le
  cases input with
  | change texts =>
    obtain rfl := Option.some.inj hcore
    refine ⟨.change _ rfl, fun past hcomplete hbound => ⟨?_, ?_⟩⟩
    · have hrecord : History.Complete _ (s.core.history.record seq _ now) :=
        hcomplete.record (hpast hbound) ((texts.filterMap toKey?).map options.hash)
      rw [List.map_map] at hrecord
      exact hrecord
    · intro change hchange
      simp only [History.record_last]
      rcases List.mem_append.mp hchange with hold | hnew
      · exact hpast hbound change hold
      · obtain ⟨key, -, rfl⟩ := List.mem_map.mp hnew
        exact le_rfl
  | malformed => cases hcore
  | revoke sub text =>
    simp only [LiveCore.applyEvent, Option.bind_eq_bind, Option.bind_eq_some_iff] at hcore
    obtain ⟨revocation, -, hcore⟩ := hcore
    obtain rfl := Option.some.inj hcore
    have hnone : (HubAction.apply ⟨seq, .revoke sub text⟩ now).changes options = [] := rfl
    refine ⟨.quiet quiet_revoke, fun past hcomplete hbound => ?_⟩
    rw [hnone, List.append_nil]
    refine ⟨hcomplete.advance, fun change hchange => ?_⟩
    simp only [History.advance_last]
    exact hpast hbound change hchange

theorem quiet_install {core : LiveCore} {i : Installing} {slow : Bool} :
    core.hub.Quiet (core.install options i slow).hub := by
  rcases install_cases options core i slow with ⟨code, hdrop⟩ | ⟨prepared, -, hinstalled⟩
  · rw [hdrop]
    exact quiet_drop
  · generalize (core.install options i slow).hub = hub at hinstalled
    cases hinstalled with
    | ignored => exact .refl
    | refused code => exact quiet_drop
    | ready hub hwatched => exact hwatched.quiet.trans quiet_send

theorem applies_step (h : s.Step options action t) : Applies options action s t := by
  cases h with
  | openSocket hfresh =>
    exact .of_history (.quiet (quiet_openSocket (get_of_fresh hfresh))) rfl rfl
  | restore hfresh => exact .of_history (.quiet (quiet_restore (get_of_fresh hfresh))) rfl rfl
  | message => exact .of_history (.quiet still_message.quiet) rfl rfl
  | install => exact .of_history (.quiet quiet_install) rfl rfl
  | fail => exact .of_history (.quiet quiet_drop) rfl rfl
  | drop => exact .of_history (.quiet quiet_drop) rfl rfl
  | close => exact .of_history (.quiet quiet_forget) rfl rfl
  | closing => exact .of_history (.quiet (quiet_update fun _ _ => rfl)) rfl rfl
  | apply hseq hcore => exact applies_apply hseq hcore
  | flush => exact .of_history (.flush rfl) rfl rfl
  | @resync head =>
    have hup : s.core.hub.Quiet { s.core.hub with down := false } :=
      ⟨rfl, rfl, List.prefix_rfl, id⟩
    have hnone : (HubAction.resync head).changes options = [] := rfl
    refine ⟨.quiet (hup.trans quiet_closeAll), fun past hcomplete hbound => ?_⟩
    rw [hnone, List.append_nil]
    have hhead : ∀ change ∈ past, change.1 ≤ max head s.core.history.last :=
      fun change hchange => (hbound change hchange).trans (le_max_right _ _)
    exact ⟨.reset hhead, hhead⟩
  | lose =>
    have hlost : s.core.hub.Quiet { s.core.hub with down := true } :=
      ⟨rfl, rfl, List.prefix_rfl, id⟩
    exact .of_history (.quiet (hlost.trans quiet_closeAll)) rfl rfl

theorem listed_step (h : s.Step options action t)
    (hlisted : ∀ i ∈ s.installing, ∀ grant, some grant ∈ i.watch.grants →
      grant.secret < options.secretCount) :
    ∀ i ∈ t.installing, ∀ grant, some grant ∈ i.watch.grants →
      grant.secret < options.secretCount := by
  cases h with
  | message hdata =>
    intro i hi grant hgrant
    rcases List.mem_append.mp hi with hi | hi
    · exact hlisted i hi grant hgrant
    · obtain ⟨rfl, -⟩ := watch_of_message (Option.mem_toList.mp hi)
      have hall := List.all_eq_true.mp hdata _ hgrant
      exact of_decide_eq_true hall
  | install => exact fun i hi => hlisted i (List.mem_of_mem_eraseIdx hi)
  | fail => exact fun i hi => hlisted i (List.mem_of_mem_eraseIdx hi)
  | _ => exact hlisted

theorem HubState.Sound.step (hs : s.Sound options past) (h : s.Step options action t) :
    t.Sound options (past ++ action.changes options) := by
  have happlies := applies_step h
  obtain ⟨hcomplete, hbound⟩ := happlies.complete past hs.complete hs.bound
  exact ⟨happlies.fans.counted hs.counted, happlies.fans.windowed hs.windowed, hcomplete, hbound,
    listed_step h hs.listed⟩

theorem HubState.Sound.run {actions : List HubAction} (hs : s.Sound options past)
    (h : Runs.run (HubState.step options) s actions = some t) :
    t.Sound options (past ++ actions.flatMap (HubAction.changes options)) := by
  induction actions generalizing s past with
  | nil =>
    obtain rfl := Option.some.inj h
    simpa using hs
  | cons action actions ih =>
    obtain ⟨u, hu, ht⟩ := Runs.run_cons_iff.mp h
    simpa using ih (hs.step (HubState.step_cases hu)) ht

theorem HubState.sound_create (head capacity limit : ℕ) (maxAgeMs ttlMs : ℤ) :
    (HubState.create head capacity limit maxAgeMs ttlMs).Sound options [] :=
  ⟨counted_create, ⟨nofun, nofun⟩, .create, nofun, nofun⟩

/-- A step after which the socket is still there, has not left the tag through a revocation of its
key, and has no newer watch. -/
structure Stays (options : HubOptions) (ws : ℕ) (tag : JSString) (s : HubState)
    (action : HubAction) (t : HubState) : Prop where
  before : (s.core.hub.sockets.get ws).isSome
  after : (t.core.hub.sockets.get ws).isSome
  unrevoked : ∀ event now revocation key, action = .apply event now →
    event.input.revocation? = some revocation → revocation.key = some key →
    tag ∈ options.tagsOf key → (s.core.hub.sockets.get ws).any (concerns revocation.sub) = false
  unreplaced : ∀ n slow i stale, action = .install n slow → s.installing[n]? = some i →
    i.ws = ws → ¬ s.core.hub.sent ++ [.ready ws i.watch.gen stale] <+: t.core.hub.sent

theorem holds_of_same {hub hub' : LiveHub} (h : Same ws hub hub')
    (hs : (hub'.sockets.get ws).isSome) (hholds : hub.holds ws tag) : hub'.holds ws tag := by
  rcases h with hnone | hsame
  · rw [hnone] at hs
    cases hs
  · rw [LiveHub.holds, hsame]
    exact hholds

theorem holds_leaveTags {hub : LiveHub} {ws' : ℕ} {sub : Option JSString} {tags : List JSString}
    (htag : tag ∉ tags) (hholds : hub.holds ws tag) :
    (hub.leaveTags sub tags ws').holds ws tag := by
  by_cases hws : ws = ws'
  · subst hws
    unfold LiveHub.leaveTags
    split_ifs with hconcerns
    · clear hconcerns
      induction tags generalizing hub with
      | nil => exact hholds
      | cons first tags ih =>
        rw [List.mem_cons, not_or] at htag
        rw [List.foldl_cons]
        refine ih htag.2 ?_
        split_ifs
        · rw [holds_leave htag.1]
          exact hholds
        · exact hholds
    · exact hholds
  · rw [apart_leaveTags.holds hws]
    exact hholds

theorem get_leaveTags {hub : LiveHub} {sub : Option JSString} (ws' : ℕ) (tags : List JSString)
    (h : (hub.sockets.get ws).any (concerns sub) = false) :
    (hub.leaveTags sub tags ws').sockets.get ws = hub.sockets.get ws := by
  by_cases hws : ws = ws'
  · subst hws
    rw [LiveHub.leaveTags, h, if_neg Bool.false_ne_true]
  · exact apart_leaveTags ws hws

theorem holds_leaveTags_foldl {hub : LiveHub} {sub : Option JSString} {tags : List JSString}
    (others : List ℕ)
    (hunrevoked : tag ∈ tags → (hub.sockets.get ws).any (concerns sub) = false)
    (hholds : hub.holds ws tag) :
    (others.foldl (fun hub ws => hub.leaveTags sub tags ws) hub).holds ws tag := by
  induction others generalizing hub with
  | nil => exact hholds
  | cons other others ih =>
    rw [List.foldl_cons]
    by_cases htag : tag ∈ tags
    · have hget := get_leaveTags other tags (hunrevoked htag)
      refine ih (fun _ => ?_) ?_
      · rw [hget]
        exact hunrevoked htag
      · rw [LiveHub.holds, hget]
        exact hholds
    · exact ih (fun hmem => absurd hmem htag) (holds_leaveTags htag hholds)

theorem holds_revoke {hub : LiveHub} {event : LiveRevocation}
    (hafter : ((hub.revoke event (event.key.elim [] options.tagsOf)).sockets.get ws).isSome)
    (hunrevoked : ∀ key, event.key = some key → tag ∈ options.tagsOf key →
      (hub.sockets.get ws).any (concerns event.sub) = false) (hholds : hub.holds ws tag) :
    (hub.revoke event (event.key.elim [] options.tagsOf)).holds ws tag := by
  obtain ⟨sub, key⟩ := event
  cases key with
  | none => exact holds_of_same (.foldl (fun _ _ => same_revokeSocket) _) hafter hholds
  | some key =>
    have hpublish := fanned_publishTags hub (options.tagsOf key)
    refine holds_leaveTags_foldl _ (fun htag => ?_) (hpublish.holds.trans hholds)
    rw [Option.elim_some, hpublish.sockets]
    exact hunrevoked key rfl htag

theorem holds_install {core : LiveCore} {i : Installing} {slow : Bool}
    (hafter : ((core.install options i slow).hub.sockets.get ws).isSome)
    (hunready : ∀ stale, i.ws = ws →
      ¬ core.hub.sent ++ [.ready ws i.watch.gen stale] <+: (core.install options i slow).hub.sent)
    (hholds : core.hub.holds ws tag) : (core.install options i slow).hub.holds ws tag := by
  rcases install_cases options core i slow with ⟨code, hdrop⟩ | ⟨prepared, -, hinstalled⟩
  · rw [hdrop] at hafter ⊢
    exact holds_of_same same_drop hafter hholds
  · generalize (core.install options i slow).hub = hub at hinstalled hafter hunready ⊢
    cases hinstalled with
    | ignored => exact hholds
    | refused code => exact holds_of_same same_drop hafter hholds
    | ready hub hwatched =>
      have hready := sent_send hub i.ws
        (.ready i.ws i.watch.gen (prepared.map (staleOf core.history))) slow
      rw [hwatched.sent] at hready
      by_cases hws : ws = i.ws
      · subst hws
        exact absurd hready (hunready _ rfl)
      · exact ((hwatched.apart.trans apart_send).holds hws).trans hholds

theorem Stays.holds (hstays : Stays options ws tag s action t) (h : s.Step options action t)
    (hholds : s.core.hub.holds ws tag) : t.core.hub.holds ws tag := by
  have hafter := hstays.after
  have hother {ws' : ℕ} (hfresh : s.fresh ws') : ws ≠ ws' := by
    rintro rfl
    have hbefore := hstays.before
    rw [get_of_fresh hfresh] at hbefore
    cases hbefore
  cases h with
  | openSocket hfresh => exact (apart_openSocket.holds (hother hfresh)).trans hholds
  | restore hfresh => exact (apart_restore.holds (hother hfresh)).trans hholds
  | @message ws' data now slow =>
    have hstill : Still ws' s.core.hub (s.core.hub.message ws' data now slow).1 := still_message
    by_cases hws : ws = ws'
    · subst hws
      exact ((hstill.held hafter).2 tag).trans hholds
    · exact (hstill.apart.holds hws).trans hholds
  | @install n slow i hi =>
    exact holds_install hafter (fun stale hws => hstays.unreplaced n slow i stale rfl hi hws) hholds
  | fail => exact holds_of_same same_drop hafter hholds
  | drop => exact holds_of_same same_drop hafter hholds
  | @close ws' =>
    by_cases hws : ws = ws'
    · subst hws
      change ((s.core.hub.forget ws).sockets.get ws).isSome at hafter
      rw [sockets_forget, InsertionMap.get_delete, if_pos rfl] at hafter
      cases hafter
    · exact (apart_forget.holds hws).trans hholds
  | @closing ws' =>
    have hstill : Still ws' s.core.hub (s.core.hub.update ws' _) :=
      still_update fun s _ => show ({ s with isOpen := false } : LiveSocket).tags = s.tags from rfl
    by_cases hws : ws = ws'
    · subst hws
      exact ((hstill.held hafter).2 tag).trans hholds
    · exact (hstill.apart.holds hws).trans hholds
  | @apply event now core hseq hcore =>
    have hunrevoked := hstays.unrevoked event now
    obtain ⟨seq, input⟩ := event
    cases input with
    | change texts =>
      obtain rfl := Option.some.inj hcore
      exact fanned_change.holds.trans hholds
    | malformed => cases hcore
    | revoke sub text =>
      simp only [LiveCore.applyEvent, Option.bind_eq_bind, Option.bind_eq_some_iff] at hcore
      obtain ⟨revocation, hrevocation, hcore⟩ := hcore
      obtain rfl := Option.some.inj hcore
      exact holds_revoke hafter (fun key hkey => hunrevoked revocation key rfl hrevocation hkey)
        hholds
  | flush => exact fanned_flush.holds.trans hholds
  | resync =>
    have hsame : Same ws s.core.hub
        (LiveHub.closeAll { s.core.hub with down := false } closeCapacity) := same_closeAll
    exact holds_of_same hsame hafter hholds
  | lose =>
    have hsame : Same ws s.core.hub
        (LiveHub.closeAll { s.core.hub with down := true } closeCapacity) := same_closeAll
    exact holds_of_same hsame hafter hholds

def StaysAlong (options : HubOptions) (ws : ℕ) (tag : JSString) :
    HubState → List HubAction → Prop :=
  Runs.Along (HubState.step options) fun s action =>
    ∀ t, s.step options action = some t → Stays options ws tag s action t

theorem StaysAlong.head {actions : List HubAction}
    (h : StaysAlong options ws tag s (action :: actions)) (ht : s.step options action = some t) :
    Stays options ws tag s action t ∧ StaysAlong options ws tag t actions := by
  obtain ⟨hstays, hrest⟩ := h
  rw [ht] at hrest
  exact ⟨hstays t ht, hrest⟩

theorem StaysAlong.append {actions rest : List HubAction}
    (h : StaysAlong options ws tag s (actions ++ rest))
    (ht : Runs.run (HubState.step options) s actions = some t)
    (hholds : s.core.hub.holds ws tag) :
    t.core.hub.holds ws tag ∧ StaysAlong options ws tag t rest := by
  induction actions generalizing s with
  | nil =>
    obtain rfl := Option.some.inj ht
    exact ⟨hholds, h⟩
  | cons action actions ih =>
    obtain ⟨u, hu, ht⟩ := Runs.run_cons_iff.mp ht
    obtain ⟨hstays, hrest⟩ := h.head hu
    exact ih hrest ht (hstays.holds (HubState.step_cases hu) hholds)

theorem sent_run {actions : List HubAction}
    (h : Runs.run (HubState.step options) s actions = some t) :
    s.core.hub.sent <+: t.core.hub.sent := by
  induction actions generalizing s with
  | nil => exact Option.some.inj h ▸ List.prefix_rfl
  | cons action actions ih =>
    obtain ⟨u, hu, ht⟩ := Runs.run_cons_iff.mp h
    exact (applies_step (HubState.step_cases hu)).fans.sent.trans (ih ht)

theorem noted_run {actions : List HubAction} (hs : s.Sound options past)
    (h : StaysAlong options ws tag s actions)
    (ht : Runs.run (HubState.step options) s actions = some t)
    (hnoted : s.core.hub.Noted key tag) (hholds : s.core.hub.holds ws tag) :
    s.core.hub.sent <+: t.core.hub.sent ∧
      (Published ws tag s.core.hub t.core.hub ∨ t.core.hub.Noted key tag) := by
  induction actions generalizing s past with
  | nil =>
    obtain rfl := Option.some.inj ht
    exact ⟨List.prefix_rfl, Or.inr hnoted⟩
  | cons action actions ih =>
    obtain ⟨u, hu, ht⟩ := Runs.run_cons_iff.mp ht
    obtain ⟨hstays, hrest⟩ := h.head hu
    have hstep := HubState.step_cases hu
    have hfans := (applies_step hstep).fans
    have hsent := sent_run ht
    rcases hfans.noted hs.counted hnoted hholds with hpublished | hnoted
    · exact ⟨hfans.sent.trans hsent, Or.inl (hpublished.after hsent)⟩
    · obtain ⟨-, hrest⟩ := ih (hs.step hstep) hrest ht hnoted (hstays.holds hstep hholds)
      exact ⟨hfans.sent.trans hsent, hrest.imp_left fun hpublished => hpublished.before hfans.sent⟩

theorem prepare_eq {sid : JSString} {paths : List JSString} {grants : List (Option OpenedGrant)}
    {prepared : List Prepared} (h : options.prepare sid paths grants = .ok prepared) :
    ∃ opened : List OpenedGrant, grants = opened.map some ∧
      prepared = opened.map options.prepareGrant := by
  induction grants generalizing paths prepared with
  | nil =>
    obtain rfl := Except.ok.inj h
    exact ⟨[], rfl, rfl⟩
  | cons grant grants ih =>
    cases grant with
    | none => cases h
    | some grant =>
      rw [HubOptions.prepare] at h
      split_ifs at h
      cases hrest : options.prepare sid (paths ++ [grant.claims.path]) grants with
      | error code =>
        rw [hrest] at h
        cases h
      | ok rest =>
        rw [hrest] at h
        obtain rfl := Except.ok.inj h
        obtain ⟨opened, rfl, rfl⟩ := ih hrest
        exact ⟨grant :: opened, rfl, rfl⟩

theorem mem_tagSet {opened : List OpenedGrant} {grant : OpenedGrant} {owner : GrantOwner}
    (hgrant : grant ∈ opened) (howner : owner ∈ grant.claims.owners.values) (hkey : key ∈ owner.k) :
    options.tag key grant.secret ∈ (tagSet (opened.map options.prepareGrant)).keys := by
  have hmem : options.tag key grant.secret ∈
      (opened.map options.prepareGrant).flatMap Prepared.tags := by
    refine List.mem_flatMap.mpr ⟨_, List.mem_map_of_mem hgrant, ?_⟩
    exact List.mem_flatMap.mpr ⟨owner, howner, List.mem_map_of_mem hkey⟩
  rw [InsertionMap.mem_keys_iff]
  exact ⟨(), InsertionMap.get_foldl_set_of_mem (f := id) (g := fun _ => ()) hmem fun _ _ _ => rfl⟩

theorem mem_staleOf {history : History} {grant : OpenedGrant} {id : JSString} {owner : GrantOwner}
    (howner : (id, owner) ∈ grant.claims.owners.entries)
    (hstale : history.known owner.w = false ∨
      ∃ key ∈ owner.k, history.changedSince (options.hash key) owner.w) :
    id ∈ staleOf history (options.prepareGrant grant) := by
  refine List.mem_map.mpr ⟨⟨id, owner.w, owner.k.map options.hash⟩, List.mem_filter.mpr ⟨?_, ?_⟩,
    rfl⟩
  · exact List.mem_map.mpr ⟨(id, owner), howner, rfl⟩
  · rw [Bool.or_eq_true, Bool.not_eq_true', List.any_eq_true]
    refine hstale.imp_right ?_
    rintro ⟨key, hkey, hchanged⟩
    exact ⟨options.hash key, List.mem_map_of_mem hkey, hchanged⟩

theorem mem_tagsOf (key : LiveKey) {secret : ℕ} (h : secret < options.secretCount) :
    options.tag key secret ∈ options.tagsOf key :=
  List.mem_map_of_mem (List.mem_range.mpr h)

def LiveBusEvent.Changes (event : LiveBusEvent) (key : LiveKey) : Prop :=
  ∃ texts, event.input = .change texts ∧ key.text ∈ texts

theorem mem_keys_of_text {texts : List JSString} (h : key.text ∈ texts) :
    key ∈ texts.filterMap toKey? := by
  refine List.mem_filterMap.mpr ⟨key.text, h, ?_⟩
  rw [toKey?, dif_pos key.valid]

theorem mem_changes {event : LiveBusEvent} {now : ℤ} (h : event.Changes key) :
    (event.seq, options.hash key) ∈ (HubAction.apply event now).changes options := by
  obtain ⟨seq, input⟩ := event
  obtain ⟨texts, rfl, hmem⟩ := h
  exact List.mem_map.mpr ⟨key, mem_keys_of_text hmem, rfl⟩

def LiveHub.Due (hub : LiveHub) (key : LiveKey) (tag : JSString) : Prop :=
  hub.timer ∧ hub.Noted key tag

/-- What a watch that reaches `ready` is promised: `before` ran before the hub was in `s`, and the
hub is in `t` with `ready`. -/
structure NothingLost (options : HubOptions) (before : List HubAction) (s t : HubState)
    (i : Installing) (stale : List (List JSString)) : Prop where
  each : ∀ n : ℕ, n < i.watch.grants.length →
    ∃ grant listed, i.watch.grants[n]? = some (some grant) ∧ stale[n]? = some listed
  /-- A change before `ready` that this process lacks, or applied. -/
  listed : ∀ (n : ℕ) grant listed id owner, i.watch.grants[n]? = some (some grant) →
    stale[n]? = some listed → (id, owner) ∈ grant.claims.owners.entries →
    (owner.w < s.core.history.floor ∨ ∃ event now, ∃ key ∈ owner.k,
      .apply event now ∈ before ∧ event.Changes key ∧ owner.w < event.seq) → id ∈ listed
  /-- A change after `ready`. -/
  noticed : ∀ grant owner key, some grant ∈ i.watch.grants → owner ∈ grant.claims.owners.values →
    key ∈ owner.k → ∀ pre event now post u v, event.Changes key →
    Runs.run (HubState.step options) t pre = some u →
    Runs.run (HubState.step options) u (.apply event now :: post) = some v →
    StaysAlong options i.ws (options.tag key grant.secret) t (pre ++ .apply event now :: post) →
    Published i.ws (options.tag key grant.secret) u.core.hub v.core.hub ∨
      v.core.hub.Due key (options.tag key grant.secret)

theorem last_sent_unique {sent sent' : List Sent} {frame frame' : Sent}
    (h : sent ++ [frame] <+: sent') (h' : sent ++ [frame'] <+: sent') : frame = frame' := by
  have hprefix := List.prefix_of_prefix_length_le h h' (by simp)
  have heq := hprefix.eq_of_length (by simp)
  simpa using heq

theorem ready_cases {core : LiveCore} {i : Installing} {slow : Bool} {stale : List (List JSString)}
    (hready : core.hub.sent ++ [.ready i.ws i.watch.gen stale] <+:
      (core.install options i slow).hub.sent) :
    ∃ (opened : List OpenedGrant) (hub : LiveHub), i.watch.grants = opened.map some ∧
      stale = opened.map (fun grant => staleOf core.history (options.prepareGrant grant)) ∧
      Watched core i (opened.map options.prepareGrant) hub ∧
      (core.install options i slow).hub = hub.send i.ws (.ready i.ws i.watch.gen stale) slow := by
  have hundropped {code : ℕ} : ¬ core.hub.sent ++ [.ready i.ws i.watch.gen stale] <+:
      (core.hub.drop i.ws code).sent := by
    intro h
    have hclosed : core.hub.sent ++ [.closed i.ws code] <+: (core.hub.drop i.ws code).sent := by
      simp only [LiveHub.drop, forget_sent, List.prefix_rfl]
    cases last_sent_unique h hclosed
  rcases install_cases options core i slow with ⟨code, hdrop⟩ | ⟨prepared, hprepared, hinstalled⟩
  · rw [hdrop] at hready
    exact absurd hready hundropped
  · obtain ⟨opened, hgrants, rfl⟩ := prepare_eq hprepared
    generalize (core.install options i slow).hub = hub at hinstalled hready
    cases hinstalled with
    | ignored =>
      have hlength := hready.length_le
      rw [List.length_append, List.length_singleton] at hlength
      omega
    | refused code => exact absurd hready hundropped
    | ready hub hwatched =>
      have hsent := sent_send hub i.ws (.ready i.ws i.watch.gen
        ((opened.map options.prepareGrant).map (staleOf core.history))) slow
      rw [hwatched.sent] at hsent
      obtain ⟨-, -, rfl⟩ := Sent.ready.inj (last_sent_unique hready hsent)
      exact ⟨opened, hub, hgrants, List.map_map, hwatched, rfl⟩

theorem StaysAlong.isSome {actions : List HubAction}
    (h : StaysAlong options ws tag s (action :: actions))
    (ht : Runs.run (HubState.step options) s (action :: actions) = some t) :
    (s.core.hub.sockets.get ws).isSome := by
  obtain ⟨u, hu, -⟩ := Runs.run_cons_iff.mp ht
  exact (h.head hu).1.before

theorem noticed_run {event : LiveBusEvent} {now : ℤ} {post : List HubAction}
    (hs : s.Sound options past) (hkey : event.Changes key) (htag : tag ∈ options.tagsOf key)
    (hholds : s.core.hub.holds ws tag)
    (hstays : StaysAlong options ws tag s (.apply event now :: post))
    (ht : Runs.run (HubState.step options) s (.apply event now :: post) = some t) :
    Published ws tag s.core.hub t.core.hub ∨ t.core.hub.Due key tag := by
  obtain ⟨u, hu, ht⟩ := Runs.run_cons_iff.mp ht
  obtain ⟨hstay, hrest⟩ := hstays.head hu
  have hstep := HubState.step_cases hu
  have husound := hs.step hstep
  have hnow : Published ws tag s.core.hub u.core.hub ∨ u.core.hub.Noted key tag := by
    obtain ⟨texts, hinput, hmem⟩ := hkey
    cases hstep with
    | apply hseq hcore =>
      rw [LiveCore.applyEvent, hinput] at hcore
      obtain rfl := Option.some.inj hcore
      exact published_or_noted_change (mem_keys_of_text hmem) hs.counted htag hs.windowed hholds
  have hsent := (applies_step hstep).fans.sent
  rcases hnow with hpublished | hnoted
  · exact Or.inl (hpublished.after (sent_run ht))
  · rcases (noted_run husound hrest ht hnoted (hstay.holds hstep hholds)).2 with hpublished | hnoted
    · exact Or.inl (hpublished.before hsent)
    · refine Or.inr ⟨(husound.run ht).windowed.armed ?_, hnoted⟩
      obtain ⟨pending, hget, -⟩ := hnoted
      have hmem := InsertionMap.get_eq_some_iff.mp hget
      exact Nat.ne_of_gt (List.length_pos_of_mem hmem)

theorem hub_loses_no_change (options : HubOptions) (head capacity limit : ℕ) (maxAgeMs ttlMs : ℤ)
    (before : List HubAction) (s t : HubState) (n : ℕ) (slow : Bool) (i : Installing)
    (stale : List (List JSString))
    (hbefore : Runs.run (HubState.step options)
      (.create head capacity limit maxAgeMs ttlMs) before = some s)
    (hi : s.installing[n]? = some i) (ht : s.step options (.install n slow) = some t)
    (hready : s.core.hub.sent ++ [.ready i.ws i.watch.gen stale] <+: t.core.hub.sent) :
    NothingLost options before s t i stale := by
  have hs := (HubState.sound_create head capacity limit maxAgeMs ttlMs).run hbefore
  rw [List.nil_append] at hs
  have htsound := hs.step (HubState.step_cases ht)
  have hlisted := hs.listed i (List.mem_of_getElem? hi)
  simp only [HubState.step, hi, Option.bind_eq_bind, Option.bind_some] at ht
  obtain rfl := Option.some.inj ht
  obtain ⟨opened, hub, hgrants, hstale, hwatched, hhub⟩ := ready_cases hready
  constructor
  · intro n hn
    rw [hgrants, List.length_map] at hn
    refine ⟨opened[n], staleOf s.core.history (options.prepareGrant opened[n]), ?_, ?_⟩
    · rw [hgrants, List.getElem?_map, List.getElem?_eq_getElem hn, Option.map_some]
    · rw [hstale, List.getElem?_map, List.getElem?_eq_getElem hn, Option.map_some]
  · intro n grant listed id owner hgrant hlist howner hchange
    rw [hgrants, List.getElem?_map, Option.map_eq_some_iff] at hgrant
    obtain ⟨grant', hgrant', hsome⟩ := hgrant
    obtain rfl := Option.some.inj hsome
    rw [hstale, List.getElem?_map, hgrant', Option.map_some] at hlist
    obtain rfl := Option.some.inj hlist
    refine mem_staleOf howner ?_
    rcases hchange with hfloor | ⟨event, now, key, hkey, hmem, hchanges, hlt⟩
    · exact Or.inl (History.known_eq_false_of_lt hfloor)
    · have hpast : (event.seq, options.hash key) ∈ before.flatMap (HubAction.changes options) :=
        List.mem_flatMap.mpr ⟨_, hmem, mem_changes hchanges⟩
      exact Or.inr ⟨key, hkey, hs.complete.changedSince hpast hlt⟩
  · intro grant owner key hgrant howner hkey pre event now post u v hchanges hu hv hstays
    have hmem : grant ∈ opened := by simpa [hgrants] using hgrant
    have htag := mem_tagsOf key (hlisted grant hgrant)
    have hheld := hwatched.held _ (mem_tagSet hmem howner hkey)
    have hrun := Runs.run_append_iff.mpr ⟨u, hu, hv⟩
    have hkept : (hub.send i.ws (.ready i.ws i.watch.gen stale) slow).holds i.ws
        (options.tag key grant.secret) := by
      have hsome : ((hub.send i.ws (.ready i.ws i.watch.gen stale) slow).sockets.get
          i.ws).isSome := by
        rw [← hhub]
        cases pre with
        | nil => exact StaysAlong.isSome hstays hrun
        | cons action pre => exact StaysAlong.isSome hstays hrun
      exact ((still_send.held hsome).2 _).trans hheld
    rw [← hhub] at hkept
    obtain ⟨huholds, hrest⟩ := hstays.append hu hkept
    exact noticed_run (htsound.run hu) hchanges htag huholds hrest hv

/-- A change of `cart` between the frame of the watch and its `ready`. -/
theorem hub_loses_no_change_cart :
    let cart : LiveKey := ⟨js "cart", by decide⟩
    let options : HubOptions := ⟨1, fun key _ => key.text, fun key => key.text.length, 10, 10, none⟩
    let owners : InsertionMap JSString GrantOwner := InsertionMap.set ∅ (js "P:/") ⟨[cart], 5⟩
    let watch : Watch :=
      ⟨0, [some ⟨⟨js "a", none, js "/", js "page", owners, 5, 0, 0, 600⟩, 0⟩]⟩
    let before : List HubAction := [.openSocket 0 (js "a") 0 false false,
      .message 0 (.watch watch) 0 false, .apply ⟨6, .change [js "cart"]⟩ 0]
    ∃ s t, Runs.run (HubState.step options) (.create 5 100 100 120000 600000) before = some s ∧
      s.step options (.install 0 false) = some t ∧
      NothingLost options before s t ⟨0, js "a", watch⟩ [[js "P:/"]] :=
  ⟨_, _, rfl, rfl,
    hub_loses_no_change _ 5 100 100 120000 600000 _ _ _ 0 false _ _ rfl rfl rfl (by decide)⟩

end Nifra.Live
