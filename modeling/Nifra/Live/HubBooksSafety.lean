import Nifra.Live.HubBalance
import Nifra.Live.HubRuns

/-! # Balanced books

Nine entry points change the books of the hub, and a watch goes on after its grants were opened. The
books balance after each of them, and only `restore` lets them grow over the limits.
-/

namespace Nifra.Live

namespace HubBooks

open LiveHub (nonzero)

variable {options : HubOptions} {hub hub' hub'' : HubBooks} {ws ws' code : ℕ}
  {tag tag' : JSString} {next : List JSString} {isOpen slow : Bool} {now : ℤ}

theorem keeps_replace {s s' : HubSocket} (hs : hub.data.get ws = some s) (htags : s'.tags = s.tags)
    (htopics : s'.topics = s.topics) : hub.Keeps (hub.update ws fun _ => s') := by
  refine keeps_update fun s₀ hs₀ => ?_
  obtain rfl := Option.some.inj (hs.symm.trans hs₀)
  exact ⟨htags, fun tag => htopics ▸ id⟩

theorem get_replace {s : HubSocket} (s' : HubSocket) (hs : hub.data.get ws = some s) :
    (hub.update ws fun _ => s').data.get ws = some s' := by
  rw [get_update, if_pos rfl, hs]
  rfl

theorem keeps_takeWatch {s : HubSocket} {watch : Watch} (hs : hub.data.get ws = some s) :
    hub.Keeps (hub.takeWatch ws s watch).1 ∧
      ∀ i ∈ (hub.takeWatch ws s watch).2, i.ws = ws := by
  have hcount : hub.Keeps (hub.update ws fun _ => { s with watches := s.watches + 1 }) :=
    keeps_replace hs rfl rfl
  have hget := get_replace { s with watches := s.watches + 1 } hs
  simp only [takeWatch]
  split_ifs
  · exact ⟨hcount.trans (keeps_drop (by rw [hget]; rfl)), nofun⟩
  · exact ⟨hcount, nofun⟩
  · refine ⟨hcount.trans (keeps_update fun _ _ => ⟨rfl, fun _ => id⟩), ?_⟩
    rintro i ⟨⟩
    rfl

theorem keeps_message {data : Inbound} : hub.Keeps (hub.message ws data now slow).1 ∧
    ∀ i ∈ (hub.message ws data now slow).2, i.ws = ws ∧ (hub.data.get ws).isSome := by
  unfold message
  split
  · exact ⟨.refl, by rintro _ ⟨⟩⟩
  · next s hs =>
    have hframe : hub.Keeps (hub.update ws fun _ => { s with
        toLiveSocket := s.toLiveSocket.countFrame now, lastSeen := now }) :=
      keeps_replace hs (LiveHub.countFrame_tags _ _) rfl
    have hget := get_replace { s with
      toLiveSocket := s.toLiveSocket.countFrame now, lastSeen := now } hs
    have hknown : ((hub.update ws fun _ => { s with
        toLiveSocket := s.toLiveSocket.countFrame now, lastSeen := now }).data.get ws).isSome := by
      rw [hget]
      rfl
    split_ifs with hin
    · dsimp only
      split_ifs
      · exact ⟨hframe.trans (keeps_drop hknown), by rintro _ ⟨⟩⟩
      · cases data with
        | heartbeat =>
          refine ⟨hframe.trans (keeps_send ?_ (fun other h => ?_) ?_), by rintro _ ⟨⟩⟩
          · rwa [(update_fields hub ws _).1]
          · exact (of_decide_eq_true h).symm
          · rintro _ _ ⟨⟩
        | malformed => exact ⟨hframe.trans (keeps_drop hknown), by rintro _ ⟨⟩⟩
        | watch watch =>
          obtain ⟨hkeeps, hws⟩ := keeps_takeWatch hget
          refine ⟨hframe.trans hkeeps, fun i hi => ⟨hws i hi, ?_⟩⟩
          rw [hs]
          rfl
    · exact ⟨.refl, by rintro _ ⟨⟩⟩

structure Fits (options : HubOptions) (hub : HubBooks) : Prop where
  members : hub.members.size ≤ options.maxTopics
  memberships : ∀ budget ∈ options.maxMemberships, hub.memberships ≤ (budget : ℕ)

theorem Shrinks.fits (h : hub.Shrinks hub') (hfits : hub.Fits options) : hub'.Fits options :=
  ⟨h.members.trans hfits.members, fun budget hbudget =>
    h.memberships.trans (hfits.memberships budget hbudget)⟩

theorem moves_rewatch {s : HubSocket} (hs : hub.data.get ws = some s)
    (next : InsertionMap JSString Unit) :
    Moves ws next.keys hub (hub.rewatch ws s.tags next) ∧
      ∀ tag, (hub.rewatch ws s.tags next).holds ws tag → tag ∈ next.keys := by
  have htags : hub.tagsOf ws = s.tags := by rw [tagsOf, hs]; rfl
  have hleave : ∀ next', Moves ws next' hub (s.tags.keys.foldl
      (fun hub tag => if next.has tag then hub else hub.leave ws tag true) hub) := fun next' =>
    moves_leaveOthers next.has s.tags.nodup (fun tag hmem => by
      rw [holds_eq, htags]
      exact InsertionMap.has_iff_mem_keys.mpr hmem) (Or.inl rfl)
  have hknown : ((s.tags.keys.foldl (fun hub tag =>
      if next.has tag then hub else hub.leave ws tag true) hub).data.get ws).isSome := by
    rw [(hleave []).known, hs]
    rfl
  have hjoin : Moves ws next.keys _ (hub.rewatch ws s.tags next) :=
    moves_joinOthers hknown fun _ => id
  refine ⟨(hleave _).trans hjoin, fun tag hheld => ?_⟩
  rcases hjoin.tags tag hheld with hheld | hmem
  · rw [holds_leaveOthers, Bool.and_eq_true, Bool.or_eq_true, decide_eq_true_eq] at hheld
    obtain ⟨hheld, hkept | hnot⟩ := hheld
    · exact InsertionMap.has_iff_mem_keys.mp hkept
    · rw [holds_eq, htags] at hheld
      exact absurd (InsertionMap.has_iff_mem_keys.mp hheld) hnot
  · exact hmem

theorem fits_rewatch {s : HubSocket} {next : InsertionMap JSString Unit}
    (hs : hub.data.get ws = some s) (hcounted : hub.Counted)
    (hroom : hub.overfull options s next = false) : (hub.rewatch ws s.tags next).Fits options := by
  obtain ⟨hmoves, hheld⟩ := moves_rewatch hs next
  have htags : hub.tagsOf ws = s.tags := by rw [tagsOf, hs]; rfl
  rw [overfull, Bool.or_eq_false_iff, decide_eq_false_iff_not, not_lt] at hroom
  constructor
  · have hmembers : (hub.rewatch ws s.tags next).members.size ≤
        (hub.members.keys ++ next.keys.filter fun tag => !hub.members.has tag).length := by
      refine InsertionMap.size_le_length fun tag hmem => ?_
      rw [List.mem_append, List.mem_filter, ← InsertionMap.has_iff_mem_keys]
      cases hmember : hub.members.has tag with
      | true => exact Or.inl rfl
      | false =>
        rcases hmoves.has_members hcounted (InsertionMap.has_iff_mem_keys.mpr hmem) with h | h
        · rw [hmember] at h
          cases h
        · exact Or.inr ⟨h, rfl⟩
    rw [List.length_append, ← List.countP_eq_length_filter, ← InsertionMap.size_eq_length_keys]
      at hmembers
    exact hmembers.trans hroom.1
  · intro budget hbudget
    have hbound : ¬(budget : ℤ) < hub.memberships - s.tags.size + next.size := by
      have hany := hroom.2
      rw [Option.mem_def.mp hbudget, Option.any_some, decide_eq_false_iff_not] at hany
      exact hany
    have hsize : ((hub.rewatch ws s.tags next).tagsOf ws).size ≤ next.size := by
      rw [InsertionMap.size_eq_length_keys (m := next)]
      refine InsertionMap.size_le_length fun tag hmem => hheld tag ?_
      rw [holds_eq]
      exact InsertionMap.has_iff_mem_keys.mpr hmem
    have hbalance := hmoves.balance
    rw [htags] at hbalance
    omega

structure Installs (options : HubOptions) (hub hub' : HubBooks) : Prop where
  balanced : hub'.Balanced
  later : hub.Later hub'
  sockets : hub'.sockets.size ≤ hub.sockets.size
  fits : hub.Shrinks hub' ∨ hub'.Fits options

theorem Keeps.installs (h : hub.Keeps hub') (hbalanced : hub.Balanced) :
    Installs options hub hub' := by
  obtain ⟨hend, hlater, hshrinks⟩ := h hbalanced
  exact ⟨hend, hlater, hshrinks.sockets, Or.inl hshrinks⟩

theorem keeps_ready (gen : ℕ) (stale : List (List JSString)) (slow : Bool)
    {f : HubSocket → HubSocket} (hin : hub.sockets.has ws)
    (hf : ∀ s, (f s).tags = s.tags ∧ ∀ tag, (f s).topics.has tag → s.topics.has tag) :
    hub.Keeps ((hub.update ws f).send ws (.ready ws gen stale) slow) := by
  have hclock : hub.Keeps (hub.update ws f) := keeps_update fun s _ => hf s
  refine hclock.trans (keeps_send ?_ (fun other h => ?_) nofun)
  · rwa [(update_fields hub ws f).1]
  · exact (of_decide_eq_true h).symm

theorem installs_rewatch {s : HubSocket} {next : InsertionMap JSString Unit}
    {sub : Option (Option JSString)} {f : HubSocket → HubSocket} {gen : ℕ}
    {stale : List (List JSString)} (hs : hub.data.get ws = some s) (hin : hub.sockets.has ws)
    (hroom : hub.overfull options s next = false)
    (hf : ∀ s, (f s).tags = s.tags ∧ ∀ tag, (f s).topics.has tag → s.topics.has tag)
    (hbalanced : hub.Balanced) :
    Installs options hub ((((hub.update ws fun s => { s with sub := sub }).rewatch ws s.tags
      next).update ws f).send ws (.ready ws gen stale) slow) := by
  have hsub : hub.Keeps (hub.update ws fun s => { s with sub := sub }) :=
    keeps_update fun _ _ => ⟨rfl, fun _ => id⟩
  have hget : (hub.update ws fun s => { s with sub := sub }).data.get ws =
      some { s with sub := sub } := by
    rw [get_update, if_pos rfl, hs]
    rfl
  obtain ⟨hsockets, hmembers, hmemberships, -⟩ :=
    update_fields hub ws fun s => { s with sub := sub }
  have hroom' : (hub.update ws fun s => { s with sub := sub }).overfull options
      { s with sub := sub } next = false := by
    rwa [overfull, hmembers, hmemberships]
  obtain ⟨hstart, hlater, hshrinks⟩ := hsub hbalanced
  have hmoves := (moves_rewatch hget next).1
  have hfits := fits_rewatch hget hstart.counted hroom'
  have hmid := hmoves.balanced (Or.inl (hsockets ▸ hin)) hstart
  have hin' := hmoves.sockets.trans hsockets
  obtain ⟨hend, hlater', hshrinks'⟩ := keeps_ready gen stale slow (hin' ▸ hin) hf hmid
  exact ⟨hend, (hlater.trans hmoves.later).trans hlater',
    hshrinks'.sockets.trans (congrArg InsertionMap.size hin').le,
    Or.inr (hshrinks'.fits hfits)⟩

theorem installs_installPrepared {history : History} {revocations : Revocations} {i : Installing}
    {prepared : List Prepared} (hbalanced : hub.Balanced) :
    Installs options hub
      (hub.installPrepared options history revocations i prepared now slow) := by
  unfold installPrepared
  split
  · exact Keeps.refl.installs hbalanced
  · next s hs =>
    have hknown : (hub.data.get i.ws).isSome := by rw [hs]; rfl
    by_cases hstale : !hub.sockets.has i.ws || !s.isOpen || s.received ≠ (i.watch.gen : ℤ)
    · rw [if_pos hstale]
      exact Keeps.refl.installs hbalanced
    · have hin : hub.sockets.has i.ws := by
        cases hin : hub.sockets.has i.ws with
        | true => rfl
        | false => simp [hin] at hstale
      rw [if_neg hstale]
      split
      · exact (keeps_drop hknown).installs hbalanced
      · split
        · exact (keeps_drop hknown).installs hbalanced
        · dsimp only
          cases hfull : hub.overfull options s (LiveHub.tagSet prepared) with
          | true =>
            rw [if_pos rfl]
            exact (keeps_drop hknown).installs hbalanced
          | false =>
            rw [if_neg Bool.false_ne_true]
            exact installs_rewatch hs hin hfull (fun _ => ⟨rfl, fun _ => id⟩) hbalanced

theorem installs_install {history : History} {revocations : Revocations} {i : Installing}
    (hknown : (hub.data.get i.ws).isSome) (hbalanced : hub.Balanced) :
    Installs options hub (hub.install options history revocations i now slow) := by
  unfold install
  split
  · exact (keeps_drop hknown).installs hbalanced
  · exact installs_installPrepared hbalanced

theorem Installs.within (h : Installs options hub hub') : Within options hub hub' := by
  rcases h.fits with hshrinks | hfits
  · exact hshrinks.within
  · exact ⟨h.sockets.trans (le_max_left _ _), hfits.members.trans (le_max_right _ _),
      fun budget hbudget => (hfits.memberships budget hbudget).trans (le_max_right _ _)⟩

theorem keeps_expired : hub.Keeps (hub.expired ws now) := by
  unfold expired
  split
  · exact .refl
  · next s hs =>
    split_ifs
    · exact .refl
    · exact keeps_drop (by rw [hs]; rfl)

theorem keeps_sweepSocket {beat : ℕ → Option ℤ} {slow : ℕ → Bool} {due : WithTop ℤ} :
    hub.Keeps (sweepSocket now beat slow (hub, due) ws).1 := by
  unfold sweepSocket
  dsimp only
  split
  · exact .refl
  · next s hs =>
    have hdrop : ∀ code, hub.Keeps (hub.drop ws code) := fun _ => keeps_drop (by rw [hs]; rfl)
    split_ifs
    · exact hdrop _
    · exact hdrop _
    · exact hdrop _
    · exact hdrop _
    · exact .refl
    · exact .refl

theorem keeps_sweep {beat : ℕ → Option ℤ} {slow : ℕ → Bool} :
    hub.Keeps (hub.sweep now beat slow).1 := by
  have hfold : ∀ (l : List ℕ) (swept : HubBooks × WithTop ℤ),
      swept.1.Keeps (l.foldl (sweepSocket now beat slow) swept).1 := by
    intro l
    induction l with
    | nil => exact fun _ => .refl
    | cons ws l ih => exact fun swept => keeps_sweepSocket.trans (ih _)
  exact hfold _ (hub, ⊤)

theorem balanced_enter (s : HubSocket) (sockets : InsertionMap ℕ Unit)
    (hfresh : hub.data.get ws = none) (htags : s.tags = ∅) (htopics : s.topics = ∅)
    (hsockets : ∀ other ≠ ws, sockets.has other = hub.sockets.has other)
    (hbalanced : hub.Balanced) :
    Balanced { hub with data := hub.data.set ws s, sockets := sockets } ∧
      hub.Later { hub with data := hub.data.set ws s, sockets := sockets } := by
  have hne : ∀ other, (hub.data.get other).isSome → other ≠ ws := by
    rintro other hknown rfl
    rw [hfresh] at hknown
    cases hknown
  have hcount : ∀ tag, count { hub with data := hub.data.set ws s, sockets := sockets } tag =
      hub.count tag := by
    intro tag
    change (hub.data.set ws s).values.countP _ = hub.data.values.countP _
    rw [InsertionMap.countP_set, htags, InsertionMap.values,
      InsertionMap.entries_delete_of_get_none hfresh]
    rfl
  have hother : ∀ other, other ≠ ws → (hub.data.set ws s).get other = hub.data.get other :=
    fun other h => InsertionMap.get_set_of_ne h
  have hgone : ∀ other, hub.Gone other →
      Gone { hub with data := hub.data.set ws s, sockets := sockets } other := by
    rintro other ⟨hknown, hout⟩
    have h := hne other hknown
    refine ⟨?_, (hsockets other h).trans hout⟩
    change ((hub.data.set ws s).get other).isSome
    rwa [hother other h]
  have hself : (hub.data.set ws s).get ws = some s := InsertionMap.get_set_self
  refine ⟨⟨⟨fun tag => ?_, hbalanced.counted.memberships⟩, fun other hmem => ?_,
    fun other hout tag => ?_, fun other tag htopic => ?_, fun other code hclosed =>
    hgone other (hbalanced.closed other code hclosed), hbalanced.silent⟩, ⟨fun other hknown => ?_,
    hgone, [], (List.append_nil _).symm, fun _ _ => by rintro _ ⟨⟩⟩⟩
  · rw [hcount]
    exact hbalanced.counted.members tag
  · change ((hub.data.set ws s).get other).isSome
    by_cases hsame : other = ws
    · rw [hsame, hself]
      rfl
    · rw [hother other hsame]
      exact hbalanced.known other (hsockets other hsame ▸ hmem)
  · change ((hub.data.set ws s).get other).any _ = false
    by_cases hsame : other = ws
    · rw [hsame, hself, Option.any_some, htags]
      rfl
    · rw [hother other hsame]
      exact hbalanced.outside other (hsockets other hsame ▸ hout) tag
  · change (((hub.data.set ws s).get other).map HubSocket.topics |>.getD ∅).has tag at htopic
    change ((hub.data.set ws s).get other).any _ = true
    by_cases hsame : other = ws
    · rw [hsame, hself, Option.map_some, Option.getD_some, htopics] at htopic
      cases htopic
    · rw [hother other hsame] at htopic ⊢
      exact hbalanced.subscribed other tag htopic
  · change ((hub.data.set ws s).get other).isSome
    rwa [hother other (hne other hknown)]

theorem Balanced.out_of_fresh (h : hub.Balanced) (hfresh : hub.data.get ws = none) :
    hub.sockets.has ws = false := by
  refine Bool.eq_false_of_not_eq_true fun hin => ?_
  have hknown := h.known ws hin
  rw [hfresh] at hknown
  cases hknown

theorem has_set_socket : (hub.sockets.set ws ()).has ws' =
    (decide (ws' = ws) || hub.sockets.has ws') := by
  rw [InsertionMap.has, InsertionMap.get_set, InsertionMap.has]
  by_cases hsame : ws' = ws
  · simp [hsame]
  · simp [hsame]

theorem balanced_admit (s : HubSocket) (hfresh : hub.data.get ws = none) (htags : s.tags = ∅)
    (htopics : s.topics = ∅) (hbalanced : hub.Balanced) :
    Balanced { hub with data := hub.data.set ws s, sockets := hub.sockets.set ws () } ∧
      hub.Later { hub with data := hub.data.set ws s, sockets := hub.sockets.set ws () } :=
  balanced_enter s (hub.sockets.set ws ()) hfresh htags htopics
    (fun other hne => by rw [has_set_socket, decide_eq_false hne, Bool.false_or]) hbalanced

theorem keeps_welcome (slow : Bool) (hin : hub.sockets.has ws) :
    hub.Keeps (hub.send ws (.welcome ws) slow) :=
  keeps_send hin (fun _ h => (of_decide_eq_true h).symm) nofun

theorem balanced_openSocket {sid : JSString} {overRss : Bool} (hfresh : hub.data.get ws = none)
    (hbalanced : hub.Balanced) :
    (hub.openSocket options ws sid now overRss slow).Balanced ∧
      hub.Later (hub.openSocket options ws sid now overRss slow) ∧
      Within options hub (hub.openSocket options ws sid now overRss slow) := by
  have hout := hbalanced.out_of_fresh hfresh
  unfold openSocket
  dsimp only
  split_ifs with hfull
  · obtain ⟨hmid, hlater⟩ := balanced_enter (.create sid now) hub.sockets hfresh rfl rfl
      (fun _ _ => rfl) hbalanced
    have hgone : Gone { hub with data := hub.data.set ws (.create sid now) } ws := by
      refine ⟨?_, hout⟩
      change ((hub.data.set ws (.create sid now)).get ws).isSome
      rw [InsertionMap.get_set_self]
      rfl
    have hclose : Keeps _ (closeSocket _ ws closeCapacity) := keeps_closeSocket hgone
    obtain ⟨hend, hlater', hshrinks⟩ := hclose hmid
    exact ⟨hend, hlater.trans hlater',
      Shrinks.within ⟨hshrinks.sockets, hshrinks.members, hshrinks.memberships⟩⟩
  · obtain ⟨hmid, hlater⟩ := balanced_admit (.create sid now) hfresh rfl rfl hbalanced
    have hin : (hub.sockets.set ws ()).has ws := by
      rw [has_set_socket, decide_eq_true rfl, Bool.true_or]
    have hwelcome : Keeps { hub with
        data := hub.data.set ws (.create sid now)
        sockets := hub.sockets.set ws () } _ := keeps_welcome slow hin
    obtain ⟨hend, hlater', hshrinks⟩ := hwelcome hmid
    have hsize : (hub.sockets.set ws ()).size = hub.sockets.size + 1 :=
      InsertionMap.size_set_of_get_none (by
        rwa [InsertionMap.has, Option.isSome_eq_false_iff, Option.isNone_iff_eq_none] at hout)
    have hroom : hub.sockets.size < options.maxSockets := by
      simp only [Bool.or_eq_true, decide_eq_true_eq, not_or, not_le] at hfull
      exact hfull.1.2
    exact ⟨hend, hlater.trans hlater', ⟨le_max_of_le_right (hshrinks.sockets.trans (hsize.trans_le
      hroom)), le_max_of_le_left hshrinks.members, fun _ _ => le_max_of_le_left hshrinks.memberships⟩⟩

theorem balanced_rejoin (stored : Stored) (hin : hub.sockets.has ws) (hbalanced : hub.Balanced) :
    let restored := (stored.tags.foldl
      (fun hub tag => if hub.holds ws tag then hub else hub.join ws tag)
      (hub.update ws fun s => { s with sub := some stored.sub, exp := stored.exp })).update ws
        fun s => if s.tags.size = 0 then s else { s with unwatchedSince := none }
    restored.Balanced ∧ hub.Later restored := by
  have hsub : hub.Keeps
      (hub.update ws fun s => { s with sub := some stored.sub, exp := stored.exp }) :=
    keeps_update fun _ _ => ⟨rfl, fun _ => id⟩
  obtain ⟨hstart, hlater, -⟩ := hsub hbalanced
  have hin' := (update_fields hub ws
    fun s => { s with sub := some stored.sub, exp := stored.exp }).1 ▸ hin
  have hjoin : Moves ws stored.tags _ (stored.tags.foldl _ _) :=
    moves_joinOthers (hstart.known ws hin') fun _ => id
  have hclock : ∀ hub : HubBooks, hub.Keeps (hub.update ws fun s =>
      if s.tags.size = 0 then s else { s with unwatchedSince := none }) := by
    refine fun hub => keeps_update fun s _ => ?_
    split_ifs
    · exact ⟨rfl, fun _ => id⟩
    · exact ⟨rfl, fun _ => id⟩
  obtain ⟨hend, hlater', -⟩ := hclock _ (hjoin.balanced (Or.inl hin') hstart)
  exact ⟨hend, (hlater.trans hjoin.later).trans hlater'⟩

theorem balanced_restore {s : HubSocket} {stored : Option Stored}
    (hfresh : hub.data.get ws = none) (hbalanced : hub.Balanced) :
    (hub.restore ws s stored).Balanced ∧ hub.Later (hub.restore ws s stored) := by
  obtain ⟨hmid, hlater⟩ := balanced_admit { s with tags := ∅, topics := ∅ } hfresh rfl rfl
    hbalanced
  have hin : (hub.sockets.set ws ()).has ws := by
    rw [has_set_socket, decide_eq_true rfl, Bool.true_or]
  cases stored with
  | none => exact ⟨hmid, hlater⟩
  | some stored =>
    obtain ⟨hend, hlater'⟩ := balanced_rejoin stored hin hmid
    exact ⟨hend, hlater.trans hlater'⟩

theorem count_eq (h : hub.Balanced) :
    hub.count tag = hub.sockets.keys.countP fun ws => hub.holds ws tag := by
  have hdata : hub.count tag = hub.data.keys.countP fun ws => hub.holds ws tag := by
    rw [count, InsertionMap.values, InsertionMap.keys, List.countP_map, List.countP_map]
    refine List.countP_congr fun entry hentry => ?_
    rw [Function.comp_apply, Function.comp_apply, holds, InsertionMap.get_eq_some_iff.mpr hentry]
    rfl
  have hmem : ∀ ws, ws ∈ hub.data.keys ∧ hub.holds ws tag ↔
      ws ∈ hub.sockets.keys ∧ hub.holds ws tag := by
    intro ws
    rw [← InsertionMap.has_iff_mem_keys, ← InsertionMap.has_iff_mem_keys]
    constructor
    · rintro ⟨-, hheld⟩
      refine ⟨?_, hheld⟩
      cases hin : hub.sockets.has ws with
      | true => rfl
      | false => rw [h.outside ws hin tag] at hheld; cases hheld
    · rintro ⟨hin, hheld⟩
      exact ⟨h.known ws hin, hheld⟩
  have hdistinct : hub.data.keys.Nodup := hub.data.nodup
  have hdistinct' : hub.sockets.keys.Nodup := hub.sockets.nodup
  rw [hdata, List.countP_eq_length_filter, List.countP_eq_length_filter]
  refine List.Perm.length_eq ((List.perm_ext_iff_of_nodup (hdistinct.filter _)
    (hdistinct'.filter _)).mpr fun ws => ?_)
  rw [List.mem_filter, List.mem_filter]
  exact hmem ws

/-- The books agree with what the sockets in the hub hold, and no other socket holds or hears
anything. -/
structure Agrees (hub : HubBooks) : Prop where
  members : ∀ tag, hub.members.get tag =
    nonzero (hub.sockets.keys.countP fun ws => hub.holds ws tag)
  memberships : hub.memberships = hub.members.values.sum
  outside : ∀ ws, hub.sockets.has ws = false → ∀ tag,
    hub.holds ws tag = false ∧ ws ∉ hub.subscribers tag
  silent : Silent hub.sent

theorem Balanced.agrees (h : hub.Balanced) : hub.Agrees where
  members tag := by rw [h.counted.members tag, count_eq h]
  memberships := h.counted.memberships
  outside ws hout tag := by
    refine ⟨h.outside ws hout tag, fun hmem => ?_⟩
    rw [h.subscriber hmem] at hout
    cases hout
  silent := h.silent

/-- The books are the same, and so is what every socket holds and hears. -/
structure SameBooks (hub hub' : HubBooks) : Prop where
  sockets : hub'.sockets = hub.sockets
  members : hub'.members = hub.members
  memberships : hub'.memberships = hub.memberships
  holds : ∀ ws tag, hub'.holds ws tag = hub.holds ws tag
  subscribers : ∀ ws tag, ws ∈ hub'.subscribers tag ↔ ws ∈ hub.subscribers tag

theorem sameBooks_update {f : HubSocket → HubSocket} (hf : ∀ s, hub.data.get ws = some s →
    (f s).tags = s.tags ∧ ∀ tag, (f s).topics.has tag = s.topics.has tag) :
    hub.SameBooks (hub.update ws f) := by
  obtain ⟨hsockets, hmembers, hmemberships, -⟩ := update_fields hub ws f
  refine ⟨hsockets, hmembers, hmemberships, fun _ _ => holds_update fun s hs => (hf s hs).1,
    fun other tag => ?_⟩
  rw [mem_subscribers_iff, mem_subscribers_iff, topicsOf_update]
  split_ifs with hsame
  · rw [hsame, topicsOf]
    cases hs : hub.data.get ws with
    | none => rfl
    | some s =>
      change (f s).topics.has tag = true ↔ s.topics.has tag = true
      rw [(hf s hs).2 tag]
  · rfl

theorem sameBooks_drop (hout : hub.sockets.has ws = false) :
    hub.SameBooks (hub.drop ws code) := by
  have hclose : hub.SameBooks (hub.update ws fun s => { s with isOpen := false }) :=
    sameBooks_update fun _ _ => ⟨rfl, fun _ => rfl⟩
  rw [drop, forget_of_out hout]
  exact ⟨hclose.sockets, hclose.members, hclose.memberships, hclose.holds, hclose.subscribers⟩

theorem sameBooks_close (hbalanced : hub.Balanced) (hout : hub.sockets.has ws = false) :
    hub.SameBooks (hub.close ws) := by
  rw [close, forget_of_out]
  · refine sameBooks_update fun s hs => ⟨rfl, fun tag => ?_⟩
    cases htopic : s.topics.has tag with
    | false => rfl
    | true =>
      have hheld : hub.holds ws tag := by
        refine hbalanced.subscribed ws tag ?_
        rw [topicsOf, hs]
        exact htopic
      rw [hbalanced.outside ws hout tag] at hheld
      cases hheld
  · rwa [(update_fields hub ws _).1]

end HubBooks

open HubBooks Runs

variable {options : HubOptions} {s s' : BooksState} {event : BooksEvent}

/-- The books balance, and watches are installed for connections that were here. -/
structure BooksState.Sound (s : BooksState) : Prop where
  balanced : s.hub.Balanced
  installing : ∀ i ∈ s.installing, (s.hub.data.get i.ws).isSome

structure BooksStep (options : HubOptions) (s s' : BooksState) (restores : Bool) : Prop where
  sound : s'.Sound
  later : s.hub.Later s'.hub
  within : restores = false → Within options s.hub s'.hub

theorem BooksState.Sound.mem_eraseIdx (h : s.Sound) {n : ℕ} :
    ∀ i ∈ s.installing.eraseIdx n, (s.hub.data.get i.ws).isSome :=
  fun i hi => h.installing i (List.mem_of_mem_eraseIdx hi)

theorem BooksStep.of_keeps {hub : HubBooks} {installing : List Installing} {restores : Bool}
    (hs : s.Sound) (h : s.hub.Keeps hub)
    (hknown : ∀ i ∈ installing, (s.hub.data.get i.ws).isSome) :
    BooksStep options s ⟨hub, installing⟩ restores := by
  obtain ⟨hbalanced, hlater, hshrinks⟩ := h hs.balanced
  exact ⟨⟨hbalanced, fun i hi => hlater.known i.ws (hknown i hi)⟩, hlater, fun _ => hshrinks.within⟩

theorem booksStep_spec (hs : s.Sound) (h : booksStep options s event = some s') :
    BooksStep options s s' event.restores := by
  cases event with
  | openSocket ws sid now overRss slow =>
    simp only [booksStep] at h
    split_ifs at h with hseen
    obtain rfl := Option.some.inj h
    rw [InsertionMap.has, Bool.not_eq_true, Option.isSome_eq_false_iff, Option.isNone_iff_eq_none]
      at hseen
    obtain ⟨hbalanced, hlater, hwithin⟩ := balanced_openSocket hseen hs.balanced
    exact ⟨⟨hbalanced, fun i hi => hlater.known i.ws (hs.installing i hi)⟩, hlater,
      fun _ => hwithin⟩
  | restore ws socket stored =>
    simp only [booksStep] at h
    split_ifs at h with hseen
    obtain rfl := Option.some.inj h
    rw [InsertionMap.has, Bool.not_eq_true, Option.isSome_eq_false_iff, Option.isNone_iff_eq_none]
      at hseen
    obtain ⟨hbalanced, hlater⟩ := balanced_restore hseen hs.balanced
    exact ⟨⟨hbalanced, fun i hi => hlater.known i.ws (hs.installing i hi)⟩, hlater, by rintro ⟨⟩⟩
  | close ws =>
    obtain rfl := Option.some.inj h
    exact .of_keeps hs keeps_close hs.installing
  | closing ws =>
    obtain rfl := Option.some.inj h
    exact .of_keeps hs (keeps_update fun _ _ => ⟨rfl, fun _ => id⟩) hs.installing
  | closeAll code =>
    obtain rfl := Option.some.inj h
    exact .of_keeps hs keeps_closeAll hs.installing
  | revoke event tags now =>
    obtain rfl := Option.some.inj h
    exact .of_keeps hs keeps_revoke hs.installing
  | publish tags =>
    obtain rfl := Option.some.inj h
    exact .of_keeps hs (keeps_publishTags tags) hs.installing
  | message ws data now slow =>
    obtain rfl := Option.some.inj h
    obtain ⟨hkeeps, hwatch⟩ : s.hub.Keeps (s.hub.message ws data now slow).1 ∧ _ := keeps_message
    refine .of_keeps hs hkeeps fun i hi => ?_
    rcases List.mem_append.mp hi with hi | hi
    · exact hs.installing i hi
    · obtain ⟨rfl, hknown⟩ := hwatch i (Option.mem_toList.mp hi)
      exact hknown
  | install n history revocations now slow =>
    obtain ⟨i, hi, h⟩ := Option.bind_eq_some_iff.mp h
    obtain rfl := Option.some.inj h
    have hinstall : Installs options s.hub
        (s.hub.install options history revocations i now slow) := installs_install (hs.installing i (List.mem_of_getElem? hi)) hs.balanced
    exact ⟨⟨hinstall.balanced, fun i hi => hinstall.later.known i.ws (hs.mem_eraseIdx i hi)⟩,
      hinstall.later, fun _ => hinstall.within⟩
  | fail n =>
    obtain ⟨i, hi, h⟩ := Option.bind_eq_some_iff.mp h
    obtain rfl := Option.some.inj h
    exact .of_keeps hs (keeps_drop (hs.installing i (List.mem_of_getElem? hi))) hs.mem_eraseIdx
  | expired ws now =>
    obtain rfl := Option.some.inj h
    exact .of_keeps hs keeps_expired hs.installing
  | sweep now beat slow =>
    obtain rfl := Option.some.inj h
    exact .of_keeps hs keeps_sweep hs.installing
  | down isDown =>
    obtain rfl := Option.some.inj h
    have hdown : s.hub.Keeps { s.hub with down := isDown } := fun hbalanced =>
      ⟨⟨⟨hbalanced.counted.members, hbalanced.counted.memberships⟩, hbalanced.known,
        hbalanced.outside, hbalanced.subscribed, hbalanced.closed, hbalanced.silent⟩,
        ⟨fun _ => id, fun _ => id, [], (List.append_nil _).symm, fun _ _ => by rintro _ ⟨⟩⟩,
        ⟨le_rfl, le_rfl, le_rfl⟩⟩
    exact .of_keeps hs hdown hs.installing

theorem sound_of_run {events : List BooksEvent}
    (h : run (booksStep options) ⟨.create, []⟩ events = some s) : s.Sound :=
  run_invariant (I := BooksState.Sound) (fun _ _ _ hs h => (booksStep_spec hs h).sound) h
    ⟨balanced_create, nofun⟩

theorem within_of_run {events : List BooksEvent}
    (h : run (booksStep options) ⟨.create, []⟩ events = some s)
    (hrestores : ∀ event ∈ events, event.restores = false) :
    s.hub.sockets.size ≤ options.maxSockets ∧ s.hub.Fits options := by
  have hwithin : s.Sound ∧ s.hub.sockets.size ≤ options.maxSockets ∧ s.hub.Fits options := by
    refine run_invariant_along (P := fun _ event => event.restores = false)
      (I := fun s => s.Sound ∧ s.hub.sockets.size ≤ options.maxSockets ∧ s.hub.Fits options)
      (fun s event s' hs hevent h => ?_) h
      (along_of_forall (fun event hmem _ => hrestores event hmem) _) ?_
    · obtain ⟨hsound, hsockets, hfits⟩ := hs
      have hstep := booksStep_spec hsound h
      have hgrow := hstep.within hevent
      exact ⟨hstep.sound, hgrow.sockets.trans (max_le hsockets le_rfl),
        hgrow.members.trans (max_le hfits.members le_rfl), fun budget hbudget =>
        (hgrow.memberships budget hbudget).trans (max_le (hfits.memberships budget hbudget) le_rfl)⟩
    · exact ⟨⟨balanced_create, nofun⟩, Nat.zero_le _, Nat.zero_le _, fun _ _ => Int.natCast_nonneg _⟩
  exact hwithin.2

/-- The books agree with what the sockets hold after every run; what is gone stays gone, and hears
nothing more; a watch is installed within the limits, or adds nothing; and only `restore` leads over
the limits. -/
theorem hub_books_balance {events : List BooksEvent}
    (h : run (booksStep options) ⟨.create, []⟩ events = some s) :
    s.hub.Agrees ∧
      ((∀ event ∈ events, event.restores = false) →
        s.hub.sockets.size ≤ options.maxSockets ∧ s.hub.Fits options) ∧
      (∀ event s', booksStep options s event = some s' → s.hub.Later s'.hub ∧
        (event.restores = false → Within options s.hub s'.hub)) ∧
      (∀ i ∈ s.installing, ∀ history revocations now slow,
        s.hub.Shrinks (s.hub.install options history revocations i now slow) ∨
          (s.hub.install options history revocations i now slow).Fits options) ∧
      ∀ ws, s.hub.sockets.has ws = false →
        (∀ code, s.hub.SameBooks (s.hub.drop ws code)) ∧ s.hub.SameBooks (s.hub.close ws) := by
  have hs := sound_of_run h
  refine ⟨hs.balanced.agrees, within_of_run h, fun event s' hstep => ?_,
    fun i hi history revocations now slow => ?_, fun ws hout => ?_⟩
  · have hspec := booksStep_spec hs hstep
    exact ⟨hspec.later, hspec.within⟩
  · exact (installs_install (hs.installing i hi) hs.balanced).fits
  · exact ⟨fun _ => sameBooks_drop hout, sameBooks_close hs.balanced hout⟩

def oneSocket : HubOptions := ⟨1, fun key _ => key.text, fun _ => 0, 1, 1, none⟩

/-- One socket opens and a second is refused; the first is dropped while its watch is prepared, and
closes. -/
def refusedThenDropped : List BooksEvent :=
  [.openSocket 1 (js "a") 0 false false, .openSocket 2 (js "b") 0 false false,
    .message 1 (.watch ⟨0, []⟩) 0 false, .message 1 .malformed 0 false,
    .install 0 (.create 0 9 1000) (.create 0 1000 9) 0 false, .close 1]

theorem hub_books_balance_dropped : ∃ s,
    run (booksStep oneSocket) ⟨.create, []⟩ refusedThenDropped = some s ∧
      s.hub.sent = [.welcome 1, .closed 2 closeCapacity, .closed 1 closeProtocol] ∧
      s.hub.Agrees := by
  have hsent : (run (booksStep oneSocket) ⟨.create, []⟩ refusedThenDropped).map
      (fun s => s.hub.sent) =
      some [.welcome 1, .closed 2 closeCapacity, .closed 1 closeProtocol] := by
    decide +kernel
  obtain ⟨s, hrun, hsent⟩ := Option.map_eq_some_iff.mp hsent
  exact ⟨s, hrun, hsent, (hub_books_balance hrun).1⟩

/-- Two connections that outlived their hub are restored over a limit of one. -/
theorem restore_over_limit : ¬∀ options events s,
    run (booksStep options) ⟨.create, []⟩ events = some s →
      s.hub.sockets.size ≤ options.maxSockets := by
  intro h
  have hsize := h oneSocket [.restore 1 (.create (js "a") 0) none,
    .restore 2 (.create (js "b") 0) none] _ rfl
  revert hsize
  decide +kernel

end Nifra.Live
