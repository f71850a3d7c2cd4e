import Nifra.WebMcp.PredictionStore

/-! # Overlays and their ends

Between the calls every active prediction applies in its place, so a snapshot changes nothing and
shows the fold. A prediction that leaves takes with it those that do not apply without it.
-/

namespace Nifra.WebMcp.Store

variable {S P : Type} {p : Patching S P} {s t u : Store S P} {id x : JSString}
  {ids ids' : List JSString}

/-- One store is another one without some predictions, which may be remembered as conflicts. -/
structure Dropped (s t : Store S P) (ids : List JSString) : Prop where
  state : t.state = s.state
  version : t.version = s.version
  order : t.order = s.order.filter fun id => id ∉ ids
  active : ∀ id, t.active.get id = if id ∈ ids then none else s.active.get id
  conflicted : ∀ id, t.conflicted.has id → s.conflicted.has id ∨ id ∈ ids

theorem Dropped.refl : s.Dropped s [] := by
  constructor
  · rfl
  · rfl
  · simp
  · simp
  · exact fun _ => Or.inl

theorem Dropped.trans (h : s.Dropped t ids) (h' : t.Dropped u ids') :
    s.Dropped u (ids ++ ids') := by
  constructor
  · exact h'.state.trans h.state
  · exact h'.version.trans h.version
  · rw [h'.order, h.order, List.filter_filter]
    refine List.filter_congr fun id _ => ?_
    simp [not_or, Bool.and_comm]
  · intro id
    rw [h'.active, h.active]
    by_cases hid : id ∈ ids <;> simp [hid]
  · intro id hid
    rcases h'.conflicted id hid with hid | hid
    · exact (h.conflicted id hid).imp_right (List.mem_append_left _)
    · exact Or.inr (List.mem_append_right _ hid)

theorem has_delete {V : Type} {m : InsertionMap JSString V} (h : (m.delete id).has x) : m.has x := by
  rw [InsertionMap.has, InsertionMap.get_delete] at h
  split_ifs at h
  · cases h
  · exact h

theorem dropped_removeActive (id : JSString) (hnodup : s.order.Nodup) : s.Dropped (s.removeActive id) [id] := by
  constructor
  · rfl
  · rfl
  · rw [removeActive, hnodup.erase_eq_filter]
    refine List.filter_congr fun x _ => ?_
    simp [bne, beq_eq_decide]
  · intro x
    simp only [removeActive, InsertionMap.get_delete, List.mem_singleton]
  · exact fun _ => Or.inl

theorem has_rememberConflict (h : (s.rememberConflict id).conflicted.has x) :
    s.conflicted.has x ∨ x = id := by
  by_cases hx : x = id
  · exact Or.inr hx
  · left
    simp only [rememberConflict] at h
    rw [InsertionMap.has, InsertionMap.get_set, if_neg hx] at h
    split_ifs at h
    · split at h
      · exact has_delete h
      · exact has_delete (has_delete h)
    · exact has_delete h

theorem dropped_drop (id : JSString) (hnodup : s.order.Nodup) : s.Dropped (s.drop id) [id] := by
  have h := dropped_removeActive id hnodup
  constructor
  · exact h.state
  · exact h.version
  · exact h.order
  · exact h.active
  · intro x hx
    exact (has_rememberConflict hx).imp_right List.mem_singleton.mpr

theorem Dropped.nodup (h : s.Dropped t ids) (hnodup : s.order.Nodup) : t.order.Nodup :=
  h.order ▸ hnodup.filter _

theorem Dropped.applyStored (h : s.Dropped t ids) (hid : id ∉ ids) (state : S) :
    t.applyStored p state id = s.applyStored p state id := by
  rw [Store.applyStored, h.active, if_neg hid]
  rfl

theorem Dropped.mem_order (h : s.Dropped t ids) : x ∈ t.order ↔ x ∈ s.order ∧ x ∉ ids := by
  rw [h.order, List.mem_filter, decide_eq_true_eq]

def invalid (p : Patching S P) (s : Store S P) : List JSString :=
  (Replay.replay (s.applyStored p) s.state s.order).2

def Replays (p : Patching S P) (s : Store S P) : Prop :=
  ∃ state, s.order.foldlM (s.applyStored p) s.state = some state

theorem dropped_snapshot (hnodup : s.order.Nodup) :
    s.Dropped (s.snapshot p).1 (s.invalid p) ∧
      (s.snapshot p).1.log = ((s.invalid p).map .dropped).reverse ++ s.log := by
  have hfold (ids : List JSString) (s : Store S P) (hnodup : s.order.Nodup) :
      s.Dropped (ids.foldl (fun s id => { s.drop id with log := .dropped id :: s.log }) s) ids ∧
        (ids.foldl (fun s id => { s.drop id with log := .dropped id :: s.log }) s).log =
          (ids.map .dropped).reverse ++ s.log := by
    induction ids generalizing s with
    | nil => exact ⟨.refl, rfl⟩
    | cons id ids ih =>
      have hdrop : s.Dropped { s.drop id with log := .dropped id :: s.log } [id] := by
        have h := dropped_drop id hnodup
        exact ⟨h.state, h.version, h.order, h.active, h.conflicted⟩
      obtain ⟨hrest, hlog⟩ := ih _ (hdrop.nodup hnodup)
      exact ⟨hdrop.trans hrest, by simp [hlog]⟩
  exact hfold _ s hnodup

theorem replays_snapshot (hnodup : s.order.Nodup) :
    (s.snapshot p).1.order.foldlM ((s.snapshot p).1.applyStored p) (s.snapshot p).1.state =
      some (s.snapshot p).2.state := by
  obtain ⟨hdropped, -⟩ := dropped_snapshot (p := p) hnodup
  have hkept := Replay.foldlM_kept (f := s.applyStored p) (s := s.state) hnodup
  rw [hdropped.order, hdropped.state]
  refine Replay.foldlM_mono ?_ hkept
  intro id hid state next hnext
  have hkept : id ∉ s.invalid p := of_decide_eq_true (List.mem_filter.mp hid).2
  rwa [hdropped.applyStored hkept]

theorem Replays.snapshot {state : S}
    (h : s.order.foldlM (s.applyStored p) s.state = some state) :
    s.snapshot p = (s, ⟨state, s.version, s.version, s.order.filter s.active.has⟩) := by
  simp only [Store.snapshot, Replay.replay_of_foldlM h, List.foldl_nil]

def fits (p : Patching S P) (s : Store S P) (state : S) (id : JSString) : Option S :=
  match s.active.get id with
  | none => some state
  | some stored =>
    if stored.baseVersion ≠ s.version then none else (p.apply state stored.patch).toOption

theorem Dropped.fits (h : s.Dropped t ids) (hid : id ∉ ids) (state : S) :
    t.fits p state id = s.fits p state id := by
  simp only [Store.fits, h.active, if_neg hid, h.version]

theorem fits_applyStored {state next : S} (h : s.fits p state id = some next) :
    s.applyStored p state id = some next := by
  unfold fits at h
  unfold applyStored
  cases hget : s.active.get id with
  | none => simpa only [hget] using h
  | some stored =>
    simp only [hget] at h
    split_ifs at h
    exact h

theorem discardFrom_spec (hs : s.order.Nodup) (hids : ids.Nodup) (projected : S) :
    s.Dropped (discardFrom p s projected ids).1 (discardFrom p s projected ids).2 ∧
      (discardFrom p s projected ids).2 = (Replay.replay (s.fits p) projected ids).2 ∧
      (discardFrom p s projected ids).1.log = s.log := by
  induction ids generalizing s projected with
  | nil => exact ⟨.refl, rfl, rfl⟩
  | cons id ids ih =>
    obtain ⟨hid, hids⟩ := List.nodup_cons.mp hids
    have hdiscarded (hnone : s.fits p projected id = none) :
        s.Dropped (discardFrom p (s.drop id) projected ids).1
            (id :: (discardFrom p (s.drop id) projected ids).2) ∧
          id :: (discardFrom p (s.drop id) projected ids).2 =
            (Replay.replay (s.fits p) projected (id :: ids)).2 ∧
          (discardFrom p (s.drop id) projected ids).1.log = s.log := by
      have hdrop := dropped_drop id hs
      obtain ⟨hrest, heq, hlog⟩ := ih (s := s.drop id) (hdrop.nodup hs) hids projected
      refine ⟨hdrop.trans hrest, ?_, hlog⟩
      rw [Replay.replay_cons_none hnone, heq]
      congr 2
      refine Replay.replay_congr fun x hx state => hdrop.fits ?_ state
      rw [List.mem_singleton]
      exact fun heq => hid (heq ▸ hx)
    cases hget : s.active.get id with
    | none =>
      have hsome : s.fits p projected id = some projected := by simp only [Store.fits, hget]
      simp only [discardFrom, hget, Replay.replay_cons_some hsome]
      exact ih hs hids projected
    | some stored =>
      cases hnext : s.fits p projected id with
      | some next =>
        rw [Replay.replay_cons_some hnext]
        simp only [Store.fits, hget] at hnext
        simp only [discardFrom, hget, hnext]
        exact ih hs hids next
      | none =>
        have h := hdiscarded hnext
        simp only [Store.fits, hget] at hnext
        simp only [discardFrom, hget, hnext]
        exact h

theorem dropped_discard (hs : s.order.Nodup) :
    s.Dropped (s.discardUnreplayablePredictions p).1 (s.discardUnreplayablePredictions p).2 ∧
      (s.discardUnreplayablePredictions p).2.Sublist s.order ∧
      (s.discardUnreplayablePredictions p).1.log = s.log := by
  obtain ⟨hdropped, heq, hlog⟩ := discardFrom_spec (p := p) hs hs s.state
  refine ⟨hdropped, ?_, hlog⟩
  rw [discardUnreplayablePredictions, heq]
  exact Replay.skipped_sublist

theorem replays_discard (hs : s.order.Nodup) : (s.discardUnreplayablePredictions p).1.Replays p := by
  obtain ⟨hdropped, heq, -⟩ := discardFrom_spec (p := p) hs hs s.state
  have hkept := Replay.foldlM_kept (f := s.fits p) (s := s.state) hs
  refine ⟨(Replay.replay (s.fits p) s.state s.order).1, ?_⟩
  rw [discardUnreplayablePredictions, hdropped.order, hdropped.state, heq]
  refine Replay.foldlM_mono ?_ hkept
  intro id hid state next hnext
  have hkept : id ∉ (discardFrom p s s.state s.order).2 := by
    rw [heq]
    exact of_decide_eq_true (List.mem_filter.mp hid).2
  rw [hdropped.applyStored hkept]
  exact fits_applyStored hnext

def mark : Entry S → Option EventType
  | .emitted event => some event.type
  | .dropped _ => none

def subject : Entry S → JSString
  | .emitted event => event.predictionId
  | .dropped id => id

/-- What the log says of a prediction since it was last accepted, the latest first. -/
def since (id : JSString) : List (Entry S) → Option (List (Option EventType))
  | [] => none
  | entry :: log =>
    if subject entry = id then
      if mark entry = some .predicted then some [] else (since id log).map (mark entry :: ·)
    else since id log

theorem since_of_ne {e : Entry S} {log : List (Entry S)} (h : subject e ≠ id) :
    since id (e :: log) = since id log := if_neg h

theorem since_of_eq {e : Entry S} {log : List (Entry S)} (h : subject e = id)
    (hmark : mark e ≠ some .predicted) :
    since id (e :: log) = (since id log).map (mark e :: ·) := by
  rw [since, if_pos h, if_neg hmark]

theorem since_emitted {log : List (Entry S)} (type : EventType) {snapshot : Snapshot S}
    (htype : type ≠ .predicted) :
    since id (.emitted ⟨type, id, snapshot⟩ :: log) = (since id log).map (some type :: ·) :=
  since_of_eq (e := .emitted ⟨type, id, snapshot⟩) rfl fun heq => htype (Option.some.inj heq)

theorem since_predicted {log : List (Entry S)} {snapshot : Snapshot S} :
    since id (.emitted ⟨.predicted, id, snapshot⟩ :: log) = some [] := by
  simp [since, subject, mark]

theorem since_append_of_ne {entries log : List (Entry S)} (h : ∀ e ∈ entries, subject e ≠ id) :
    since id (entries ++ log) = since id log := by
  induction entries with
  | nil => rfl
  | cons e entries ih =>
    rw [List.cons_append, since_of_ne (h e List.mem_cons_self)]
    exact ih fun e' he' => h e' (List.mem_cons_of_mem _ he')

theorem since_append_of_mem {e : Entry S} {l m : List (Entry S)} (hnodup : (l.map subject).Nodup)
    (hmem : e ∈ l) (hmark : mark e ≠ some .predicted) :
    since (subject e) (l ++ m) = (since (subject e) m).map (mark e :: ·) := by
  induction l with
  | nil => cases hmem
  | cons d l ih =>
    obtain ⟨hd, hnodup⟩ := List.nodup_cons.mp hnodup
    rw [List.cons_append]
    rcases List.mem_cons.mp hmem with rfl | hmem
    · rw [since_of_eq rfl hmark, since_append_of_ne]
      exact fun e' he' heq => hd (heq ▸ List.mem_map_of_mem he')
    · have hne : subject d ≠ subject e := fun heq => hd (heq ▸ List.mem_map_of_mem hmem)
      rw [since_of_ne hne, ih hnodup hmem]

/-- The ways in which a prediction that was accepted can have left. -/
inductive Ended : List (Option EventType) → Prop
  | committed : Ended [some .committed]
  | rolledBack : Ended [some .rolledBack]
  | expired : Ended [some .expired]
  | conflicted : Ended [some .conflicted]
  | dropped : Ended [none]
  | reconciled : Ended [some .committed, some .conflicted]
  | reconciledDrop : Ended [some .committed, none]

inductive Told : Option (List (Option EventType)) → Prop → Prop → Prop
  | unknown {active conflicted : Prop} (ha : ¬ active) (hc : ¬ conflicted) :
      Told none active conflicted
  | active {active conflicted : Prop} (ha : active) (hc : ¬ conflicted) :
      Told (some []) active conflicted
  | ended {active conflicted : Prop} {marks : List (Option EventType)} (ha : ¬ active)
      (hended : Ended marks) (hc : conflicted → marks = [some .conflicted] ∨ marks = [none]) :
      Told (some marks) active conflicted

theorem Told.forget {marks : Option (List (Option EventType))} {a c a' c' : Prop}
    (h : Told marks a c) (ha : a' ↔ a) (hc : c' → c) : Told marks a' c' := by
  cases h with
  | unknown ha' hc' => exact .unknown (mt ha.mp ha') (mt hc hc')
  | active ha' hc' => exact .active (ha.mpr ha') (mt hc hc')
  | ended ha' hended hc' => exact .ended (mt ha.mp ha') hended fun h => hc' (hc h)

theorem Told.of_active {marks : Option (List (Option EventType))} {a c : Prop}
    (h : Told marks a c) (ha : a) : marks = some [] := by
  cases h with
  | unknown ha' _ => exact absurd ha ha'
  | active _ _ => rfl
  | ended ha' _ _ => exact absurd ha ha'

structure Tidy (s : Store S P) : Prop where
  nodup : s.order.Nodup
  tracked : ∀ id, id ∈ s.order ↔ s.active.has id
  apart : ∀ id, s.conflicted.has id → id ∉ s.order

structure Consistent (p : Patching S P) (s : Store S P) : Prop extends s.Tidy where
  replays : s.Replays p
  told : ∀ id, Told (since id s.log) (id ∈ s.order) (s.conflicted.has id)

theorem Dropped.tidy (h : s.Dropped t ids) (hs : s.Tidy) : t.Tidy := by
  constructor
  · exact h.nodup hs.nodup
  · intro id
    rw [h.mem_order, hs.tracked, InsertionMap.has, InsertionMap.has, h.active]
    by_cases hid : id ∈ ids <;> simp [hid]
  · intro id hid hmem
    obtain ⟨hmem, hids⟩ := h.mem_order.mp hmem
    rcases h.conflicted id hid with hconf | hid
    · exact hs.apart id hconf hmem
    · exact hids hid

theorem Consistent.active (h : s.Consistent p) (hid : id ∈ s.order) : since id s.log = some [] :=
  (h.told id).of_active hid

theorem Consistent.snapshot (h : s.Consistent p) : (s.snapshot p).1 = s := by
  obtain ⟨state, hstate⟩ := h.replays
  rw [Replays.snapshot hstate]

theorem Consistent.create {initial : Authoritative S} (h : create initial = .ok s) :
    s.Consistent p := by
  unfold Store.create at h
  split at h
  · cases h
  · rename_i state _
    obtain ⟨-, -, rfl⟩ : ∃ u, validateVersion initial.version = .ok u ∧
        (⟨state, initial.version, ∅, ∅, [], []⟩ : Store S P) = s := by
      cases hv : validateVersion initial.version with
      | error e => rw [hv] at h; cases h
      | ok u => rw [hv] at h; exact ⟨u, rfl, Except.ok.inj h⟩
    refine ⟨⟨.nil, ?_, ?_⟩, ⟨state, rfl⟩, ?_⟩
    · exact fun id => ⟨nofun, nofun⟩
    · exact fun id hid => nofun
    · exact fun id => .unknown nofun nofun

theorem invalid_subset : s.invalid p ⊆ s.order := Replay.skipped_sublist.subset

theorem since_snapshot (hnodup : s.order.Nodup) : since id (s.snapshot p).1.log =
    if id ∈ s.invalid p then (since id s.log).map (none :: ·) else since id s.log := by
  rw [(dropped_snapshot hnodup).2]
  have hinvalid : (s.invalid p).Nodup := hnodup.sublist Replay.skipped_sublist
  split_ifs with hid
  · refine since_append_of_mem (e := .dropped id) ?_ (by simpa using hid) nofun
    rw [List.map_reverse, List.nodup_reverse, List.map_map]
    exact (List.map_id _).symm ▸ hinvalid
  · refine since_append_of_ne fun e he heq => hid ?_
    rw [List.mem_reverse] at he
    obtain ⟨x, hx, rfl⟩ := List.mem_map.mp he
    exact heq ▸ hx

theorem Consistent.leave (h : s.Consistent p) (hid : id ∈ s.order) (ht : s.Dropped t [id])
    (hlog : t.log = s.log) {type : EventType} (hended : Ended [some type])
    (hconf : t.conflicted.has id → type = .conflicted) (snapshot : Snapshot S) :
    ((t.snapshot p).1.emit type id snapshot).Consistent p := by
  have htidy := ht.tidy h.toTidy
  obtain ⟨hu, -⟩ := dropped_snapshot (p := p) htidy.nodup
  have hgone : id ∉ t.order := fun hmem => (ht.mem_order.mp hmem).2 (List.mem_singleton_self id)
  have hinvalid : id ∉ t.invalid p := fun hmem => hgone (invalid_subset hmem)
  have hutidy := hu.tidy htidy
  refine ⟨⟨hutidy.nodup, hutidy.tracked, hutidy.apart⟩,
    ⟨_, replays_snapshot htidy.nodup⟩, fun x => ?_⟩
  change Told (since x (.emitted ⟨type, id, snapshot⟩ :: (t.snapshot p).1.log))
    (x ∈ (t.snapshot p).1.order) ((t.snapshot p).1.conflicted.has x)
  by_cases hx : x = id
  · subst hx
    have htype : type ≠ .predicted := by
      rintro rfl
      cases hended
    rw [since_emitted type htype, since_snapshot htidy.nodup, if_neg hinvalid, hlog, h.active hid]
    refine .ended (fun hmem => hgone (hu.mem_order.mp hmem).1) hended fun hc => Or.inl ?_
    rw [hconf ((hu.conflicted x hc).resolve_right hinvalid)]
  · rw [since_of_ne (Ne.symm hx), since_snapshot htidy.nodup, hlog]
    split_ifs with hmem
    · have hxs : x ∈ s.order := (ht.mem_order.mp (invalid_subset hmem)).1
      rw [h.active hxs]
      exact .ended (fun hmem' => (hu.mem_order.mp hmem').2 hmem) .dropped fun _ => Or.inr rfl
    · refine (h.told x).forget ?_ ?_
      · rw [hu.mem_order, ht.mem_order, List.mem_singleton]
        exact ⟨fun hall => hall.1.1, fun hmem' => ⟨⟨hmem', hx⟩, hmem⟩⟩
      · intro hc
        have hct := (hu.conflicted x hc).resolve_right hmem
        exact (ht.conflicted x hct).resolve_right fun hmem' => hx (List.mem_singleton.mp hmem')

theorem Consistent.removed (h : s.Consistent p) (hid : id ∈ s.order) {type : EventType}
    (hended : Ended [some type]) (snapshot : Snapshot S) :
    (((s.removeActive id).snapshot p).1.emit type id snapshot).Consistent p :=
  h.leave hid (dropped_removeActive id h.nodup) rfl hended
    (fun hconf => absurd hid (h.apart id hconf)) snapshot

theorem foldl_emit (committed : Snapshot S) :
    ids.foldl (fun s id => s.emit .conflicted id committed) s =
      { s with log := (ids.map fun id => .emitted ⟨.conflicted, id, committed⟩).reverse ++ s.log } := by
  induction ids generalizing s with
  | nil => rfl
  | cons id ids ih =>
    rw [List.foldl_cons, ih]
    simp [emit]

theorem Consistent.told_committed (h : s.Consistent p)
    (hid : since id s.log = some [] ∨ since id s.log = some [some .conflicted] ∨
      since id s.log = some [none])
    (hconf : ¬ s.conflicted.has id) {discarded : List JSString} (hnodup : discarded.Nodup)
    (hdiscarded : ∀ x ∈ discarded, x ∈ s.order ∧ x ≠ id)
    (horder : ∀ x, x ∈ u.order ↔ (x ∈ s.order ∧ x ≠ id) ∧ x ∉ discarded)
    (hconflicted : ∀ x, u.conflicted.has x → s.conflicted.has x ∨ x ∈ discarded)
    (committed : Snapshot S) (x : JSString) :
    Told (since x ((discarded.map fun id => .emitted ⟨.conflicted, id, committed⟩).reverse ++
      .emitted ⟨.committed, id, committed⟩ :: s.log)) (x ∈ u.order) (u.conflicted.has x) := by
  have hother (x : JSString) (hx : x ∉ discarded) :
      ∀ e ∈ (discarded.map fun id => Entry.emitted ⟨.conflicted, id, committed⟩).reverse,
        subject e ≠ x := by
    intro e he heq
    obtain ⟨y, hy, rfl⟩ := List.mem_map.mp (List.mem_reverse.mp he)
    exact hx (heq ▸ hy)
  by_cases hx : x = id
  · subst hx
    have hnot : x ∉ discarded := fun hmem => (hdiscarded x hmem).2 rfl
    have hinactive : x ∉ u.order := fun hmem => ((horder x).mp hmem).1.2 rfl
    have hclear : ¬ u.conflicted.has x :=
      fun hc => hconf ((hconflicted x hc).resolve_right hnot)
    rw [since_append_of_ne (hother x hnot), since_emitted .committed nofun]
    rcases hid with hid | hid | hid
    · rw [hid]
      exact .ended hinactive .committed fun hc => absurd hc hclear
    · rw [hid]
      exact .ended hinactive .reconciled fun hc => absurd hc hclear
    · rw [hid]
      exact .ended hinactive .reconciledDrop fun hc => absurd hc hclear
  · have hcommitted : since x (.emitted ⟨.committed, id, committed⟩ :: s.log) = since x s.log :=
      since_of_ne (Ne.symm hx)
    by_cases hmem : x ∈ discarded
    · have hactive := h.active (hdiscarded x hmem).1
      have hentry := since_append_of_mem (e := .emitted ⟨.conflicted, x, committed⟩)
        (l := (discarded.map fun id => .emitted ⟨.conflicted, id, committed⟩).reverse)
        (m := .emitted ⟨.committed, id, committed⟩ :: s.log)
        (by rw [List.map_reverse, List.nodup_reverse, List.map_map]
            exact (List.map_id _).symm ▸ hnodup)
        (by simpa using hmem) nofun
      change since x _ = (since x _).map _ at hentry
      rw [hentry, hcommitted, hactive]
      exact .ended (fun hmem' => ((horder x).mp hmem').2 hmem) .conflicted fun _ => Or.inl rfl
    · rw [since_append_of_ne (hother x hmem), hcommitted]
      refine (h.told x).forget ?_ fun hc => (hconflicted x hc).resolve_right hmem
      rw [horder]
      exact ⟨fun hall => hall.1.1, fun hmem' => ⟨⟨hmem', hx⟩, hmem⟩⟩

theorem Consistent.adopt (h : s.Consistent p) {next : Authoritative S}
    (hid : since id s.log = some [] ∨ since id s.log = some [some .conflicted] ∨
      since id s.log = some [none])
    (hconf : ¬ s.conflicted.has id) : (s.adopt p id next).1.Consistent p := by
  unfold Store.adopt
  split
  · exact h
  · rename_i nextState _
    have hsame : ({ s.removeActive id with state := nextState, version := next.version } :
        Store S P).log = s.log ∧
      ({ s.removeActive id with state := nextState, version := next.version } :
        Store S P).conflicted = s.conflicted := ⟨rfl, rfl⟩
    have hremoved : ({ s with state := nextState, version := next.version } : Store S P).Dropped
        { s.removeActive id with state := nextState, version := next.version } [id] := by
      have hd := dropped_removeActive id h.nodup
      exact ⟨rfl, rfl, hd.order, hd.active, hd.conflicted⟩
    have htidy := hremoved.tidy ⟨h.nodup, h.tracked, h.apart⟩
    have horder (x : JSString) := hremoved.mem_order (x := x)
    revert hsame horder htidy
    generalize ({ s.removeActive id with state := nextState, version := next.version } :
      Store S P) = t
    rintro ⟨hlog, hsame⟩ htidy horder
    simp only [List.mem_singleton] at horder
    obtain ⟨hu, hsub, hulog⟩ := dropped_discard (p := p) htidy.nodup
    obtain ⟨state, hstate⟩ := replays_discard (p := p) htidy.nodup
    have hutidy := hu.tidy htidy
    simp only [Replays.snapshot hstate, foldl_emit]
    refine ⟨⟨hutidy.nodup, hutidy.tracked, hutidy.apart⟩, ⟨state, hstate⟩, fun x => ?_⟩
    simp only [emit, hulog, hlog]
    refine h.told_committed hid hconf (htidy.nodup.sublist hsub) ?_ ?_ ?_ _ x
    · exact fun x hx => (horder x).mp (hsub.subset hx)
    · intro x
      rw [hu.mem_order, horder]
    · intro x hx
      exact hsame ▸ hu.conflicted x hx

theorem Consistent.expireFrom (h : s.Consistent p) (now : ℚ) :
    (expireFrom p now s ids).1.Consistent p := by
  induction ids generalizing s with
  | nil => exact h
  | cons id ids ih =>
    simp only [Store.expireFrom]
    split_ifs with hexpired
    · have hid : id ∈ s.order := by
        rw [h.tracked, InsertionMap.has]
        cases hget : s.active.get id with
        | none => simp [hget] at hexpired
        | some stored => rfl
      exact ih (h.removed hid .expired _)
    · exact ih h

def grown (s : Store S P) (id : JSString) (prediction : Prediction P) : Store S P :=
  { s with active := s.active.set id prediction, order := s.order ++ [id] }

variable {prediction : Prediction P}

theorem Tidy.get_none (h : s.Tidy) (hid : id ∉ s.order) : s.active.get id = none := by
  rw [h.tracked, InsertionMap.has] at hid
  simpa using hid

theorem replays_grown {state candidate : S} (hid : id ∉ s.order)
    (hstate : s.order.foldlM (s.applyStored p) s.state = some state)
    (happly : p.apply state prediction.patch = .ok candidate) :
    (s.grown id prediction).order.foldlM ((s.grown id prediction).applyStored p)
      (s.grown id prediction).state = some candidate := by
  have hbefore : s.order.foldlM ((s.grown id prediction).applyStored p) s.state = some state := by
    refine Replay.foldlM_mono ?_ hstate
    intro x hx state next hnext
    have hne : x ≠ id := fun heq => hid (heq ▸ hx)
    rw [applyStored, grown, InsertionMap.get_set_of_ne hne]
    exact hnext
  have hlast : (s.grown id prediction).applyStored p state id = some candidate := by
    simp only [applyStored, grown, InsertionMap.get_set, if_true, happly]
    rfl
  rw [show (s.grown id prediction).order = s.order ++ [id] from rfl, List.foldlM_append]
  change (s.order.foldlM ((s.grown id prediction).applyStored p) s.state).bind _ = _
  rw [hbefore, Option.bind_some, List.foldlM_cons, hlast]
  rfl

theorem removeActive_grown (prediction : Prediction P) (h : s.Tidy) (hid : id ∉ s.order) :
    (s.grown id prediction).removeActive id = s := by
  have hactive : (s.active.set id prediction).delete id = s.active :=
    InsertionMap.delete_set_of_get_none (h.get_none hid)
  have horder : (s.order ++ [id]).erase id = s.order := by
    rw [List.erase_append_right _ hid, List.erase_cons_head, List.append_nil]
  simp only [removeActive, grown, hactive, horder]

theorem Consistent.predict_spec (h : s.Consistent p) (id : JSString) (prediction : Prediction P)
    (now : ℚ) :
    ((s.predict p id prediction now).1 = s ∧
      ∀ r, (s.predict p id prediction now).2 = .ok r → r.outcome ≠ .predicted) ∨
    ∃ snapshot, id ∉ s.order ∧ ¬ s.conflicted.has id ∧ (s.grown id prediction).Replays p ∧
      s.predict p id prediction now = ((s.grown id prediction).emit .predicted id snapshot,
        .ok ⟨.predicted, id, snapshot⟩) := by
  obtain ⟨state, hstate⟩ := h.replays
  have hcurrent := Replays.snapshot hstate
  simp only [predict]
  split
  · exact Or.inl ⟨rfl, nofun⟩
  · simp only [hcurrent]
    split_ifs with hused hfull hstale hexpired
    · exact Or.inl ⟨rfl, by rintro r ⟨⟩; nofun⟩
    · exact Or.inl ⟨rfl, by rintro r ⟨⟩; nofun⟩
    · exact Or.inl ⟨rfl, by rintro r ⟨⟩; nofun⟩
    · exact Or.inl ⟨rfl, by rintro r ⟨⟩; nofun⟩
    · rw [Bool.or_eq_true, not_or] at hused
      have hid : id ∉ s.order := mt (h.tracked id).mp hused.1
      cases happly : p.apply state prediction.patch with
      | error error => exact Or.inl ⟨rfl, nofun⟩
      | ok candidate =>
        have hgrown := replays_grown hid hstate happly
        have hnext := Replays.snapshot hgrown
        simp only [grown] at hnext
        simp only [hnext]
        split_ifs
        · exact Or.inr ⟨_, hid, hused.2, ⟨candidate, hgrown⟩, rfl⟩
        · have hleft := removeActive_grown prediction h.toTidy hid
          simp only [grown] at hleft
          simp only [hleft, hcurrent]
          exact Or.inl ⟨trivial, by rintro r ⟨⟩; nofun⟩

theorem Consistent.grown (h : s.Consistent p) (hid : id ∉ s.order)
    (hconf : ¬ s.conflicted.has id) (hreplays : (s.grown id prediction).Replays p)
    (snapshot : Snapshot S) :
    ((s.grown id prediction).emit .predicted id snapshot).Consistent p := by
  have horder (x : JSString) : x ∈ s.order ++ [id] ↔ x ∈ s.order ∨ x = id := by simp
  refine ⟨⟨?_, ?_, ?_⟩, hreplays, fun x => ?_⟩
  · exact List.nodup_append'.mpr ⟨h.nodup, List.nodup_singleton id, by simpa using hid⟩
  · intro x
    simp only [emit, Store.grown, horder, InsertionMap.has, InsertionMap.get_set]
    by_cases hx : x = id
    · simp [hx]
    · simpa [hx, InsertionMap.has] using h.tracked x
  · intro x hx hmem
    rcases (horder x).mp hmem with hmem | rfl
    · exact h.apart x hx hmem
    · exact hconf hx
  · change Told (since x (.emitted ⟨.predicted, id, snapshot⟩ :: s.log)) (x ∈ s.order ++ [id])
      (s.conflicted.has x)
    by_cases hx : x = id
    · subst hx
      rw [since_predicted]
      exact .active (by simp) hconf
    · rw [since_of_ne (Ne.symm hx)]
      exact (h.told x).forget (by simp [hx]) fun hc => hc

theorem Consistent.forget (h : s.Consistent p) (id : JSString) :
    Consistent p { s with conflicted := s.conflicted.delete id } := by
  refine ⟨⟨h.nodup, h.tracked, ?_⟩, h.replays, fun x => ?_⟩
  · exact fun x hx => h.apart x (has_delete hx)
  · exact (h.told x).forget Iff.rfl has_delete

theorem Told.of_conflict {marks : Option (List (Option EventType))} {a c : Prop}
    (h : Told marks a c) (hc : c) : marks = some [some .conflicted] ∨ marks = some [none] := by
  cases h with
  | unknown _ hc' => exact absurd hc hc'
  | active _ hc' => exact absurd hc hc'
  | ended _ _ hc' => exact (hc' hc).imp (congrArg some) (congrArg some)

theorem Consistent.commit (h : s.Consistent p) {next : Authoritative S} {now : ℚ}
    {reconciliation : Option ReconciliationMode} :
    (s.commit p id next now reconciliation).1.Consistent p := by
  obtain ⟨state, hstate⟩ := h.replays
  simp only [Store.commit]
  split
  · exact h
  · simp only [Replays.snapshot hstate]
    cases hstored : s.active.get id with
    | none =>
      simp only
      split_ifs with hconf haccept
      · refine (h.forget id).adopt (Or.inr ((h.told id).of_conflict hconf)) ?_
        simp [InsertionMap.has, InsertionMap.get_delete]
      · exact h.forget id
      · exact h
    | some stored =>
      have hid : id ∈ s.order := (h.tracked id).mpr (by simp [InsertionMap.has, hstored])
      simp only
      split_ifs with hexpired hstale
      · exact h.removed hid .expired _
      · exact h.leave hid (dropped_drop id h.nodup) rfl .conflicted (fun _ => rfl) _
      · exact h.adopt (Or.inl (h.active hid)) fun hconf => h.apart id hconf hid

theorem Consistent.rollback (h : s.Consistent p) : (s.rollback p id).1.Consistent p := by
  obtain ⟨state, hstate⟩ := h.replays
  simp only [Store.rollback]
  split
  · exact h
  · split_ifs with hid
    · exact h.removed ((h.tracked id).mpr hid) .rolledBack _
    · rw [Replays.snapshot hstate]
      exact h

theorem Consistent.step (h : s.Consistent p) {call : Call S P} (ht : s.step p call = some t) :
    t.Consistent p := by
  cases call with
  | predict id prediction now =>
    obtain rfl := Option.some.inj ht
    rcases h.predict_spec id prediction now with ⟨hsame, -⟩ | ⟨view, hid, hconf, hreplays, heq⟩
    · rw [hsame]
      exact h
    · rw [heq]
      exact h.grown hid hconf hreplays view
  | commit id next now reconciliation =>
    obtain rfl := Option.some.inj ht
    exact h.commit
  | rollback id =>
    obtain rfl := Option.some.inj ht
    exact h.rollback
  | expire now =>
    obtain rfl := Option.some.inj ht
    exact h.expireFrom now
  | snapshot =>
    obtain rfl := Option.some.inj ht
    rw [h.snapshot]
    exact h

end Nifra.WebMcp.Store
