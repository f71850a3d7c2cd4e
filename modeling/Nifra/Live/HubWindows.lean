import Nifra.Live.HubMembers

/-! # Coalescing windows

A change of a key that a socket watches is published, or noted in the window of the key, and the end
of the window publishes what was noted.
-/

namespace Nifra.Live.LiveHub

variable {options : HubOptions} {hub hub' hub'' : LiveHub} {ws : ℕ} {tag : JSString}
  {tags : List JSString} {key key' : LiveKey} {pending : Pending}

structure Fanned (hub hub' : LiveHub) : Prop where
  down : hub'.down = hub.down
  sockets : hub'.sockets = hub.sockets
  members : hub'.members = hub.members
  sent : hub.sent <+: hub'.sent

theorem Fanned.refl : hub.Fanned hub := ⟨rfl, rfl, rfl, List.prefix_rfl⟩

theorem Fanned.trans (h : hub.Fanned hub') (h' : hub'.Fanned hub'') : hub.Fanned hub'' :=
  ⟨h'.down.trans h.down, h'.sockets.trans h.sockets, h'.members.trans h.members,
    h.sent.trans h'.sent⟩

theorem Fanned.foldl {α : Type*} {f : LiveHub → α → LiveHub}
    (hf : ∀ (hub : LiveHub) a, hub.Fanned (f hub a)) (l : List α) : hub.Fanned (l.foldl f hub) := by
  induction l generalizing hub with
  | nil => exact .refl
  | cons a l ih => exact (hf hub a).trans ih

theorem Fanned.counted (h : hub.Fanned hub') (hcounted : hub.Counted) : hub'.Counted := by
  intro tag
  rw [h.members, hcounted tag, count, count, h.sockets]

theorem Fanned.holds (h : hub.Fanned hub') : hub'.holds ws tag = hub.holds ws tag := by
  rw [LiveHub.holds, LiveHub.holds, h.sockets]

def Published (ws : ℕ) (tag : JSString) (hub hub' : LiveHub) : Prop :=
  ∃ out subscribers, hub'.sent = hub.sent ++ out ∧ .changed tag subscribers ∈ out ∧ ws ∈ subscribers

theorem Published.after (h : Published ws tag hub hub') (h' : hub'.sent <+: hub''.sent) :
    Published ws tag hub hub'' := by
  obtain ⟨out, subscribers, hsent, hmem, hws⟩ := h
  obtain ⟨more, hmore⟩ := h'
  exact ⟨out ++ more, subscribers, by rw [← hmore, hsent, List.append_assoc],
    List.mem_append_left _ hmem, hws⟩

theorem Published.before (h : Published ws tag hub' hub'') (h' : hub.sent <+: hub'.sent) :
    Published ws tag hub hub'' := by
  obtain ⟨out, subscribers, hsent, hmem, hws⟩ := h
  obtain ⟨earlier, hearlier⟩ := h'
  exact ⟨earlier ++ out, subscribers, by rw [hsent, ← hearlier, List.append_assoc],
    List.mem_append_right _ hmem, hws⟩

theorem mem_subscribers (h : hub.holds ws tag) : ws ∈ hub.subscribers tag := by
  obtain ⟨s, hs, htag⟩ := holds_iff.mp h
  rw [subscribers, List.mem_map]
  exact ⟨(ws, s), List.mem_filter.mpr ⟨InsertionMap.get_eq_some_iff.mp hs, htag⟩, rfl⟩

theorem fanned_publishTag : hub.Fanned (hub.publishTag tag) := by
  unfold publishTag
  split
  · exact .refl
  · exact ⟨rfl, rfl, rfl, List.prefix_append _ _⟩

theorem publishTag_window (hub : LiveHub) (tag : JSString) :
    (hub.publishTag tag).coalescing = hub.coalescing ∧ (hub.publishTag tag).timer = hub.timer := by
  unfold publishTag
  split
  · exact ⟨rfl, rfl⟩
  · exact ⟨rfl, rfl⟩

theorem fanned_publishTags (hub : LiveHub) (tags : List JSString) :
    hub.Fanned (hub.publishTags tags) := .foldl (fun _ _ => fanned_publishTag) tags

theorem publishTags_window (hub : LiveHub) (tags : List JSString) :
    (hub.publishTags tags).coalescing = hub.coalescing ∧
      (hub.publishTags tags).timer = hub.timer := by
  induction tags generalizing hub with
  | nil => exact ⟨rfl, rfl⟩
  | cons tag tags ih =>
    obtain ⟨hcoalescing, htimer⟩ := publishTag_window hub tag
    obtain ⟨hcoalescing', htimer'⟩ := ih (hub.publishTag tag)
    exact ⟨hcoalescing'.trans hcoalescing, htimer'.trans htimer⟩

theorem published_publishTags (hcounted : hub.Counted) (htag : tag ∈ tags)
    (hholds : hub.holds ws tag) : Published ws tag hub (hub.publishTags tags) := by
  induction tags generalizing hub with
  | nil => cases htag
  | cons tag' tags ih =>
    have hstep : hub.Fanned (hub.publishTag tag') := fanned_publishTag
    rcases List.mem_cons.mp htag with rfl | htag
    · obtain ⟨n, hn⟩ := hcounted.member hholds
      have hfirst : Published ws tag hub (hub.publishTag tag) := by
        refine ⟨[.changed tag (hub.subscribers tag)], hub.subscribers tag, ?_,
          List.mem_singleton.mpr rfl, mem_subscribers hholds⟩
        rw [publishTag, hn]
      exact hfirst.after (fanned_publishTags _ _).sent
    · exact (ih (hstep.counted hcounted) htag (hstep.holds.trans hholds)).before hstep.sent

theorem published_publishTags_windows (windows : InsertionMap LiveKey Pending)
    (hcounted : hub.Counted) (htag : tag ∈ tags) (hholds : hub.holds ws tag) :
    Published ws tag hub ({ hub with coalescing := windows }.publishTags tags) := by
  have hcounted' : LiveHub.Counted { hub with coalescing := windows } := hcounted
  exact published_publishTags hcounted' htag hholds

structure Windowed (options : HubOptions) (hub : LiveHub) : Prop where
  tags : ∀ key pending, hub.coalescing.get key = some pending → pending.tags = options.tagsOf key
  armed : hub.coalescing.size ≠ 0 → hub.timer

theorem Windowed.quiet (h : hub.Windowed options) (hquiet : hub.Quiet hub') :
    hub'.Windowed options := by
  constructor
  · rw [hquiet.coalescing]
    exact h.tags
  · rw [hquiet.coalescing, hquiet.timer]
    exact h.armed

def Noted (hub : LiveHub) (key : LiveKey) (tag : JSString) : Prop :=
  ∃ pending, hub.coalescing.get key = some pending ∧ pending.again ∧ tag ∈ pending.tags

theorem fanned_changeKey : hub.Fanned (hub.changeKey key tags) := by
  unfold changeKey
  split_ifs
  · split
    · exact ⟨rfl, rfl, rfl, List.prefix_rfl⟩
    · have hpublish := fanned_publishTags
        { hub with coalescing := hub.coalescing.set key ⟨tags, false⟩ } tags
      exact ⟨hpublish.down, hpublish.sockets, hpublish.members, hpublish.sent⟩
  · exact .refl

theorem get_changeKey : (hub.changeKey key tags).coalescing.get key' =
    if tags.any hub.members.has ∧ key' = key then
      some ((hub.coalescing.get key).elim ⟨tags, false⟩ fun pending =>
        { pending with again := true })
    else hub.coalescing.get key' := by
  unfold changeKey
  by_cases hany : tags.any hub.members.has
  · rw [if_pos hany]
    cases hget : hub.coalescing.get key with
    | none =>
      simp only
      rw [(publishTags_window _ _).1, InsertionMap.get_set]
      simp [hany]
    | some pending =>
      simp only
      rw [InsertionMap.get_set]
      simp [hany]
  · rw [if_neg hany, if_neg fun h => hany h.1]

theorem tags_changeKey
    (h : ∀ key pending, hub.coalescing.get key = some pending → pending.tags = options.tagsOf key) :
    ∀ key' pending, (hub.changeKey key (options.tagsOf key)).coalescing.get key' = some pending →
      pending.tags = options.tagsOf key' := by
  intro key' pending hget
  rw [get_changeKey] at hget
  split_ifs at hget with hkey
  · rw [hkey.2]
    obtain rfl := Option.some.inj hget
    cases hold : hub.coalescing.get key with
    | none => rfl
    | some pending => exact h key pending hold
  · exact h key' pending hget

theorem Noted.changeKey (h : hub.Noted key tag) : (hub.changeKey key' tags).Noted key tag := by
  obtain ⟨pending, hget, hagain, htag⟩ := h
  unfold Noted
  rw [get_changeKey]
  split_ifs with hkey
  · rw [← hkey.2, hget]
    exact ⟨_, rfl, rfl, htag⟩
  · exact ⟨pending, hget, hagain, htag⟩

theorem published_or_noted (hcounted : hub.Counted) (htag : tag ∈ options.tagsOf key)
    (hold : ∀ key pending, hub.coalescing.get key = some pending →
      pending.tags = options.tagsOf key) (hholds : hub.holds ws tag) :
    Published ws tag hub (hub.changeKey key (options.tagsOf key)) ∨
      (hub.changeKey key (options.tagsOf key)).Noted key tag := by
  obtain ⟨n, hn⟩ := hcounted.member hholds
  have hany : (options.tagsOf key).any hub.members.has := by
    rw [List.any_eq_true]
    exact ⟨tag, htag, by rw [InsertionMap.has, hn]; rfl⟩
  cases hget : hub.coalescing.get key with
  | none =>
    left
    rw [changeKey, if_pos hany, hget]
    exact published_publishTags_windows _ hcounted htag hholds
  | some pending =>
    right
    refine ⟨{ pending with again := true }, ?_, rfl, by rw [hold key pending hget]; exact htag⟩
    rw [get_changeKey, if_pos ⟨hany, rfl⟩, hget]
    rfl

theorem fanned_arm : hub.Fanned hub.arm := by
  unfold arm
  split_ifs
  · exact .refl
  · exact ⟨rfl, rfl, rfl, List.prefix_rfl⟩

theorem arm_coalescing : hub.arm.coalescing = hub.coalescing := by
  unfold arm
  split_ifs
  · rfl
  · rfl

theorem arm_timer (h : hub.arm.coalescing.size ≠ 0) : hub.arm.timer := by
  rw [arm_coalescing] at h
  rw [arm, if_neg h]

def tagged (options : HubOptions) (keys : List LiveKey) : List (LiveKey × List JSString) :=
  keys.map fun key => (key, options.tagsOf key)

theorem fanned_changeKeys {keys : List (LiveKey × List JSString)} :
    hub.Fanned (keys.foldl (fun hub key => hub.changeKey key.1 key.2) hub) :=
  .foldl (fun _ _ => fanned_changeKey) keys

theorem fanned_change {keys : List (LiveKey × List JSString)} : hub.Fanned (hub.change keys) :=
  fanned_changeKeys.trans fanned_arm

theorem tags_changeKeys {keys : List LiveKey}
    (h : ∀ key pending, hub.coalescing.get key = some pending → pending.tags = options.tagsOf key) :
    ∀ key pending, ((tagged options keys).foldl (fun hub key => hub.changeKey key.1 key.2)
      hub).coalescing.get key = some pending → pending.tags = options.tagsOf key := by
  induction keys generalizing hub with
  | nil => exact h
  | cons key keys ih => exact ih (tags_changeKey h)

theorem Windowed.change (h : hub.Windowed options) {keys : List LiveKey} :
    (hub.change (tagged options keys)).Windowed options := by
  constructor
  · unfold LiveHub.change
    rw [arm_coalescing]
    exact tags_changeKeys h.tags
  · exact arm_timer

theorem Noted.changeKeys (h : hub.Noted key tag) {keys : List (LiveKey × List JSString)} :
    (keys.foldl (fun hub key => hub.changeKey key.1 key.2) hub).Noted key tag := by
  induction keys generalizing hub with
  | nil => exact h
  | cons key' keys ih => exact ih h.changeKey

theorem Noted.change (h : hub.Noted key tag) {keys : List (LiveKey × List JSString)} :
    (hub.change keys).Noted key tag := by
  unfold Noted LiveHub.change
  rw [arm_coalescing]
  exact h.changeKeys

theorem published_or_noted_change {keys : List LiveKey} (hkey : key ∈ keys) (hcounted : hub.Counted)
    (htag : tag ∈ options.tagsOf key) (hold : hub.Windowed options) (hholds : hub.holds ws tag) :
    Published ws tag hub (hub.change (tagged options keys)) ∨
      (hub.change (tagged options keys)).Noted key tag := by
  have hkeys : ∀ hub : LiveHub, hub.Counted → hub.holds ws tag →
      (∀ key pending, hub.coalescing.get key = some pending →
        pending.tags = options.tagsOf key) →
      Published ws tag hub
          ((tagged options keys).foldl (fun hub key => hub.changeKey key.1 key.2) hub) ∨
        LiveHub.Noted
          ((tagged options keys).foldl (fun hub key => hub.changeKey key.1 key.2) hub) key tag := by
    induction keys with
    | nil => cases hkey
    | cons first keys ih =>
      intro hub hcounted hholds hold
      have hstep : hub.Fanned (hub.changeKey first (options.tagsOf first)) := fanned_changeKey
      rcases List.mem_cons.mp hkey with rfl | hkey
      · rcases published_or_noted hcounted htag hold hholds with hpublished | hnoted
        · exact Or.inl (hpublished.after fanned_changeKeys.sent)
        · exact Or.inr hnoted.changeKeys
      · exact (ih hkey _ (hstep.counted hcounted) (hstep.holds.trans hholds)
          (tags_changeKey hold)).imp_left fun hpublished => hpublished.before hstep.sent
  unfold LiveHub.change
  rcases hkeys hub hcounted hholds hold.tags with hpublished | hnoted
  · exact Or.inl (hpublished.after fanned_arm.sent)
  · right
    unfold Noted
    rw [arm_coalescing]
    exact hnoted

theorem fanned_flushKey : hub.Fanned (hub.flushKey key pending) := by
  unfold flushKey
  split_ifs
  · have hpublish := fanned_publishTags { hub with
      coalescing := hub.coalescing.set key { pending with again := false } } pending.tags
    exact ⟨hpublish.down, hpublish.sockets, hpublish.members, hpublish.sent⟩
  · exact ⟨rfl, rfl, rfl, List.prefix_rfl⟩

theorem fanned_flushKeys (entries : List (LiveKey × Pending)) :
    hub.Fanned (entries.foldl (fun hub entry => hub.flushKey entry.1 entry.2) hub) :=
  .foldl (fun _ _ => fanned_flushKey) entries

theorem fanned_flush : hub.Fanned hub.flush := by
  have hkeys : LiveHub.Fanned { hub with timer := false } _ :=
    fanned_flushKeys hub.coalescing.entries
  have hflush := hkeys.trans fanned_arm
  exact ⟨hflush.down, hflush.sockets, hflush.members, hflush.sent⟩

theorem tags_flushKey (hpending : pending.tags = options.tagsOf key)
    (h : ∀ key pending, hub.coalescing.get key = some pending → pending.tags = options.tagsOf key) :
    ∀ key' pending', (hub.flushKey key pending).coalescing.get key' = some pending' →
      pending'.tags = options.tagsOf key' := by
  intro key' pending' hget
  unfold flushKey at hget
  split_ifs at hget with hagain
  · rw [(publishTags_window _ _).1, InsertionMap.get_set] at hget
    split_ifs at hget with hkey
    · obtain rfl := Option.some.inj hget
      rw [hkey]
      exact hpending
    · exact h key' pending' hget
  · rw [InsertionMap.get_delete] at hget
    split_ifs at hget
    exact h key' pending' hget

theorem Windowed.flush (h : hub.Windowed options) : hub.flush.Windowed options := by
  have hkeys : ∀ (entries : List (LiveKey × Pending)) (hub : LiveHub),
      (∀ entry ∈ entries, entry.2.tags = options.tagsOf entry.1) →
      (∀ key pending, hub.coalescing.get key = some pending → pending.tags = options.tagsOf key) →
      ∀ key pending, (entries.foldl (fun hub entry => hub.flushKey entry.1 entry.2)
        hub).coalescing.get key = some pending → pending.tags = options.tagsOf key := by
    intro entries
    induction entries with
    | nil => exact fun hub _ hold => hold
    | cons entry entries ih =>
      intro hub hentries hold
      exact ih _ (fun e he => hentries e (List.mem_cons_of_mem _ he))
        (tags_flushKey (hentries entry List.mem_cons_self) hold)
  constructor
  · unfold LiveHub.flush
    rw [arm_coalescing]
    refine hkeys hub.coalescing.entries { hub with timer := false } (fun entry hentry => ?_) h.tags
    exact h.tags entry.1 entry.2 (InsertionMap.get_eq_some_iff.mpr hentry)
  · exact arm_timer

theorem published_flush (hcounted : hub.Counted) (hnoted : hub.Noted key tag)
    (hholds : hub.holds ws tag) : Published ws tag hub hub.flush := by
  obtain ⟨pending, hget, hagain, htag⟩ := hnoted
  have hkeys : ∀ (entries : List (LiveKey × Pending)) (hub : LiveHub), (key, pending) ∈ entries →
      hub.Counted → hub.holds ws tag →
      Published ws tag hub (entries.foldl (fun hub entry => hub.flushKey entry.1 entry.2) hub) := by
    intro entries
    induction entries with
    | nil => exact fun _ hmem => nomatch hmem
    | cons entry entries ih =>
      intro hub hmem hcounted hholds
      have hstep : hub.Fanned (hub.flushKey entry.1 entry.2) := fanned_flushKey
      rcases List.mem_cons.mp hmem with rfl | hmem
      · have hfirst : Published ws tag hub (hub.flushKey key pending) := by
          rw [flushKey, if_pos hagain]
          exact published_publishTags_windows _ hcounted htag hholds
        exact hfirst.after (fanned_flushKeys _).sent
      · exact (ih _ hmem (hstep.counted hcounted) (hstep.holds.trans hholds)).before hstep.sent
  have hflushed := hkeys hub.coalescing.entries { hub with timer := false }
    (InsertionMap.get_eq_some_iff.mp hget) hcounted hholds
  exact Published.after hflushed fanned_arm.sent

end Nifra.Live.LiveHub
