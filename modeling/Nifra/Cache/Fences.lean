import Mathlib.Tactic.Tauto
import Nifra.Cache.MemoryCache

/-! # What a fence refuses

A token that was taken before a key or a tag changed is refused from then on, also when the change is
forgotten. Every row is indexed under its tags.
-/

namespace Nifra.Cache

section Changes
variable {changes : InsertionMap JSString ℕ} {name name' : JSString} {epoch e token : ℕ}

theorem get_recordChange (h : ((changes.delete name).set name epoch).get name' = some e) :
    (recordChange changes name epoch).1.get name' = some e ∨
      (recordChange changes name epoch).2 = some e := by
  simp only [recordChange]
  split_ifs
  · exact Or.inl h
  · split
    · exact Or.inl h
    · next oldest since rest hentries =>
      by_cases hname : name' = oldest
      · subst hname
        have holdest : ((changes.delete name).set name epoch).get name' = some since :=
          InsertionMap.get_eq_some_iff.mpr (hentries ▸ List.mem_cons_self)
        exact Or.inr (holdest.symm.trans h)
      · left
        rw [InsertionMap.get_delete, if_neg hname]
        exact h

theorem lt_recordChange (changes : InsertionMap JSString ℕ) (name : JSString)
    (hnew : token < epoch)
    (h : name' = name ∨ token < (changes.get name').getD 0) :
    token < ((recordChange changes name epoch).1.get name').getD 0 ∨
      token < (recordChange changes name epoch).2.getD 0 := by
  have hget : ∃ e, ((changes.delete name).set name epoch).get name' = some e ∧ token < e := by
    by_cases hname : name' = name
    · exact ⟨epoch, by rw [InsertionMap.get_set, if_pos hname], hnew⟩
    · obtain ⟨e, he⟩ : ∃ e, changes.get name' = some e := by
        cases hold : changes.get name' with
        | none =>
          rw [hold] at h
          exact absurd (h.resolve_left hname) (Nat.not_lt_zero _)
        | some e => exact ⟨e, rfl⟩
      refine ⟨e, ?_, ?_⟩
      · rw [InsertionMap.get_set, if_neg hname, InsertionMap.get_delete, if_neg hname, he]
      · have hlt := h.resolve_left hname
        rwa [he] at hlt
  obtain ⟨e, he, hlt⟩ := hget
  rcases get_recordChange he with hkept | hforgotten
  · exact Or.inl (by rwa [hkept])
  · exact Or.inr (by rwa [hforgotten])

end Changes

theorem lt_bump {epoch token : ℕ} (hsafe : isSafeInteger token) (hle : token ≤ epoch) :
    token < bump epoch := by
  simp only [isSafeInteger, decide_eq_true_eq] at hsafe
  unfold bump isSafeInteger
  simp only [decide_eq_true_eq]
  split_ifs <;> omega

theorem le_bump {epoch : ℕ} : epoch ≤ bump epoch := by
  unfold bump
  split_ifs <;> omega

namespace MemoryCache
variable {V : Type} {s t u : MemoryCache V} {key key' : JSString} {tags : List JSString}
  {tag : JSString} {token : ℕ} {now : ℤ} {entry : StoredEntry V}

theorem refuses_iff : s.refuses key tags token = true ↔
    isSafeInteger token = false ∨ s.epoch < token ∨ token < s.clearedAt ∨ token < s.forgottenAt ∨
      token < (s.keyChanges.get key).getD 0 ∨
        ∃ tag ∈ tags, token < (s.tagChanges.get tag).getD 0 := by
  simp only [refuses, Bool.or_eq_true, Bool.not_eq_true', decide_eq_true_eq, List.any_eq_true]
  tauto

structure Stands (s t : MemoryCache V) : Prop where
  epoch : s.epoch ≤ t.epoch
  refuses : ∀ key tags token, token ≤ s.epoch → s.refuses key tags token = true →
    t.refuses key tags token = true

theorem Stands.refl : Stands s s := ⟨le_rfl, fun _ _ _ _ h => h⟩

theorem Stands.trans (h : Stands s t) (h' : Stands t u) : Stands s u :=
  ⟨h.epoch.trans h'.epoch, fun key tags token htoken hrefused =>
    h'.refuses key tags token (htoken.trans h.epoch) (h.refuses key tags token htoken hrefused)⟩

theorem refuses_recordKey (htoken : token ≤ s.epoch)
    (h : key' = key ∨ s.refuses key' tags token = true) :
    (s.recordKey key).refuses key' tags token = true := by
  by_cases hsafe : isSafeInteger token
  · have hnew := lt_bump hsafe htoken
    rw [refuses_iff]
    rw [refuses_iff] at h
    simp only [recordKey]
    rcases h with hkey | hunsafe | hahead | hcleared | hforgotten | hchanged | htag
    · rcases lt_recordChange s.keyChanges key hnew (Or.inl hkey) with hlt | hlt <;>
        simp only [lt_max_iff] <;> tauto
    · rw [hsafe] at hunsafe
      cases hunsafe
    · omega
    · tauto
    · simp only [lt_max_iff]
      tauto
    · rcases lt_recordChange s.keyChanges key hnew (Or.inr hchanged) with hlt | hlt <;>
        simp only [lt_max_iff] <;> tauto
    · tauto
  · exact refuses_iff.mpr (Or.inl (Bool.eq_false_iff.mpr hsafe))

theorem refuses_recordTag (htoken : token ≤ s.epoch)
    (h : tag ∈ tags ∨ s.refuses key tags token = true) :
    (s.recordTag tag).refuses key tags token = true := by
  by_cases hsafe : isSafeInteger token
  · have hnew := lt_bump hsafe htoken
    rw [refuses_iff]
    rw [refuses_iff] at h
    simp only [recordTag]
    rcases h with htag | hunsafe | hahead | hcleared | hforgotten | hchanged | ⟨tag', htag', hlt⟩
    · rcases lt_recordChange s.tagChanges tag hnew (Or.inl rfl) with hlt | hlt
      · exact Or.inr (Or.inr (Or.inr (Or.inr (Or.inr ⟨tag, htag, hlt⟩))))
      · simp only [lt_max_iff]
        tauto
    · rw [hsafe] at hunsafe
      cases hunsafe
    · omega
    · tauto
    · simp only [lt_max_iff]
      tauto
    · tauto
    · rcases lt_recordChange s.tagChanges tag hnew (Or.inr hlt) with hlt | hlt
      · exact Or.inr (Or.inr (Or.inr (Or.inr (Or.inr ⟨tag', htag', hlt⟩))))
      · simp only [lt_max_iff]
        tauto
  · exact refuses_iff.mpr (Or.inl (Bool.eq_false_iff.mpr hsafe))

theorem refuses_clear (htoken : token ≤ s.epoch) : s.clear.refuses key tags token = true := by
  rw [refuses_iff]
  by_cases hsafe : isSafeInteger token
  · exact Or.inr (Or.inr (Or.inl (lt_bump hsafe htoken)))
  · exact Or.inl (Bool.eq_false_iff.mpr hsafe)

theorem stands_recordKey : Stands s (s.recordKey key) :=
  ⟨le_bump, fun _ _ _ htoken h => refuses_recordKey htoken (Or.inr h)⟩

theorem stands_recordTag : Stands s (s.recordTag tag) :=
  ⟨le_bump, fun _ _ _ htoken h => refuses_recordTag htoken (Or.inr h)⟩

theorem stands_clear : Stands s s.clear :=
  ⟨le_bump, fun _ _ _ htoken _ => refuses_clear htoken⟩

def Linked (index : InsertionMap JSString (InsertionMap JSString Unit)) (key tag : JSString) :
    Prop :=
  ∃ keys, index.get tag = some keys ∧ keys.has key

def Indexed (s : MemoryCache V) : Prop :=
  ∀ key row, s.rows.get key = some row → ∀ tag ∈ row.tags, Linked s.tagIndex key tag

/-- The marks stay, and no row is new: at most its place in the map. -/
structure Shrinks (s t : MemoryCache V) : Prop where
  marks : t.keyChanges = s.keyChanges ∧ t.tagChanges = s.tagChanges ∧ t.clearedAt = s.clearedAt ∧
    t.forgottenAt = s.forgottenAt ∧ t.epoch = s.epoch
  rows : ∀ key row, t.rows.get key = some row →
    ∃ row', s.rows.get key = some row' ∧ row'.source = row.source ∧ row'.tags = row.tags
  indexed : s.Indexed → t.Indexed

theorem Shrinks.refl : Shrinks s s :=
  ⟨⟨rfl, rfl, rfl, rfl, rfl⟩, fun _ row h => ⟨row, h, rfl, rfl⟩, id⟩

theorem Shrinks.trans (h : Shrinks s t) (h' : Shrinks t u) : Shrinks s u := by
  constructor
  · obtain ⟨hk, ht, hc, hf, he⟩ := h.marks
    obtain ⟨hk', ht', hc', hf', he'⟩ := h'.marks
    exact ⟨hk'.trans hk, ht'.trans ht, hc'.trans hc, hf'.trans hf, he'.trans he⟩
  · intro key row hrow
    obtain ⟨row', hrow', hsource', htags'⟩ := h'.rows key row hrow
    obtain ⟨row'', hrow'', hsource'', htags''⟩ := h.rows key row' hrow'
    exact ⟨row'', hrow'', hsource''.trans hsource', htags''.trans htags'⟩
  · exact fun hindexed => h'.indexed (h.indexed hindexed)

theorem Shrinks.stands (h : Shrinks s t) : Stands s t := by
  obtain ⟨hk, ht, hc, hf, he⟩ := h.marks
  constructor
  · exact he.ge
  · intro key tags token _ hrefused
    rw [refuses_iff] at hrefused ⊢
    rwa [hk, ht, hc, hf, he]

theorem linked_unlink {index : InsertionMap JSString (InsertionMap JSString Unit)}
    {tag' : JSString} (hne : key' ≠ key) (h : Linked index key' tag') :
    Linked (unlink key index tag) key' tag' := by
  obtain ⟨keys, hkeys, hhas⟩ := h
  unfold unlink
  split
  · exact ⟨keys, hkeys, hhas⟩
  · next keys' hkeys' =>
    by_cases htag : tag' = tag
    · subst htag
      obtain rfl := Option.some.inj (hkeys.symm.trans hkeys')
      have hleft : (keys.delete key).has key' := by
        rw [InsertionMap.has, InsertionMap.get_delete, if_neg hne]
        exact hhas
      have hsize : (keys.delete key).size ≠ 0 := by
        intro hzero
        obtain ⟨v, hv⟩ := Option.isSome_iff_exists.mp hleft
        have hmem := InsertionMap.get_eq_some_iff.mp hv
        rw [List.length_eq_zero_iff.mp hzero] at hmem
        cases hmem
      simp only [if_neg hsize]
      exact ⟨keys.delete key, by rw [InsertionMap.get_set, if_pos rfl], hleft⟩
    · refine ⟨keys, ?_, hhas⟩
      simp only
      split_ifs
      · rw [InsertionMap.get_delete, if_neg htag, hkeys]
      · rw [InsertionMap.get_set, if_neg htag, hkeys]

theorem linked_link {index : InsertionMap JSString (InsertionMap JSString Unit)}
    {tag' : JSString} (h : (key' = key ∧ tag' = tag) ∨ Linked index key' tag') :
    Linked (link key index tag) key' tag' := by
  unfold link
  by_cases htag : tag' = tag
  · subst htag
    refine ⟨_, by rw [InsertionMap.get_set, if_pos rfl], ?_⟩
    rw [InsertionMap.has, InsertionMap.get_set]
    split_ifs with hkey
    · rfl
    · obtain ⟨keys, hkeys, hhas⟩ := h.resolve_left fun hboth => hkey hboth.1
      rw [hkeys]
      exact hhas
  · obtain ⟨keys, hkeys, hhas⟩ := h.resolve_left fun hboth => htag hboth.2
    exact ⟨keys, by rw [InsertionMap.get_set, if_neg htag, hkeys], hhas⟩

theorem rows_evict : (s.evict key).rows.get key' = if key' = key then none else s.rows.get key' := by
  unfold evict
  split
  · next hnone =>
    split_ifs with hkey
    · rw [hkey, hnone]
    · rfl
  · exact InsertionMap.get_delete

theorem shrinks_evict : Shrinks s (s.evict key) := by
  constructor
  · unfold evict
    split
    · exact ⟨rfl, rfl, rfl, rfl, rfl⟩
    · exact ⟨rfl, rfl, rfl, rfl, rfl⟩
  · intro key' row hrow
    rw [rows_evict] at hrow
    split_ifs at hrow
    exact ⟨row, hrow, rfl, rfl⟩
  · intro hindexed key' row hrow tag htag
    rw [rows_evict] at hrow
    split_ifs at hrow with hkey
    have hlinked := hindexed key' row hrow tag htag
    unfold evict
    split
    · exact hlinked
    · next old _ =>
      simp only
      induction old.tags using List.reverseRecOn with
      | nil => exact hlinked
      | append_singleton rest last ih =>
        rw [List.foldl_append]
        exact linked_unlink hkey ih

theorem shrinks_get : Shrinks s (s.get key now).1 := by
  unfold get
  split
  · exact .refl
  · next row hrow =>
    split_ifs
    · exact shrinks_evict
    · have hrows (key' : JSString) (row' : Row V)
          (h : (({ s with rows := s.rows.delete key }.append key row).rows.get key' = some row')) :
          ∃ old, s.rows.get key' = some old ∧ old.source = row'.source ∧ old.tags = row'.tags := by
        rw [append, InsertionMap.get_set] at h
        split_ifs at h with hkey
        · obtain rfl := Option.some.inj h
          exact ⟨row, hkey ▸ hrow, rfl, rfl⟩
        · rw [InsertionMap.get_delete, if_neg hkey] at h
          exact ⟨row', h, rfl, rfl⟩
      constructor
      · exact ⟨rfl, rfl, rfl, rfl, rfl⟩
      · exact hrows
      · intro hindexed key' row' h tag htag
        obtain ⟨old, hold, -, htags⟩ := hrows key' row' h
        exact hindexed key' old hold tag (htags ▸ htag)

theorem shrinks_sweep {sweep : Option ℕ} : Shrinks s { s with sweep := sweep } :=
  ⟨⟨rfl, rfl, rfl, rfl, rfl⟩, fun _ row h => ⟨row, h, rfl, rfl⟩, id⟩

theorem shrinks_visit {visited : JSString × Row V} : Shrinks s (s.visit visited now) := by
  unfold visit
  simp only
  split_ifs
  · exact shrinks_sweep.trans shrinks_evict
  · exact shrinks_sweep

theorem shrinks_sweepExpired (limit : ℕ) : Shrinks s (sweepExpired now limit s) := by
  induction limit generalizing s with
  | zero => exact .refl
  | succ limit ih =>
    unfold sweepExpired
    split
    · exact shrinks_visit.trans ih
    · simp only
      split
      · exact (shrinks_sweep.trans shrinks_visit).trans ih
      · exact shrinks_sweep.trans shrinks_sweep

theorem shrinks_trim : Shrinks s s.trim := by
  unfold trim
  split_ifs
  · split
    · exact .refl
    · exact shrinks_evict
  · exact .refl

def RowsOf (s t : MemoryCache V) : Prop :=
  ∀ key row, t.rows.get key = some row →
    ∃ row', s.rows.get key = some row' ∧ row'.source = row.source ∧ row'.tags = row.tags

theorem rows_append {row row' : Row V} (h : (s.append key row).rows.get key' = some row') :
    (key' = key ∧ row'.source = row.source ∧ row'.tags = row.tags) ∨
      (key' ≠ key ∧ s.rows.get key' = some row') := by
  rw [append, InsertionMap.get_set] at h
  split_ifs at h with hkey
  · obtain rfl := Option.some.inj h
    exact Or.inl ⟨hkey, rfl, rfl⟩
  · exact Or.inr ⟨hkey, h⟩

/-- What a `set` leaves: its own row, and rows of before under other keys. -/
structure SetSpec (s t : MemoryCache V) (key : JSString) (entry : StoredEntry V)
    (tags : List JSString) : Prop where
  stands : Stands s t
  refused : ∀ tags token, token ≤ s.epoch → t.refuses key tags token = true
  rows : ∀ key' row, t.rows.get key' = some row →
    (key' = key ∧ row.source = entry.source ∧ row.tags = tags) ∨
      (key' ≠ key ∧ ∃ row', s.rows.get key' = some row' ∧ row'.source = row.source ∧
        row'.tags = row.tags)
  indexed : s.Indexed → t.Indexed

theorem set_spec (s : MemoryCache V) (key : JSString) (entry : StoredEntry V)
    (tags : List JSString) (now : ℤ) : SetSpec s (s.set key entry tags now) key entry tags := by
  have hswept : Shrinks (s.recordKey key) ((sweepExpired now 8 (s.recordKey key)).evict key) :=
    (shrinks_sweepExpired 8).trans shrinks_evict
  generalize hbare : (sweepExpired now 8 (s.recordKey key)).evict key = bare at hswept
  let linked : MemoryCache V :=
    { bare.append key ⟨entry, tags, 0⟩ with tagIndex := tags.foldl (link key) bare.tagIndex }
  have hset : s.set key entry tags now = linked.trim := by
    simp only [set, hbare]
    rfl
  have hmarks : Stands bare linked := ⟨le_rfl, fun _ _ _ _ h => h⟩
  have hafter : Stands (s.recordKey key) linked.trim :=
    hswept.stands.trans (hmarks.trans shrinks_trim.stands)
  rw [hset]
  constructor
  · exact stands_recordKey.trans hafter
  · intro tags token htoken
    exact hafter.refuses key tags token (htoken.trans le_bump)
      (refuses_recordKey htoken (Or.inl rfl))
  · intro key' row hrow
    obtain ⟨row', hrow', hsource', htags'⟩ := shrinks_trim.rows key' row hrow
    rcases rows_append hrow' with ⟨hkey, hsource, htags⟩ | ⟨hkey, hold⟩
    · exact Or.inl ⟨hkey, hsource'.symm.trans hsource, htags'.symm.trans htags⟩
    · obtain ⟨row'', hrow'', hsource'', htags''⟩ := hswept.rows key' row' hold
      exact Or.inr ⟨hkey, row'', hrow'', hsource''.trans hsource', htags''.trans htags'⟩
  · intro hindexed
    have hbareindexed : bare.Indexed := hswept.indexed hindexed
    refine shrinks_trim.indexed fun key' row hrow tag htag => ?_
    have hlink (start : List JSString)
        (h : (key' = key ∧ tag ∈ start) ∨ Linked bare.tagIndex key' tag) :
        Linked (start.foldl (link key) bare.tagIndex) key' tag := by
      induction start using List.reverseRecOn with
      | nil => exact h.resolve_left fun hboth => List.not_mem_nil hboth.2
      | append_singleton rest last ih =>
        rw [List.foldl_append]
        rcases h with ⟨hkey, hmem⟩ | hlinked
        · rcases List.mem_append.mp hmem with hmem | hmem
          · exact linked_link (Or.inr (ih (Or.inl ⟨hkey, hmem⟩)))
          · exact linked_link (Or.inl ⟨hkey, List.mem_singleton.mp hmem⟩)
        · exact linked_link (Or.inr (ih (Or.inr hlinked)))
    rcases rows_append hrow with ⟨hkey, -, htags⟩ | ⟨-, hold⟩
    · have htag' : tag ∈ tags := by rwa [htags] at htag
      exact hlink tags (Or.inl ⟨hkey, htag'⟩)
    · exact hlink tags (Or.inr (hbareindexed key' row hold tag htag))

structure DropSpec (s t : MemoryCache V) : Prop where
  stands : Stands s t
  rows : RowsOf s t
  indexed : s.Indexed → t.Indexed

theorem delete_spec : DropSpec s (s.delete key) :=
  have h : Shrinks (s.recordKey key) (s.delete key) := shrinks_evict
  ⟨stands_recordKey.trans h.stands, h.rows, h.indexed⟩

theorem refuses_delete (htoken : token ≤ s.epoch) : (s.delete key).refuses key tags token = true :=
  have h : Shrinks (s.recordKey key) (s.delete key) := shrinks_evict
  h.stands.refuses key tags token (htoken.trans le_bump) (refuses_recordKey htoken (Or.inl rfl))

theorem rows_delete : (s.delete key).rows.get key = none := by
  rw [delete, rows_evict, if_pos rfl]

theorem shrinks_evictAll (keys : List JSString) : Shrinks s (keys.foldl evict s) := by
  induction keys generalizing s with
  | nil => exact .refl
  | cons key keys ih => exact shrinks_evict.trans ih

theorem rows_evictAll {keys : List JSString} (h : key ∈ keys) :
    (keys.foldl evict s).rows.get key = none := by
  induction keys generalizing s with
  | nil => cases h
  | cons first keys ih =>
    rcases List.mem_cons.mp h with rfl | h
    · cases hrow : ((key :: keys).foldl evict s).rows.get key with
      | none => rfl
      | some row =>
        obtain ⟨row', hrow', -⟩ := (shrinks_evictAll keys).rows key row hrow
        rw [rows_evict, if_pos rfl] at hrow'
        cases hrow'
    · exact ih h

theorem shrinks_invalidateTag : Shrinks (s.recordTag tag) (s.invalidateTag tag) := by
  simp only [invalidateTag]
  split
  · exact .refl
  · exact shrinks_evictAll _

theorem invalidateTag_spec : DropSpec s (s.invalidateTag tag) :=
  ⟨stands_recordTag.trans shrinks_invalidateTag.stands, shrinks_invalidateTag.rows,
    shrinks_invalidateTag.indexed⟩

theorem refuses_invalidateTag (htoken : token ≤ s.epoch) (htag : tag ∈ tags) :
    (s.invalidateTag tag).refuses key tags token = true :=
  shrinks_invalidateTag.stands.refuses key tags token (htoken.trans le_bump)
    (refuses_recordTag htoken (Or.inl htag))

theorem rows_invalidateTag (hindexed : s.Indexed) {row : Row V}
    (h : (s.invalidateTag tag).rows.get key = some row) : tag ∉ row.tags := by
  intro htag
  obtain ⟨row', hrow', -, htags⟩ := shrinks_invalidateTag.rows key row h
  obtain ⟨keys, hkeys, hhas⟩ := hindexed key row' hrow' tag (htags ▸ htag)
  have hmem : key ∈ keys.keys :=
    InsertionMap.mem_keys_iff.mpr (Option.isSome_iff_exists.mp hhas)
  have hindex : (s.recordTag tag).tagIndex.get tag = some keys := hkeys
  simp only [invalidateTag, hindex] at h
  rw [rows_evictAll hmem] at h
  cases h

theorem clear_spec : DropSpec s s.clear :=
  ⟨stands_clear, nofun, fun _ => nofun⟩

end MemoryCache

end Nifra.Cache
