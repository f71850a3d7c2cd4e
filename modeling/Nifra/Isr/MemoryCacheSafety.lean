import Mathlib.Tactic.Linarith
import Nifra.Isr.MemoryCacheStore

/-! # The store in memory is sound

Each operation keeps the store in step with the purges that were made: no row is older than a purge
that touches it, and every row carries the current epochs of its tags.
-/

namespace Nifra.Isr

def CachedResponse.tagList {B F : Type} (value : CachedResponse B F) : List JSString :=
  value.tags.getD []

theorem mem_keys_foldl_set {tags : List JSString} {tag : JSString}
    {unique : InsertionMap JSString Unit} :
    tag ∈ (tags.foldl (fun unique tag => unique.set tag ()) unique).keys ↔
      tag ∈ tags ∨ tag ∈ unique.keys := by
  induction tags generalizing unique with
  | nil => simp
  | cons first tags ih =>
    rw [List.foldl_cons, ih, InsertionMap.mem_keys_set, List.mem_cons]
    constructor
    · rintro (hmem | rfl | hmem)
      · exact Or.inl (Or.inr hmem)
      · exact Or.inl (Or.inl rfl)
      · exact Or.inr hmem
    · rintro ((rfl | hmem) | hmem)
      · exact Or.inr (Or.inl rfl)
      · exact Or.inl hmem
      · exact Or.inr (Or.inr hmem)

theorem eq_of_normalizeTag {tag tag' : JSString} (h : normalizeTag tag = .ok tag') : tag' = tag := by
  unfold normalizeTag at h
  split_ifs at h
  exact (Except.ok.inj h).symm

theorem mapM_normalizeTag {tags tags' : List JSString} (h : tags.mapM normalizeTag = .ok tags') :
    tags' = tags := by
  induction tags generalizing tags' with
  | nil => exact (Except.ok.inj h).symm
  | cons tag tags ih =>
    rw [List.mapM_cons] at h
    cases hfirst : normalizeTag tag with
    | error =>
      rw [hfirst] at h
      cases h
    | ok first =>
      rw [hfirst] at h
      obtain rfl := eq_of_normalizeTag hfirst
      cases hrest : tags.mapM normalizeTag with
      | error =>
        rw [hrest] at h
        cases h
      | ok rest =>
        rw [hrest] at h
        obtain rfl := ih hrest
        exact (Except.ok.inj h).symm

theorem mem_normalizeTags {tags : Option (List JSString)} {normal : List JSString} {tag : JSString}
    (h : normalizeTags tags = .ok normal) : tag ∈ normal ↔ tag ∈ tags.getD [] := by
  cases tags with
  | none =>
    obtain rfl := Except.ok.inj h
    exact Iff.rfl
  | some tags =>
    simp only [normalizeTags] at h
    split_ifs at h
    cases htags : tags.mapM normalizeTag with
    | error =>
      rw [htags] at h
      cases h
    | ok tags' =>
      rw [htags] at h
      obtain rfl := mapM_normalizeTag htags
      obtain rfl := Except.ok.inj h
      rw [mem_keys_foldl_set, Option.getD_some]
      simp

namespace MemoryCacheStore
variable {B : Type} {s t : MemoryCacheStore B} {purges : List Purge} {key key' tag uuid : JSString}
  {tags : List JSString} {row : Row B ℕ} {value : CachedResponse B ℕ} {fence : ℕ}

structure Sound (purges : List Purge) (s : MemoryCacheStore B) : Prop where
  order : s.order = purges.length
  keyMarks : Marked purges .path s.purgedKeys s.purgeFloor
  tagMarks : Marked purges .tag s.purgedTags s.purgeFloor
  size : s.cache.size ≤ s.max
  epochs : ∀ key row, s.cache.get key = some row →
    ∀ tag epoch, row.tagEpochs.get tag = some epoch → s.epochOf tag = epoch
  carried : ∀ key row, s.cache.get key = some row →
    ∀ tag, row.tagEpochs.has tag = true ↔ tag ∈ row.value.tagList
  current : ∀ key row, s.cache.get key = some row →
    ∀ fence, row.value.fence = some fence → CurrentAt purges key row.value.tagList fence

theorem sound_create {max : ℕ} (h : create max = .ok s) : s.Sound [] := by
  unfold create at h
  split_ifs at h
  obtain rfl := Except.ok.inj h
  constructor
  · rfl
  · exact .nil _
  · exact .nil _
  · exact Nat.zero_le _
  · exact nofun
  · exact nofun
  · exact nofun

/-- The marks stay, no row is new, and the tags of the rows keep their epochs. -/
structure Narrows (s t : MemoryCacheStore B) : Prop where
  max : t.max = s.max
  marks : t.order = s.order ∧ t.purgedKeys = s.purgedKeys ∧ t.purgedTags = s.purgedTags ∧
    t.purgeFloor = s.purgeFloor
  rows : ∀ key row, t.cache.get key = some row → s.cache.get key = some row
  size : t.cache.size ≤ s.cache.size
  epochs : ∀ key row, t.cache.get key = some row → ∀ tag, row.tagEpochs.has tag = true →
    t.epochOf tag = s.epochOf tag

theorem Sound.narrows (h : s.Sound purges) (hnarrows : Narrows s t) : t.Sound purges := by
  obtain ⟨horder, hkeys, htags, hfloor⟩ := hnarrows.marks
  constructor
  · rw [horder]
    exact h.order
  · rw [hkeys, hfloor]
    exact h.keyMarks
  · rw [htags, hfloor]
    exact h.tagMarks
  · rw [hnarrows.max]
    exact hnarrows.size.trans h.size
  · intro key row hrow tag epoch hepoch
    have hhas : row.tagEpochs.has tag = true := Option.isSome_iff_exists.mpr ⟨epoch, hepoch⟩
    rw [hnarrows.epochs key row hrow tag hhas]
    exact h.epochs key row (hnarrows.rows key row hrow) tag epoch hepoch
  · exact fun key row hrow => h.carried key row (hnarrows.rows key row hrow)
  · exact fun key row hrow => h.current key row (hnarrows.rows key row hrow)

theorem narrows_prune : Narrows s s.pruneTagEpochs := by
  constructor
  · rfl
  · exact ⟨rfl, rfl, rfl, rfl⟩
  · exact fun _ _ h => h
  · exact le_rfl
  · intro key row hrow tag htag
    have hused : (s.cache.values.any fun row => row.tagEpochs.has tag) = true :=
      List.any_eq_true.mpr ⟨row, InsertionMap.mem_values_iff.mpr ⟨key, hrow⟩, htag⟩
    have hkept : s.pruneTagEpochs.tagEpoch.get tag = s.tagEpoch.get tag := by
      refine (InsertionMap.get_foldl_delete (f := id)).trans (if_neg ?_)
      rintro ⟨unused, hunused, rfl⟩
      have hnone := (List.mem_filter.mp hunused).2
      rw [Bool.not_eq_true'] at hnone
      exact absurd hused (Bool.eq_false_iff.mp hnone)
    rw [epochOf, hkept, epochOf]

theorem size_delete_le {V : Type} {m : InsertionMap JSString V} : (m.delete key).size ≤ m.size := by
  unfold InsertionMap.size InsertionMap.delete
  exact List.length_filter_le _ _

theorem get_of_sound (h : s.Sound purges) : s.get key =
    match s.cache.get key with
    | none => (s, none)
    | some row => ({ s with cache := (s.cache.delete key).set key row }, some row.value) := by
  unfold get
  cases hrow : s.cache.get key with
  | none => rfl
  | some row =>
    simp only
    rw [if_neg]
    rw [List.any_eq_true]
    rintro ⟨⟨tag, epoch⟩, hentry, hpassed⟩
    have hepoch := h.epochs key row hrow tag epoch (InsertionMap.get_eq_some_iff.mpr hentry)
    exact of_decide_eq_true hpassed hepoch

theorem narrows_touch (hrow : s.cache.get key = some row) :
    Narrows s { s with cache := (s.cache.delete key).set key row } := by
  constructor
  · rfl
  · exact ⟨rfl, rfl, rfl, rfl⟩
  · intro key' row' hrow'
    change ((s.cache.delete key).set key row).get key' = some row' at hrow'
    rw [InsertionMap.get_set_delete] at hrow'
    split_ifs at hrow' with hkey
    · rw [hkey, hrow]
      exact hrow'
    · exact hrow'
  · have hsize : ((s.cache.delete key).set key row).size = s.cache.size := by
      rw [InsertionMap.size, InsertionMap.entries_set_delete, List.length_append]
      exact InsertionMap.size_delete hrow
    exact hsize.le
  · exact fun _ _ _ _ _ => rfl

theorem sound_get (h : s.Sound purges) : (s.get key).1.Sound purges := by
  rw [get_of_sound h]
  split
  · exact h
  · next row hrow => exact h.narrows (narrows_touch hrow)

theorem row_of_get (h : s.Sound purges) (hrow : (s.get key).1.cache.get key' = some row) :
    s.cache.get key' = some row := by
  rw [get_of_sound h] at hrow
  cases hget : s.cache.get key with
  | none =>
    rw [hget] at hrow
    exact hrow
  | some old =>
    rw [hget] at hrow
    exact (narrows_touch hget).rows key' row hrow

theorem get_eq_some_of_sound (h : s.Sound purges) :
    (s.get key).2 = some value ↔ ∃ row, s.cache.get key = some row ∧ row.value = value := by
  rw [get_of_sound h]
  split
  · next hnone => simp [hnone]
  · next row hrow => simp [hrow]

theorem Marked.currentAt {kind : JSString → Purge} {marks : InsertionMap JSString ℕ} {floor i : ℕ}
    {name : JSString} (h : Marked purges kind marks floor)
    (hpurge : purges[i]? = some (kind name)) (hmark : (marks.get name).getD floor ≤ fence) :
    i < fence :=
  (h.covered i name hpurge).trans_le hmark

theorem currentAt_of_not_purgedAfter (h : s.Sound purges)
    (hallowed : s.purgedAfter key tags fence = false) : CurrentAt purges key tags fence := by
  simp only [purgedAfter, Bool.or_eq_false_iff, decide_eq_false_iff_not, not_lt,
    List.any_eq_false, decide_eq_true_eq] at hallowed
  intro i purge hpurge htouches
  cases purge with
  | path purged =>
    obtain rfl : purged = key := htouches
    exact Marked.currentAt h.keyMarks hpurge hallowed.1
  | tag purged => exact Marked.currentAt h.tagMarks hpurge (hallowed.2 purged htouches)

theorem get_tagEpochs_rowOf : (s.rowOf value tags).tagEpochs.get tag =
    if tag ∈ tags then some (s.epochOf tag) else none := by
  unfold rowOf
  induction tags using List.reverseRecOn with
  | nil => rfl
  | append_singleton tags last ih =>
    simp only at ih ⊢
    rw [List.foldl_append, List.foldl_cons, List.foldl_nil, InsertionMap.get_set, ih]
    by_cases hlast : tag = last
    · simp [hlast]
    · simp [hlast]

theorem mem_tagList_rowOf (htags : ∀ tag, tag ∈ tags ↔ tag ∈ value.tagList) :
    tag ∈ (s.rowOf value tags).value.tagList ↔ tag ∈ tags := by
  unfold rowOf
  split_ifs with hnil
  · exact (htags tag).symm
  · exact Iff.rfl

theorem value_rowOf : (s.rowOf value tags).value.fence = value.fence ∧
    (s.rowOf value tags).value.body = value.body := by
  unfold rowOf
  split_ifs <;> exact ⟨rfl, rfl⟩

theorem get_insert {row : Row B ℕ} (hrow : (s.insert key value tags).cache.get key' = some row) :
    (key' = key ∧ row = s.rowOf value tags) ∨ (key' ≠ key ∧ s.cache.get key' = some row) := by
  have hcache := get_of_get_evictOldest le_rfl hrow
  rw [InsertionMap.get_set_delete] at hcache
  split_ifs at hcache with hkey
  · exact Or.inl ⟨hkey, (Option.some.inj hcache).symm⟩
  · exact Or.inr ⟨hkey, hcache⟩

theorem sound_insert (h : s.Sound purges) (htags : ∀ tag, tag ∈ tags ↔ tag ∈ value.tagList)
    (hcurrent : ∀ fence, value.fence = some fence → CurrentAt purges key tags fence) :
    (s.insert key value tags).Sound purges := by
  let cache := (s.cache.delete key).set key (s.rowOf value tags)
  let bare : MemoryCacheStore B := { s with cache := evictOldest s.max cache.size cache }
  have hbare : s.insert key value tags = bare.pruneTagEpochs := rfl
  rw [hbare]
  refine Sound.narrows ?_ narrows_prune
  constructor
  · exact h.order
  · exact h.keyMarks
  · exact h.tagMarks
  · exact size_evictOldest le_rfl
  · intro key' row hrow tag epoch hepoch
    rcases get_insert (s := s) hrow with ⟨rfl, rfl⟩ | ⟨-, hold⟩
    · rw [get_tagEpochs_rowOf] at hepoch
      split_ifs at hepoch
      exact Option.some.inj hepoch
    · exact h.epochs key' row hold tag epoch hepoch
  · intro key' row hrow tag
    rcases get_insert (s := s) hrow with ⟨rfl, rfl⟩ | ⟨-, hold⟩
    · rw [InsertionMap.has, get_tagEpochs_rowOf, mem_tagList_rowOf htags]
      split_ifs with htag <;> simp [htag]
    · exact h.carried key' row hold tag
  · intro key' row hrow fence hfence
    rcases get_insert (s := s) hrow with ⟨rfl, rfl⟩ | ⟨-, hold⟩
    · rw [value_rowOf.1] at hfence
      intro i purge hpurge htouches
      refine hcurrent fence hfence i purge hpurge ?_
      cases purge with
      | path purged => exact htouches
      | tag purged => exact (mem_tagList_rowOf htags).mp htouches
    · exact h.current key' row hold fence hfence

theorem set_cases (hset : s.set key value = .ok t) :
    ∃ tags, normalizeTags value.tags = .ok tags ∧
      ((∃ fence, value.fence = some fence ∧ s.purgedAfter key tags fence = true ∧ t = s) ∨
        ((∀ fence, value.fence = some fence → s.purgedAfter key tags fence = false) ∧
          t = s.insert key value tags)) := by
  unfold set at hset
  cases htags : normalizeTags value.tags with
  | error =>
    rw [htags] at hset
    cases hset
  | ok tags =>
    rw [htags] at hset
    refine ⟨tags, rfl, ?_⟩
    change (if value.fence.any (s.purgedAfter key tags) then Except.ok s
      else Except.ok (s.insert key value tags)) = .ok t at hset
    split_ifs at hset with hrefused
    · obtain ⟨fence, hfence, hafter⟩ := (Option.any_eq_true _ _).mp hrefused
      exact Or.inl ⟨fence, hfence, hafter, (Except.ok.inj hset).symm⟩
    · refine Or.inr ⟨fun fence hfence => ?_, (Except.ok.inj hset).symm⟩
      rw [hfence, Option.any_some] at hrefused
      exact Bool.eq_false_iff.mpr hrefused

theorem row_of_set {row : Row B ℕ} (hset : s.set key value = .ok t)
    (hrow : t.cache.get key' = some row) :
    (row.value.fence = value.fence ∧ row.value.body = value.body) ∨
      s.cache.get key' = some row := by
  obtain ⟨tags, -, ⟨-, -, -, rfl⟩ | ⟨-, rfl⟩⟩ := set_cases hset
  · exact Or.inr hrow
  · rcases get_insert hrow with ⟨-, rfl⟩ | ⟨-, hold⟩
    · exact Or.inl value_rowOf
    · exact Or.inr hold

theorem sound_set (h : s.Sound purges) (hset : s.set key value = .ok t) : t.Sound purges := by
  obtain ⟨tags, htags, ⟨-, -, -, rfl⟩ | ⟨hallowed, rfl⟩⟩ := set_cases hset
  · exact h
  · refine sound_insert h (fun tag => mem_normalizeTags htags) fun fence hfence => ?_
    exact currentAt_of_not_purgedAfter h (hallowed fence hfence)

theorem row_of_delete (hrow : (s.delete key).cache.get key' = some row) :
    key' ≠ key ∧ s.cache.get key' = some row := by
  change (s.cache.delete key).get key' = some row at hrow
  rw [InsertionMap.get_delete] at hrow
  split_ifs at hrow with hkey
  exact ⟨hkey, hrow⟩

theorem sound_delete (h : s.Sound purges) : (s.delete key).Sound (purges ++ [.path key]) := by
  let bare : MemoryCacheStore B := { s with cache := s.cache.delete key }.markKey key
  have hdelete : s.delete key = bare.pruneTagEpochs := rfl
  have hforgets := forgets_forgetOldest s.max ((s.purgedKeys.delete key).set key (s.order + 1)).size
    ((s.purgedKeys.delete key).set key (s.order + 1)) s.purgeFloor
  have hrows {key' : JSString} {row : Row B ℕ} (hrow : bare.cache.get key' = some row) :
      key' ≠ key ∧ s.cache.get key' = some row := row_of_delete hrow
  have hkeys : Marked (purges ++ [.path key]) .path bare.purgedKeys bare.purgeFloor := by
    rw [h.order] at hforgets
    have hmarked := h.keyMarks.mark key (fun _ _ => Purge.path.inj) hforgets
    simpa only [bare, markKey, h.order] using hmarked
  have hfloor := hkeys.floor_le
  rw [List.length_append, List.length_singleton] at hfloor
  rw [hdelete]
  refine Sound.narrows ?_ narrows_prune
  constructor
  · rw [List.length_append, List.length_singleton, ← h.order]
    rfl
  · exact hkeys
  · exact h.tagMarks.raise nofun hforgets.floor_le hfloor
  · exact size_delete_le.trans h.size
  · exact fun key' row hrow => h.epochs key' row (hrows hrow).2
  · exact fun key' row hrow => h.carried key' row (hrows hrow).2
  · intro key' row hrow fence hfence
    obtain ⟨hne, hold⟩ := hrows hrow
    exact (h.current key' row hold fence hfence).append fun heq => hne heq.symm

theorem get_dropTag (hrow : (s.dropTag tag).cache.get key = some row) :
    row.tagEpochs.has tag = false ∧ s.cache.get key = some row := by
  unfold dropTag at hrow
  simp only at hrow
  rw [InsertionMap.get_foldl_delete (f := Prod.fst)] at hrow
  split_ifs at hrow with hgone
  refine ⟨Bool.eq_false_iff.mpr fun hhas => hgone ⟨(key, row), ?_, rfl⟩, hrow⟩
  exact List.mem_filter.mpr ⟨InsertionMap.get_eq_some_iff.mp hrow, hhas⟩

theorem size_foldl_delete_le {V α : Type} {f : α → JSString} {l : List α}
    {m : InsertionMap JSString V} : (l.foldl (fun m x => m.delete (f x)) m).size ≤ m.size := by
  induction l generalizing m with
  | nil => exact le_rfl
  | cons x l ih => exact ih.trans size_delete_le

theorem invalidateTag_eq (htag : s.invalidateTag tag uuid = .ok t) :
    t = (({ s with tagEpoch := s.tagEpoch.set tag uuid }.markTag tag).dropTag tag).pruneTagEpochs := by
  unfold invalidateTag at htag
  cases hnormal : normalizeTag tag with
  | error =>
    rw [hnormal] at htag
    cases htag
  | ok tag' =>
    rw [hnormal] at htag
    obtain rfl := eq_of_normalizeTag hnormal
    exact (Except.ok.inj htag).symm

theorem row_of_invalidateTag (htag : s.invalidateTag tag uuid = .ok t)
    (hrow : t.cache.get key = some row) :
    row.tagEpochs.has tag = false ∧ s.cache.get key = some row := by
  rw [invalidateTag_eq htag] at hrow
  have hdrop : (({ s with tagEpoch := s.tagEpoch.set tag uuid }.markTag tag).dropTag tag).cache.get
      key = some row := hrow
  exact get_dropTag hdrop

theorem sound_invalidateTag (h : s.Sound purges) (htag : s.invalidateTag tag uuid = .ok t) :
    t.Sound (purges ++ [.tag tag]) := by
  let marked : MemoryCacheStore B := { s with tagEpoch := s.tagEpoch.set tag uuid }.markTag tag
  have hinvalidate : t = (marked.dropTag tag).pruneTagEpochs := invalidateTag_eq htag
  have hforgets := forgets_forgetOldest s.max ((s.purgedTags.delete tag).set tag (s.order + 1)).size
    ((s.purgedTags.delete tag).set tag (s.order + 1)) s.purgeFloor
  have hrows {key : JSString} {row : Row B ℕ} (hrow : (marked.dropTag tag).cache.get key = some row) :
      tag ∉ row.value.tagList ∧ row.tagEpochs.has tag = false ∧ s.cache.get key = some row := by
    obtain ⟨hhas, hold⟩ := get_dropTag hrow
    refine ⟨fun hmem => ?_, hhas, hold⟩
    rw [(h.carried key row hold tag).mpr hmem] at hhas
    cases hhas
  have htags : Marked (purges ++ [.tag tag]) .tag marked.purgedTags marked.purgeFloor := by
    rw [h.order] at hforgets
    have hmarked := h.tagMarks.mark tag (fun _ _ => Purge.tag.inj) hforgets
    simpa only [marked, markTag, h.order] using hmarked
  have hfloor := htags.floor_le
  rw [List.length_append, List.length_singleton] at hfloor
  rw [hinvalidate]
  refine Sound.narrows ?_ narrows_prune
  constructor
  · rw [List.length_append, List.length_singleton, ← h.order]
    rfl
  · exact h.keyMarks.raise nofun hforgets.floor_le hfloor
  · exact htags
  · exact size_foldl_delete_le.trans h.size
  · intro key row hrow tag' epoch hepoch
    obtain ⟨-, hhas, hold⟩ := hrows hrow
    have hne : tag' ≠ tag := by
      rintro rfl
      rw [InsertionMap.has, hepoch] at hhas
      cases hhas
    have hsame : (marked.dropTag tag).epochOf tag' = s.epochOf tag' := by
      change ((s.tagEpoch.set tag uuid).get tag').getD _ = _
      rw [InsertionMap.get_set_of_ne hne]
      rfl
    rw [hsame]
    exact h.epochs key row hold tag' epoch hepoch
  · exact fun key row hrow => h.carried key row (hrows hrow).2.2
  · intro key row hrow fence hfence
    obtain ⟨hnot, -, hold⟩ := hrows hrow
    exact (h.current key row hold fence hfence).append hnot

inductive StoreCall (B : Type)
  | get (key : JSString)
  | set (key : JSString) (value : CachedResponse B ℕ)
  | delete (key : JSString)
  | invalidateTag (tag uuid : JSString)

def StoreCall.purge : StoreCall B → Option Purge
  | .get _ | .set _ _ => none
  | .delete key => some (.path key)
  | .invalidateTag tag _ => if isTag tag then some (.tag tag) else none

/-- The store after a call; a call that throws changes nothing. -/
def call (s : MemoryCacheStore B) : StoreCall B → MemoryCacheStore B
  | .get key => (s.get key).1
  | .set key value => (s.set key value).toOption.getD s
  | .delete key => s.delete key
  | .invalidateTag tag uuid => (s.invalidateTag tag uuid).toOption.getD s

def run (s : MemoryCacheStore B) (calls : List (StoreCall B)) : MemoryCacheStore B :=
  calls.foldl call s

theorem max_call (s : MemoryCacheStore B) (c : StoreCall B) : (s.call c).max = s.max := by
  cases c with
  | get key =>
    unfold call get
    dsimp only
    split
    · rfl
    · split_ifs <;> rfl
  | set key value =>
    unfold call
    dsimp only
    cases hset : s.set key value with
    | error => rfl
    | ok t =>
      obtain ⟨-, -, ⟨-, -, -, rfl⟩ | ⟨-, rfl⟩⟩ := set_cases hset
      · rfl
      · rfl
  | delete key => rfl
  | invalidateTag tag uuid =>
    unfold call
    dsimp only
    cases htag : s.invalidateTag tag uuid with
    | error => rfl
    | ok t =>
      rw [invalidateTag_eq htag]
      rfl

theorem Sound.call (h : s.Sound purges) (c : StoreCall B) :
    (s.call c).Sound (purges ++ c.purge.toList) := by
  cases c with
  | get key =>
    rw [StoreCall.purge, Option.toList_none, List.append_nil]
    exact sound_get h
  | set key value =>
    rw [StoreCall.purge, Option.toList_none, List.append_nil, MemoryCacheStore.call]
    cases hset : s.set key value with
    | error => exact h
    | ok t => exact sound_set h hset
  | delete key => exact sound_delete h
  | invalidateTag tag uuid =>
    rw [StoreCall.purge, MemoryCacheStore.call]
    cases htag : s.invalidateTag tag uuid with
    | error =>
      have hnot : ¬isTag tag = true := fun hvalid => by
        rw [invalidateTag, normalizeTag, if_pos hvalid] at htag
        cases htag
      rw [if_neg hnot, Option.toList_none, List.append_nil]
      exact h
    | ok t =>
      have hvalid : isTag tag = true := by
        by_contra hnot
        rw [invalidateTag, normalizeTag, if_neg hnot] at htag
        cases htag
      rw [if_pos hvalid]
      exact sound_invalidateTag h htag

theorem Sound.run (h : s.Sound purges) (calls : List (StoreCall B)) :
    (s.run calls).Sound (purges ++ calls.filterMap StoreCall.purge) ∧ (s.run calls).max = s.max := by
  induction calls generalizing s purges with
  | nil => exact ⟨by rwa [List.filterMap_nil, List.append_nil], rfl⟩
  | cons c calls ih =>
    obtain ⟨hsound, hmax⟩ := ih (h.call c)
    have hpurges : (c :: calls).filterMap StoreCall.purge =
        c.purge.toList ++ calls.filterMap StoreCall.purge := by
      cases hpurge : c.purge with
      | none => exact List.filterMap_cons_none hpurge
      | some purge => exact List.filterMap_cons_some hpurge
    rw [hpurges, ← List.append_assoc]
    exact ⟨hsound, hmax.trans (max_call s c)⟩

theorem get_insert_self (h : 0 < s.max) :
    (s.insert key value tags).cache.get key = some (s.rowOf value tags) := by
  change (evictOldest s.max _ _).get key = _
  rw [InsertionMap.get_eq_some_iff, entries_evictOldest le_rfl, InsertionMap.size,
    InsertionMap.entries_set_delete, List.length_append, List.length_singleton,
    List.drop_append_of_le_length (by omega)]
  exact List.mem_append_right _ List.mem_cons_self

theorem not_purgedAfter_order (h : s.Sound purges) : s.purgedAfter key tags s.order = false := by
  have hle {kind : JSString → Purge} {marks : InsertionMap JSString ℕ} {name : JSString}
      (hmarked : Marked purges kind marks s.purgeFloor) :
      ¬s.order < (marks.get name).getD s.purgeFloor := by
    rw [h.order, not_lt]
    cases hmark : marks.get name with
    | none => exact hmarked.floor_le
    | some mark => exact hmarked.le_length hmark
  rw [purgedAfter, decide_eq_false (hle h.keyMarks), Bool.false_or, List.any_eq_false]
  intro tag _
  rw [decide_eq_true_eq]
  exact hle h.tagMarks

/-- A page whose fence was taken after `before` is kept if it is stored at once, and is never read
after one of the calls that follow has purged its key or one of its tags. -/
theorem purged_never_served {max : ℕ} (hcreate : create max = .ok s)
    (before after : List (StoreCall B)) (key : JSString) (value : CachedResponse B ℕ)
    (hfence : value.fence = some (s.run before).fence) :
    (s.run (before ++ after)).cache.size ≤ max ∧
      (∀ t, (s.run before).set key value = .ok t → ∃ kept, (t.get key).2 = some kept ∧
        kept.body = value.body ∧ kept.fence = value.fence) ∧
      (((s.run (before ++ after)).get key).2 = some value →
        ∀ c ∈ after, ∀ purge ∈ c.purge, ¬purge.touches key value.tagList) := by
  have hmax : s.max = max ∧ 0 < max := by
    unfold create at hcreate
    split_ifs at hcreate with hvalid
    obtain rfl := Except.ok.inj hcreate
    exact ⟨rfl, of_decide_eq_true (Bool.and_eq_true_iff.mp hvalid).2⟩
  obtain ⟨hbefore, hbeforeMax⟩ := (sound_create hcreate).run before
  obtain ⟨hafter, hafterMax⟩ := (sound_create hcreate).run (before ++ after)
  rw [List.nil_append] at hbefore hafter
  refine ⟨?_, fun t hset => ?_, fun hget c hc purge hpurge htouches => ?_⟩
  · have hsize := hafter.size
    rwa [hafterMax, hmax.1] at hsize
  · obtain ⟨tags, -, ⟨fence, hsome, hrefused, -⟩ | ⟨-, ht⟩⟩ := set_cases hset
    · obtain rfl := Option.some.inj (hfence.symm.trans hsome)
      have hcurrent : (s.run before).purgedAfter key tags (s.run before).order = false :=
        not_purgedAfter_order hbefore
      exact absurd hrefused (Bool.eq_false_iff.mp hcurrent)
    · have hrow : t.cache.get key = some ((s.run before).rowOf value tags) := by
        rw [ht]
        refine get_insert_self ?_
        rw [hbeforeMax, hmax.1]
        exact hmax.2
      exact ⟨_, (get_eq_some_of_sound (sound_set hbefore hset)).mpr ⟨_, hrow, rfl⟩,
        value_rowOf.2, value_rowOf.1⟩
  · obtain ⟨row, hrow, rfl⟩ := (get_eq_some_of_sound hafter).mp hget
    obtain ⟨i, hi, hcall⟩ := List.mem_iff_getElem.mp
      (List.mem_filterMap.mpr ⟨c, hc, Option.mem_def.mp hpurge⟩)
    have hlt := hafter.current key row hrow _ hfence
      ((before.filterMap StoreCall.purge).length + i) purge ?_ htouches
    · rw [fence, hbefore.order] at hlt
      omega
    · rw [List.filterMap_append, List.getElem?_append_right (Nat.le_add_right _ _),
        Nat.add_sub_cancel_left, List.getElem?_eq_getElem hi, hcall]

theorem purged_never_served_post :
    let page : CachedResponse ℕ ℕ := ⟨7, 200, [], 0, 60, some [js "post"], some 0⟩
    let s : MemoryCacheStore ℕ := ⟨∅, 2, ∅, 0, ∅, ∅, 0⟩
    ((s.run [.set (js "/") page, .invalidateTag (js "post") []]).get (js "/")).2 ≠ some page :=
  fun hget => (@purged_never_served ℕ _ 2 rfl [] _ (js "/") _ rfl).2.2 hget
    (.invalidateTag (js "post") []) (by simp) (.tag (js "post")) rfl List.mem_cons_self

end MemoryCacheStore

end Nifra.Isr
