import Mathlib.Algebra.Order.Ring.Rat
import Mathlib.Data.Finset.Card
import Nifra.Lib.InsertionMap
import Nifra.Text.JSString

/-! # The page store in memory

Pages by key, the least recently used first, with the purges of keys and tags in their order. The
marks of the latest purges are kept, and a floor stands for the marks that are not.
-/

namespace Nifra.Isr

/-- `storedAt` and `revalidate` are in milliseconds, and a fence is a point in the purge order. -/
structure CachedResponse (B F : Type) where
  body : B
  status : ℕ
  headers : List (JSString × JSString)
  storedAt : ℚ
  revalidate : ℚ
  tags : Option (List JSString)
  fence : Option F

def maxIsrTags : ℕ := 32

def isTagLetter (unit : ℕ) : Bool := (65 ≤ unit && unit ≤ 90) || (97 ≤ unit && unit ≤ 122)

def isTagUnit (unit : ℕ) : Bool :=
  isTagLetter unit || (48 ≤ unit && unit ≤ 57) || unit ∈ js "._:/-"

/-- `ISR_TAG_PATTERN`: a letter and at most 127 of its units. -/
def isTag : JSString → Bool
  | [] => false
  | first :: rest => isTagLetter first && rest.all isTagUnit && rest.length ≤ 127

def normalizeTag (tag : JSString) : Except JSError JSString :=
  if isTag tag then .ok tag
  else .error (.typeError "[nifra/web] ISR tag must be a bounded token")

def normalizeTags : Option (List JSString) → Except JSError (List JSString)
  | none => .ok []
  | some tags =>
    if maxIsrTags < tags.length then
      .error (.typeError "[nifra/web] ISR tags must contain at most 32 bounded tokens")
    else do
      let tags ← tags.mapM normalizeTag
      .ok (tags.foldl (fun unique tag => unique.set tag ()) (∅ : InsertionMap JSString Unit)).keys

/-- An entry, with the epochs that its tags had when it was stored. -/
structure Row (B F : Type) where
  value : CachedResponse B F
  tagEpochs : InsertionMap JSString JSString

structure MemoryCacheStore (B : Type) where
  cache : InsertionMap JSString (Row B ℕ)
  max : ℕ
  tagEpoch : InsertionMap JSString JSString
  order : ℕ
  purgedKeys : InsertionMap JSString ℕ
  purgedTags : InsertionMap JSString ℕ
  purgeFloor : ℕ

/-- The oldest entries go while there are more than `max`. -/
def evictOldest {V : Type} (max : ℕ) : ℕ → InsertionMap JSString V → InsertionMap JSString V
  | 0, entries => entries
  | fuel + 1, entries =>
    if entries.size ≤ max then entries
    else match entries.entries with
      | [] => entries
      | oldest :: _ => evictOldest max fuel (entries.delete oldest.1)

/-- The oldest marks go while there are more than `max`, and the floor rises to them. -/
def forgetOldest (max : ℕ) : ℕ → InsertionMap JSString ℕ → ℕ → InsertionMap JSString ℕ × ℕ
  | 0, marks, floor => (marks, floor)
  | fuel + 1, marks, floor =>
    if marks.size ≤ max then (marks, floor)
    else match marks.entries with
      | [] => (marks, floor)
      | oldest :: _ => forgetOldest max fuel (marks.delete oldest.1) (Nat.max floor oldest.2)

namespace MemoryCacheStore
variable {B : Type} (store : MemoryCacheStore B)

def create (max : ℕ) : Except JSError (MemoryCacheStore B) :=
  if isSafeInteger max && 0 < max then .ok ⟨∅, max, ∅, 0, ∅, ∅, 0⟩
  else .error (.rangeError "[nifra/web] MemoryCacheStore max must be a positive safe integer")

def epochOf (tag : JSString) : JSString := (store.tagEpoch.get tag).getD (js "0")

def pruneTagEpochs : MemoryCacheStore B :=
  { store with
    tagEpoch := (store.tagEpoch.keys.filter fun tag =>
      !store.cache.values.any fun row => row.tagEpochs.has tag).foldl (·.delete ·) store.tagEpoch }

/-- A row with an epoch that has passed is a miss; a hit is the most recently used. -/
def get (key : JSString) : MemoryCacheStore B × Option (CachedResponse B ℕ) :=
  match store.cache.get key with
  | none => (store, none)
  | some row =>
    if row.tagEpochs.entries.any fun entry => store.epochOf entry.1 ≠ entry.2 then
      ({ store with cache := store.cache.delete key }.pruneTagEpochs, none)
    else ({ store with cache := (store.cache.delete key).set key row }, some row.value)

def fence : ℕ := store.order

/-- The key or one of the tags was purged after the fence, or may have been. -/
def purgedAfter (key : JSString) (tags : List JSString) (fence : ℕ) : Bool :=
  decide (fence < (store.purgedKeys.get key).getD store.purgeFloor) ||
    tags.any fun tag => decide (fence < (store.purgedTags.get tag).getD store.purgeFloor)

def rowOf (value : CachedResponse B ℕ) (tags : List JSString) : Row B ℕ where
  value := if tags = [] then value else { value with tags := some tags }
  tagEpochs := tags.foldl (fun epochs tag => epochs.set tag (store.epochOf tag))
    (∅ : InsertionMap JSString JSString)

def insert (key : JSString) (value : CachedResponse B ℕ) (tags : List JSString) :
    MemoryCacheStore B :=
  let cache := (store.cache.delete key).set key (store.rowOf value tags)
  { store with cache := evictOldest store.max cache.size cache }.pruneTagEpochs

def set (key : JSString) (value : CachedResponse B ℕ) : Except JSError (MemoryCacheStore B) := do
  let tags ← normalizeTags value.tags
  if value.fence.any (store.purgedAfter key tags) then .ok store
  else .ok (store.insert key value tags)

def markKey (key : JSString) : MemoryCacheStore B :=
  let marks := (store.purgedKeys.delete key).set key (store.order + 1)
  let (marks, floor) := forgetOldest store.max marks.size marks store.purgeFloor
  { store with
    order := store.order + 1,
    purgedKeys := marks,
    purgeFloor := floor }

def markTag (tag : JSString) : MemoryCacheStore B :=
  let marks := (store.purgedTags.delete tag).set tag (store.order + 1)
  let (marks, floor) := forgetOldest store.max marks.size marks store.purgeFloor
  { store with
    order := store.order + 1,
    purgedTags := marks,
    purgeFloor := floor }

def delete (key : JSString) : MemoryCacheStore B :=
  ({ store with cache := store.cache.delete key }.markKey key).pruneTagEpochs

def dropTag (tag : JSString) : MemoryCacheStore B :=
  { store with
    cache := (store.cache.entries.filter fun entry => entry.2.tagEpochs.has tag).foldl
      (fun cache entry => cache.delete entry.1) store.cache }

def invalidateTag (tag uuid : JSString) : Except JSError (MemoryCacheStore B) := do
  let tag ← normalizeTag tag
  .ok ((({ store with tagEpoch := store.tagEpoch.set tag uuid }.markTag tag).dropTag
    tag).pruneTagEpochs)

end MemoryCacheStore

/-! ## The order of purges

The store in memory against the list of the purges it has made. A purge that is not marked any more is
below the floor, and no row is older than a purge of its key or of one of its tags.
-/

inductive Purge
  | path (key : JSString)
  | tag (tag : JSString)
  deriving DecidableEq, Repr

def Purge.touches : Purge → JSString → List JSString → Prop
  | .path purged, key, _ => purged = key
  | .tag purged, _, tags => purged ∈ tags

/-- Every purge that touches the key or the tags came before this point of the order. -/
def CurrentAt (purges : List Purge) (key : JSString) (tags : List JSString) (point : ℕ) : Prop :=
  ∀ (i : ℕ) (purge : Purge), purges[i]? = some purge → purge.touches key tags → i < point

theorem CurrentAt.append {purges : List Purge} {key : JSString} {tags : List JSString} {point : ℕ}
    {purge : Purge} (h : CurrentAt purges key tags point) (hnot : ¬purge.touches key tags) :
    CurrentAt (purges ++ [purge]) key tags point := by
  intro i other hother htouches
  rw [List.getElem?_append] at hother
  split_ifs at hother
  · exact h i other hother htouches
  · rw [List.getElem?_singleton] at hother
    split_ifs at hother
    obtain rfl := Option.some.inj hother
    exact absurd htouches hnot

section Oldest
variable {V : Type} {max fuel : ℕ} {m : InsertionMap JSString V} {name : JSString} {v : V}

theorem entries_evictOldest (h : m.size ≤ fuel) :
    (evictOldest max fuel m).entries = m.entries.drop (m.size - max) := by
  induction fuel generalizing m with
  | zero =>
    have hnil : m.entries = [] := List.length_eq_zero_iff.mp (Nat.le_zero.mp h)
    rw [evictOldest, hnil, List.drop_nil]
  | succ fuel ih =>
    simp only [evictOldest]
    split_ifs with hsize
    · rw [Nat.sub_eq_zero_of_le hsize, List.drop_zero]
    · split
      · next hnil => rw [hnil, List.drop_nil]
      · next oldest rest hentries =>
        have hdelete : (m.delete oldest.1).entries = rest :=
          InsertionMap.entries_delete_head hentries
        have hrest : (m.delete oldest.1).size + 1 = m.size := by
          rw [InsertionMap.size, hdelete, InsertionMap.size, hentries, List.length_cons]
        have hdrop : m.size - max = (m.delete oldest.1).size - max + 1 := by omega
        rw [ih (by omega), hdelete, hentries, hdrop, List.drop_succ_cons]

theorem get_of_get_evictOldest (h : m.size ≤ fuel)
    (hget : (evictOldest max fuel m).get name = some v) : m.get name = some v := by
  rw [InsertionMap.get_eq_some_iff] at hget ⊢
  rw [entries_evictOldest h] at hget
  exact List.mem_of_mem_drop hget

theorem size_evictOldest (h : m.size ≤ fuel) : (evictOldest max fuel m).size ≤ max := by
  have hsize : (evictOldest max fuel m).size = m.size - (m.size - max) := by
    rw [InsertionMap.size, entries_evictOldest h, List.length_drop]
    rfl
  omega

end Oldest

/-- What forgetting marks leaves: a floor above the marks that are gone. -/
structure Forgets (marks : InsertionMap JSString ℕ) (floor : ℕ) (marks' : InsertionMap JSString ℕ)
    (floor' : ℕ) : Prop where
  floor_le : floor ≤ floor'
  kept : ∀ name mark, marks'.get name = some mark → marks.get name = some mark
  covered : ∀ name mark, marks.get name = some mark → mark ≤ (marks'.get name).getD floor'
  bounded : ∀ bound, floor ≤ bound → (∀ name mark, marks.get name = some mark → mark ≤ bound) →
    floor' ≤ bound

theorem Forgets.refl {marks : InsertionMap JSString ℕ} {floor : ℕ} :
    Forgets marks floor marks floor :=
  ⟨le_rfl, fun _ _ h => h, fun _ _ h => by rw [h, Option.getD_some], fun _ h _ => h⟩

theorem forgets_forgetOldest (max fuel : ℕ) (marks : InsertionMap JSString ℕ) (floor : ℕ) :
    Forgets marks floor (forgetOldest max fuel marks floor).1 (forgetOldest max fuel marks floor).2 := by
  induction fuel generalizing marks floor with
  | zero => exact .refl
  | succ fuel ih =>
    simp only [forgetOldest]
    split_ifs
    · exact .refl
    · split
      · exact .refl
      · next oldest rest hentries =>
        have holdest : marks.get oldest.1 = some oldest.2 :=
          InsertionMap.get_eq_some_iff.mpr (hentries ▸ List.mem_cons_self)
        have hrest := ih (marks.delete oldest.1) (Nat.max floor oldest.2)
        constructor
        · exact (Nat.le_max_left _ _).trans hrest.floor_le
        · intro name mark hmark
          have hkept := hrest.kept name mark hmark
          rw [InsertionMap.get_delete] at hkept
          split_ifs at hkept
          exact hkept
        · intro name mark hmark
          by_cases hname : name = oldest.1
          · subst hname
            obtain rfl := Option.some.inj (holdest.symm.trans hmark)
            have hfloor := (Nat.le_max_right floor oldest.2).trans hrest.floor_le
            cases hafter : (forgetOldest max fuel (marks.delete oldest.1)
              (Nat.max floor oldest.2)).1.get oldest.1 with
            | none => exact hfloor
            | some mark =>
              have hkept := hrest.kept _ _ hafter
              rw [InsertionMap.get_delete, if_pos rfl] at hkept
              cases hkept
          · refine hrest.covered name mark ?_
            rw [InsertionMap.get_delete, if_neg hname, hmark]
        · intro bound hfloor hmarks
          refine hrest.bounded bound (Nat.max_le.mpr ⟨hfloor, hmarks _ _ holdest⟩) ?_
          intro name mark hmark
          rw [InsertionMap.get_delete] at hmark
          split_ifs at hmark
          exact hmarks name mark hmark

/-- The marks of one kind of purge, against the purges that were made. -/
structure Marked (purges : List Purge) (kind : JSString → Purge) (marks : InsertionMap JSString ℕ)
    (floor : ℕ) : Prop where
  covered : ∀ (i : ℕ) (name : JSString), purges[i]? = some (kind name) →
    i < (marks.get name).getD floor
  made : ∀ name mark, marks.get name = some mark →
    ∃ i, mark = i + 1 ∧ purges[i]? = some (kind name)
  floor_le : floor ≤ purges.length

theorem Marked.nil (kind : JSString → Purge) : Marked [] kind ∅ 0 := by
  constructor
  · intro i name hpurge
    rw [List.getElem?_nil] at hpurge
    cases hpurge
  · exact nofun
  · exact le_rfl

theorem Marked.le_length {purges : List Purge} {kind : JSString → Purge}
    {marks : InsertionMap JSString ℕ} {floor : ℕ} (h : Marked purges kind marks floor) {name : JSString}
    {mark : ℕ} (hmark : marks.get name = some mark) : mark ≤ purges.length := by
  obtain ⟨i, rfl, hpurge⟩ := h.made name mark hmark
  exact (List.getElem?_eq_some_iff.mp hpurge).1

theorem getElem?_append_lt {purges : List Purge} {purge purge' : Purge} {i : ℕ}
    (h : purges[i]? = some purge) : (purges ++ [purge'])[i]? = some purge :=
  (List.getElem?_append_left (List.getElem?_eq_some_iff.mp h).1).trans h

theorem Marked.mark {purges : List Purge} {kind : JSString → Purge}
    {marks marks' : InsertionMap JSString ℕ} {floor floor' : ℕ} (name : JSString)
    (h : Marked purges kind marks floor) (hinj : ∀ name name', kind name = kind name' → name = name')
    (hforgets : Forgets ((marks.delete name).set name (purges.length + 1)) floor marks' floor') :
    Marked (purges ++ [kind name]) kind marks' floor' := by
  have hget (other : JSString) : ((marks.delete name).set name (purges.length + 1)).get other =
      if other = name then some (purges.length + 1) else marks.get other :=
    InsertionMap.get_set_delete
  constructor
  · intro i other hpurge
    have hmark : ∃ mark, i < mark ∧
        (((marks.delete name).set name (purges.length + 1)).get other = some mark ∨
          (((marks.delete name).set name (purges.length + 1)).get other = none ∧ mark = floor)) := by
      rw [hget]
      by_cases hother : other = name
      · rw [if_pos hother]
        have hlt := (List.getElem?_eq_some_iff.mp hpurge).1
        rw [List.length_append, List.length_singleton] at hlt
        exact ⟨_, hlt, Or.inl rfl⟩
      · rw [if_neg hother]
        rw [List.getElem?_append] at hpurge
        split_ifs at hpurge
        · have hcovered := h.covered i other hpurge
          cases hmark : marks.get other with
          | none =>
            rw [hmark] at hcovered
            exact ⟨floor, hcovered, Or.inr ⟨rfl, rfl⟩⟩
          | some mark =>
            rw [hmark] at hcovered
            exact ⟨mark, hcovered, Or.inl rfl⟩
        · rw [List.getElem?_singleton] at hpurge
          split_ifs at hpurge
          exact absurd (hinj _ _ (Option.some.inj hpurge)).symm hother
    obtain ⟨mark, hlt, hmark | ⟨hnone, rfl⟩⟩ := hmark
    · exact hlt.trans_le (hforgets.covered other mark hmark)
    · cases hafter : marks'.get other with
      | none => exact hlt.trans_le hforgets.floor_le
      | some mark =>
        rw [hforgets.kept other mark hafter] at hnone
        cases hnone
  · intro other mark hmark
    have hkept := hforgets.kept other mark hmark
    rw [hget] at hkept
    split_ifs at hkept with hother
    · obtain rfl := Option.some.inj hkept
      exact ⟨purges.length, rfl, hother ▸ List.getElem?_concat_length⟩
    · obtain ⟨i, hi, hpurge⟩ := h.made other mark hkept
      exact ⟨i, hi, getElem?_append_lt hpurge⟩
  · rw [List.length_append, List.length_singleton]
    refine hforgets.bounded _ (h.floor_le.trans (Nat.le_succ _)) fun other mark hmark => ?_
    rw [hget] at hmark
    split_ifs at hmark
    · exact (Option.some.inj hmark).ge
    · exact (h.le_length hmark).trans (Nat.le_succ _)

theorem Marked.raise {purges : List Purge} {kind : JSString → Purge} {purge : Purge}
    {marks : InsertionMap JSString ℕ} {floor floor' : ℕ} (h : Marked purges kind marks floor)
    (hother : ∀ name, kind name ≠ purge) (hle : floor ≤ floor')
    (hbound : floor' ≤ purges.length + 1) : Marked (purges ++ [purge]) kind marks floor' := by
  constructor
  · intro i name hpurge
    rw [List.getElem?_append] at hpurge
    split_ifs at hpurge
    · have hcovered := h.covered i name hpurge
      cases hmark : marks.get name with
      | none =>
        rw [hmark] at hcovered
        exact hcovered.trans_le hle
      | some mark =>
        rw [hmark] at hcovered
        exact hcovered
    · rw [List.getElem?_singleton] at hpurge
      split_ifs at hpurge
      exact absurd (Option.some.inj hpurge).symm (hother name)
  · intro name mark hmark
    obtain ⟨i, hi, hpurge⟩ := h.made name mark hmark
    exact ⟨i, hi, getElem?_append_lt hpurge⟩
  · rwa [List.length_append, List.length_singleton]

end Nifra.Isr
