import Nifra.Search.Values

/-! # What a parsed query holds

The first keys that are not forbidden, as many as the limit lets in, each with all its values; none of
them under a forbidden key at any level.
-/

namespace Nifra.Search

open JSON (Value isBlank parse readNumeral stripPrefix)
open Server (valuesOf)

variable {N : Type} (numbers : NumberText N) (limits : SearchLimits)

def keptKeys (pairs : List (JSString × JSString)) : List JSString :=
  (((pairs.map Prod.fst).filter fun key => key ∉ forbiddenKeys).eraseDups).take limits.maxKeys

def group : List (SearchValue N) → Option (SearchValue N)
  | [] => none
  | [value] => some value
  | values => some (.array values)

def decodedValues (key : JSString) (pairs : List (JSString × JSString)) : List (SearchValue N) :=
  (valuesOf key pairs).map (decodeValue numbers limits)

structure Gathered (pairs : List (JSString × JSString)) (state : ParseState N) : Prop where
  kept : state.kept = keptKeys limits pairs
  keys : state.out.keys = keptKeys limits pairs
  first : ∀ key ∈ keptKeys limits pairs,
    state.out.get key = (decodedValues numbers limits key pairs).head?
  repeated : ∀ key, state.repeated.get key =
    if key ∈ keptKeys limits pairs ∧ 2 ≤ (decodedValues numbers limits key pairs).length then
      some (decodedValues numbers limits key pairs)
    else none

variable {numbers limits} {pairs : List (JSString × JSString)} {key value : JSString}

theorem decodedValues_append {other : JSString} : decodedValues numbers limits other
    (pairs ++ [(key, value)]) = decodedValues numbers limits other pairs ++
      if key = other then [decodeValue numbers limits value] else [] := by
  rw [decodedValues, valuesOf, List.filter_append, List.map_append, List.map_append]
  congr 1
  split_ifs with h <;> simp [h]

theorem mem_of_mem_keptKeys (h : key ∈ keptKeys limits pairs) :
    key ∈ pairs.map Prod.fst ∧ key ∉ forbiddenKeys := by
  have hmem := List.mem_eraseDups.mp (List.mem_of_mem_take h)
  rw [List.mem_filter, decide_eq_true_eq] at hmem
  exact hmem

theorem mem_keptKeys_of_room (h : key ∈ pairs.map Prod.fst) (hallowed : key ∉ forbiddenKeys)
    (hroom : (keptKeys limits pairs).length < limits.maxKeys) : key ∈ keptKeys limits pairs := by
  have hmem : key ∈ ((pairs.map Prod.fst).filter fun key => key ∉ forbiddenKeys).eraseDups := by
    rw [List.mem_eraseDups, List.mem_filter]
    exact ⟨h, decide_eq_true hallowed⟩
  rw [keptKeys, List.length_take] at hroom
  rwa [keptKeys, List.take_of_length_le (by omega)]

theorem decodedValues_ne_nil (h : key ∈ pairs.map Prod.fst) :
    decodedValues numbers limits key pairs ≠ [] := by
  obtain ⟨pair, hpair, rfl⟩ := List.mem_map.mp h
  have hvalue : pair.2 ∈ valuesOf pair.1 pairs :=
    List.mem_map_of_mem (List.mem_filter.mpr ⟨hpair, by simp⟩)
  exact List.ne_nil_of_mem (List.mem_map_of_mem hvalue)

theorem decodedValues_eq_nil (h : key ∉ pairs.map Prod.fst) :
    decodedValues numbers limits key pairs = [] := by
  rw [decodedValues, List.map_eq_nil_iff, valuesOf, List.map_eq_nil_iff, List.filter_eq_nil_iff]
  intro pair hpair heq
  exact h (of_decide_eq_true heq ▸ List.mem_map_of_mem hpair)

theorem take_eraseDups_concat (l : List JSString) (x : JSString) (n : ℕ) :
    (l ++ [x]).eraseDups.take n =
      if x ∉ l.eraseDups.take n ∧ (l.eraseDups.take n).length < n then l.eraseDups.take n ++ [x]
      else l.eraseDups.take n := by
  rw [List.eraseDups_append]
  by_cases hx : x ∈ l
  · have hnone : [x].removeAll l = [] := by simp [List.removeAll, hx]
    rw [hnone, List.eraseDups_nil, List.append_nil, if_neg]
    rintro ⟨hout, hlt⟩
    rw [List.length_take] at hlt
    rw [List.take_of_length_le (by omega)] at hout
    exact hout (List.mem_eraseDups.mpr hx)
  · have hone : [x].removeAll l = [x] := by simp [List.removeAll, hx]
    have hsingle : [x].eraseDups = [x] := by simp [List.eraseDups_cons]
    have hout : x ∉ l.eraseDups.take n :=
      fun h => hx (List.mem_eraseDups.mp (List.mem_of_mem_take h))
    rw [hone, hsingle, List.length_take]
    split_ifs with hroom
    · rw [List.take_of_length_le (l := l.eraseDups) (by omega), List.take_of_length_le]
      rw [List.length_append, List.length_singleton]
      omega
    · rw [List.take_append_of_le_length]
      by_contra hlt
      exact hroom ⟨hout, by omega⟩

theorem keptKeys_append : keptKeys limits (pairs ++ [(key, value)]) =
    if key ∉ forbiddenKeys ∧ key ∉ keptKeys limits pairs ∧
        (keptKeys limits pairs).length < limits.maxKeys then keptKeys limits pairs ++ [key]
    else keptKeys limits pairs := by
  have hmap : ((pairs ++ [(key, value)]).map Prod.fst).filter (fun key => key ∉ forbiddenKeys) =
      (pairs.map Prod.fst).filter (fun key => key ∉ forbiddenKeys) ++
        if key ∈ forbiddenKeys then [] else [key] := by
    rw [List.map_append, List.filter_append]
    congr 1
    split_ifs with h <;> simp [h]
  rw [keptKeys, hmap]
  by_cases hforbidden : key ∈ forbiddenKeys
  · rw [if_pos hforbidden, List.append_nil, if_neg fun h => h.1 hforbidden, keptKeys]
  · rw [if_neg hforbidden, take_eraseDups_concat]
    simp only [hforbidden, not_false_eq_true, true_and, keptKeys]

theorem Gathered.nil : Gathered numbers limits [] ⟨∅, [], ∅⟩ := by
  have hnone : keptKeys limits [] = [] := by simp [keptKeys]
  refine ⟨hnone.symm, hnone.symm, ?_, ?_⟩
  · intro key hkey
    rw [hnone] at hkey
    cases hkey
  · intro key
    rw [hnone, if_neg fun h => by cases h.1]
    rfl

theorem decodedValues_append_self : decodedValues numbers limits key (pairs ++ [(key, value)]) =
    decodedValues numbers limits key pairs ++ [decodeValue numbers limits value] := by
  rw [decodedValues_append, if_pos rfl]

theorem decodedValues_append_of_ne {other : JSString} (h : other ≠ key) :
    decodedValues numbers limits other (pairs ++ [(key, value)]) =
      decodedValues numbers limits other pairs := by
  rw [decodedValues_append, if_neg fun heq => h heq.symm, List.append_nil]

theorem Gathered.skip {state : ParseState N} (h : Gathered numbers limits pairs state)
    (hkept : keptKeys limits (pairs ++ [(key, value)]) = keptKeys limits pairs)
    (hout : key ∉ keptKeys limits pairs) :
    Gathered numbers limits (pairs ++ [(key, value)]) state := by
  have hne : ∀ other ∈ keptKeys limits pairs, other ≠ key := by
    rintro other hother rfl
    exact hout hother
  constructor
  · rw [hkept, h.kept]
  · rw [hkept, h.keys]
  · intro other hother
    rw [hkept] at hother
    rw [decodedValues_append_of_ne (hne other hother), h.first other hother]
  · intro other
    rw [hkept, h.repeated other]
    by_cases hother : other ∈ keptKeys limits pairs
    · rw [decodedValues_append_of_ne (hne other hother)]
    · rw [if_neg fun h => hother h.1, if_neg fun h => hother h.1]

theorem Gathered.fresh {state : ParseState N} (h : Gathered numbers limits pairs state)
    (hkept : keptKeys limits (pairs ++ [(key, value)]) = keptKeys limits pairs ++ [key])
    (hout : key ∉ keptKeys limits pairs) (hnew : key ∉ pairs.map Prod.fst) :
    Gathered numbers limits (pairs ++ [(key, value)])
      { state with
        kept := state.kept ++ [key],
        out := state.out.set key (decodeValue numbers limits value) } := by
  have hvalues : decodedValues numbers limits key (pairs ++ [(key, value)]) =
      [decodeValue numbers limits value] := by
    rw [decodedValues_append_self, decodedValues_eq_nil hnew, List.nil_append]
  have hne : ∀ other ∈ keptKeys limits pairs, other ≠ key := by
    rintro other hother rfl
    exact hout hother
  constructor
  · rw [hkept, h.kept]
  · rw [hkept, InsertionMap.keys_set, h.keys, if_neg hout]
  · intro other hother
    rw [hkept, List.mem_append, List.mem_singleton] at hother
    rcases hother with hother | rfl
    · rw [InsertionMap.get_set_of_ne (hne other hother), h.first other hother,
        decodedValues_append_of_ne (hne other hother)]
    · rw [InsertionMap.get_set_self, hvalues, List.head?_cons]
  · intro other
    rw [hkept, h.repeated other]
    by_cases heq : other = key
    · subst heq
      rw [if_neg fun h => hout h.1, hvalues, if_neg fun h => by simpa using h.2]
    · simp only [decodedValues_append_of_ne heq, List.mem_append, List.mem_singleton, or_iff_left heq]

theorem Gathered.again {state : ParseState N} (h : Gathered numbers limits pairs state)
    (hkept : keptKeys limits (pairs ++ [(key, value)]) = keptKeys limits pairs)
    (hmem : key ∈ keptKeys limits pairs) :
    Gathered numbers limits (pairs ++ [(key, value)])
      { state with
        repeated := state.repeated.set key
          (decodedValues numbers limits key (pairs ++ [(key, value)])) } := by
  have hne : decodedValues numbers limits key pairs ≠ [] :=
    decodedValues_ne_nil (mem_of_mem_keptKeys hmem).1
  constructor
  · rw [hkept, h.kept]
  · rw [hkept, h.keys]
  · intro other hother
    rw [hkept] at hother
    rw [h.first other hother]
    by_cases heq : other = key
    · subst heq
      rw [decodedValues_append_self, List.head?_append_of_ne_nil _ hne]
    · rw [decodedValues_append_of_ne heq]
  · intro other
    rw [hkept, InsertionMap.get_set]
    by_cases heq : other = key
    · subst heq
      have hlength : 2 ≤ (decodedValues numbers limits other (pairs ++ [(other, value)])).length := by
        have := List.length_pos_iff.mpr hne
        rw [decodedValues_append_self, List.length_append, List.length_singleton]
        omega
      rw [if_pos rfl, if_pos ⟨hmem, hlength⟩]
    · rw [if_neg heq, decodedValues_append_of_ne heq, h.repeated other]

theorem Gathered.parsePair {state : ParseState N} (h : Gathered numbers limits pairs state) :
    Gathered numbers limits (pairs ++ [(key, value)])
      (parsePair numbers limits state (key, value)) := by
  have hkept : keptKeys limits (pairs ++ [(key, value)]) = _ := keptKeys_append
  simp only [Search.parsePair]
  by_cases hforbidden : key ∈ forbiddenKeys
  · rw [if_pos hforbidden]
    rw [if_neg fun h => h.1 hforbidden] at hkept
    exact h.skip hkept fun hmem => (mem_of_mem_keptKeys hmem).2 hforbidden
  rw [if_neg hforbidden]
  by_cases hmem : key ∈ keptKeys limits pairs
  · rw [if_pos (h.kept ▸ hmem)]
    rw [if_neg fun h => h.2.1 hmem] at hkept
    have hagain := h.again hkept hmem
    rw [decodedValues_append_self] at hagain
    have hne : decodedValues numbers limits key pairs ≠ [] :=
      decodedValues_ne_nil (mem_of_mem_keptKeys hmem).1
    by_cases htwo : 2 ≤ (decodedValues numbers limits key pairs).length
    · rw [h.repeated, if_pos ⟨hmem, htwo⟩]
      exact hagain
    · obtain ⟨first, hfirst⟩ := List.length_eq_one_iff.mp
        (by have := List.length_pos_iff.mpr hne; omega :
          (decodedValues numbers limits key pairs).length = 1)
      have hget : (state.out.get key).toList = [first] := by
        rw [h.first key hmem, hfirst]
        rfl
      rw [h.repeated, if_neg fun h => htwo h.2]
      rw [hfirst] at hagain
      simpa only [hget] using hagain
  · rw [if_neg (h.kept ▸ hmem)]
    by_cases hroom : (keptKeys limits pairs).length < limits.maxKeys
    · rw [if_pos (h.kept ▸ hroom)]
      rw [if_pos ⟨hforbidden, hmem, hroom⟩] at hkept
      have hnew : key ∉ pairs.map Prod.fst :=
        fun hold => hmem (mem_keptKeys_of_room hold hforbidden hroom)
      exact h.fresh hkept hmem hnew
    · rw [if_neg (h.kept ▸ hroom)]
      rw [if_neg fun h => hroom h.2.2] at hkept
      exact h.skip hkept hmem

theorem Gathered.foldl {state : ParseState N} (h : Gathered numbers limits pairs state)
    (more : List (JSString × JSString)) :
    Gathered numbers limits (pairs ++ more)
      (more.foldl (Search.parsePair numbers limits) state) := by
  induction more generalizing pairs state with
  | nil => simpa using h
  | cons pair more ih =>
    obtain ⟨key, value⟩ := pair
    have hone : Gathered numbers limits (pairs ++ [(key, value)]) _ := h.parsePair
    have hstep := ih hone
    rwa [List.append_assoc, List.singleton_append] at hstep

theorem paramsOf_mark {raw : JSString} (h : raw = [] ∨ raw = js "?") : paramsOf raw = [] := by
  rcases h with rfl | rfl <;> rfl

theorem keys_foldl_set {entries : List (JSString × List (SearchValue N))} {out : SearchObject N}
    (h : ∀ entry ∈ entries, entry.1 ∈ out.keys) :
    (entries.foldl (fun out entry => out.set entry.1 (.array entry.2)) out).keys = out.keys := by
  induction entries generalizing out with
  | nil => rfl
  | cons entry entries ih =>
    obtain ⟨hentry, hentries⟩ := List.forall_mem_cons.mp h
    have hkeys : (out.set entry.1 (.array entry.2)).keys = out.keys := by
      rw [InsertionMap.keys_set, if_pos hentry]
    rw [List.foldl_cons, ih fun other hother => hkeys ▸ hentries other hother, hkeys]

theorem get_foldl_set {repeated : InsertionMap JSString (List (SearchValue N))}
    {out : SearchObject N} : (repeated.entries.foldl (fun out entry => out.set entry.1
      (.array entry.2)) out).get key = (repeated.get key).elim (out.get key) (some ∘ .array) := by
  cases hget : repeated.get key with
  | some values =>
    have hmem := InsertionMap.get_eq_some_iff.mp hget
    have hsame : ∀ entry ∈ repeated.entries, entry.1 = key →
        SearchValue.array entry.2 = .array values := by
      rintro ⟨_, others⟩ hentry rfl
      rw [Option.some.inj ((InsertionMap.get_eq_some_iff.mpr hentry).symm.trans hget)]
    exact InsertionMap.get_foldl_set_of_mem hmem hsame
  | none =>
    have hout : ∀ entry ∈ repeated.entries, entry.1 ≠ key := by
      rintro ⟨_, others⟩ hentry rfl
      rw [InsertionMap.get_eq_some_iff.mpr hentry] at hget
      cases hget
    have hskip : ∀ (entries : List (JSString × List (SearchValue N))) (out : SearchObject N),
        (∀ entry ∈ entries, entry.1 ≠ key) →
        (entries.foldl (fun out entry => out.set entry.1 (.array entry.2)) out).get key =
          out.get key := by
      intro entries
      induction entries with
      | nil => exact fun _ _ => rfl
      | cons entry entries ih =>
        intro out h
        obtain ⟨hentry, hentries⟩ := List.forall_mem_cons.mp h
        rw [List.foldl_cons, ih _ hentries, InsertionMap.get_set_of_ne hentry.symm]
    exact hskip _ _ hout

theorem group_of_two_le {values : List (SearchValue N)} (h : 2 ≤ values.length) :
    group values = some (.array values) := by
  match values, h with
  | first :: second :: rest, _ => rfl

theorem group_of_lt_two {values : List (SearchValue N)} (h : ¬ 2 ≤ values.length) :
    group values = values.head? := by
  match values, h with
  | [], _ => rfl
  | [value], _ => rfl
  | _ :: _ :: _, h => simp at h

theorem parseQuery_spec (numbers : NumberText N) (limits : SearchLimits) (raw : JSString) :
    (parseQuery numbers limits raw).keys = keptKeys limits (paramsOf raw) ∧
    ∀ key, (parseQuery numbers limits raw).get key =
      if key ∈ keptKeys limits (paramsOf raw) then
        group (decodedValues numbers limits key (paramsOf raw))
      else none := by
  have hgathered : Gathered numbers limits (paramsOf raw)
      ((paramsOf raw).foldl (Search.parsePair numbers limits) ⟨∅, [], ∅⟩) :=
    Gathered.nil.foldl (paramsOf raw)
  rw [parseQuery]
  split_ifs with hmark
  · have hnone : keptKeys limits [] = [] := by simp [keptKeys]
    rw [paramsOf_mark hmark, hnone]
    exact ⟨rfl, fun key => rfl⟩
  generalize (paramsOf raw).foldl (Search.parsePair numbers limits) ⟨∅, [], ∅⟩ = state
    at hgathered
  constructor
  · rw [keys_foldl_set, hgathered.keys]
    rintro ⟨key, values⟩ hentry
    have hget := InsertionMap.get_eq_some_iff.mpr hentry
    rw [hgathered.repeated] at hget
    split_ifs at hget with hkept
    rw [hgathered.keys]
    exact hkept.1
  · intro key
    rw [get_foldl_set, hgathered.repeated]
    by_cases hkept : key ∈ keptKeys limits (paramsOf raw)
    · rw [if_pos hkept]
      by_cases htwo : 2 ≤ (decodedValues numbers limits key (paramsOf raw)).length
      · rw [if_pos ⟨hkept, htwo⟩, group_of_two_le htwo]
        rfl
      · rw [if_neg fun h => htwo h.2, group_of_lt_two htwo]
        exact hgathered.first key hkept
    · rw [if_neg fun h => hkept h.1, if_neg hkept]
      exact InsertionMap.get_eq_none_iff.mpr (hgathered.keys ▸ hkept)

end Nifra.Search
