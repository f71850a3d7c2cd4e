import Nifra.Router.Trie

/-! # The bounds of the match cache

The cache of matches stays within its bounds exactly as long as no path that alone exceeds them is
found twice in a row.
-/

namespace Nifra.Router

variable {T : Type} {router : Router T} {method path : JSString} {i : ℕ} {values : List JSString}

theorem terminal_setTerminal (router : Router T) (i j : ℕ) (terminal : Terminal T) :
    (router.setTerminal i terminal).terminal j = router.terminal j ∨
      j = i ∧ (router.setTerminal i terminal).terminal j = terminal := by
  rw [Router.terminal, Router.terminal, setTerminal, List.getD_eq_getElem?_getD,
    List.getElem?_set]
  split_ifs with hij hlength
  · exact Or.inr ⟨hij.symm, rfl⟩
  · left
    rw [List.getD_eq_getElem?_getD, List.getElem?_eq_none (by omega)]
  · left
    rw [List.getD_eq_getElem?_getD]

/-- Two routers with the same routes, whatever they keep of earlier answers. -/
structure SameRoutes (before after : Router T) : Prop where
  root : after.root = before.root
  staticRoutes : after.staticRoutes = before.staticRoutes
  paramNames : ∀ i, (after.terminal i).paramNames = (before.terminal i).paramNames
  handlers : ∀ i, (after.terminal i).handlers = (before.terminal i).handlers

theorem SameRoutes.refl (router : Router T) : SameRoutes router router :=
  ⟨rfl, rfl, fun _ => rfl, fun _ => rfl⟩

theorem SameRoutes.trans {first second third : Router T} (h : SameRoutes first second)
    (h' : SameRoutes second third) : SameRoutes first third where
  root := h'.root.trans h.root
  staticRoutes := h'.staticRoutes.trans h.staticRoutes
  paramNames i := (h'.paramNames i).trans (h.paramNames i)
  handlers i := (h'.handlers i).trans (h.handlers i)

theorem resolve_cases (router : Router T) (i : ℕ) (method : JSString)
    (params : InsertionMap JSString JSString) :
    (router.resolve i method params).2 = router ∨
      ∃ kept, (router.resolve i method params).2 =
        router.setTerminal i { router.terminal i with staticMatches := kept } := by
  unfold resolve
  dsimp only
  split
  · exact Or.inl rfl
  · split_ifs
    · exact Or.inl rfl
    · split
      · exact Or.inl rfl
      · exact Or.inl rfl
    · split
      · exact Or.inl rfl
      · exact Or.inr ⟨_, rfl⟩

theorem sameRoutes_resolve (router : Router T) (i : ℕ) (method : JSString)
    (params : InsertionMap JSString JSString) :
    SameRoutes router (router.resolve i method params).2 := by
  rcases resolve_cases router i method params with h | ⟨kept, h⟩
  · rw [h]
    exact .refl router
  · rw [h]
    have hterminal (j : ℕ) := terminal_setTerminal router i j
      { router.terminal i with staticMatches := kept }
    constructor
    · rfl
    · rfl
    · intro j
      rcases hterminal j with hj | ⟨rfl, hj⟩
      · rw [hj]
      · rw [hj]
    · intro j
      rcases hterminal j with hj | ⟨rfl, hj⟩
      · rw [hj]
      · rw [hj]

theorem matchCache_resolve (router : Router T) (i : ℕ) (method : JSString)
    (params : InsertionMap JSString JSString) :
    (router.resolve i method params).2.matchCache = router.matchCache := by
  rcases resolve_cases router i method params with h | ⟨kept, h⟩
  · rw [h]
  · rw [h]
    rfl

theorem sameRoutes_maybeCache (router : Router T) (path : JSString) (i : ℕ)
    (values : List JSString) : SameRoutes router (router.maybeCacheDynamicMatch path i values) := by
  unfold maybeCacheDynamicMatch
  dsimp only
  split_ifs
  · exact ⟨rfl, rfl, fun _ => rfl, fun _ => rfl⟩
  · exact ⟨rfl, rfl, fun _ => rfl, fun _ => rfl⟩

structure Dynamic (router : Router T) (path : JSString) (i : ℕ) (values : List JSString) :
    Prop where
  leading : path.head? = some 47
  dynamic : router.staticRoutes.get path = none
  walk : router.walk path true = (some i, values)
  named : (router.terminal i).paramNames ≠ []

theorem Dynamic.of_sameRoutes {after : Router T} (hsame : SameRoutes router after)
    (h : Dynamic router path i values) : Dynamic after path i values where
  leading := h.leading
  dynamic := by rw [hsame.staticRoutes, h.dynamic]
  walk := by rw [Router.walk, hsame.root, ← Router.walk, h.walk]
  named := by rw [hsame.paramNames]; exact h.named

theorem find_cases (router : Router T) (method path : JSString) :
    SameRoutes router (router.find method path).2 ∧
      ((router.find method path).2.matchCache = router.matchCache ∨
        ∃ i values, Dynamic router path i values ∧ router.cached path = none ∧
          (router.find method path).2.matchCache =
            (router.maybeCacheDynamicMatch path i values).matchCache) := by
  unfold Router.find findDynamic
  dsimp only
  split
  · next i _ =>
    exact ⟨sameRoutes_resolve router i method _, Or.inl (matchCache_resolve router i method _)⟩
  · next hstatic =>
    split
    · next entry _ =>
      exact ⟨sameRoutes_resolve router _ method _, Or.inl (matchCache_resolve router _ method _)⟩
    · next hcached =>
      split
      · exact ⟨.refl router, Or.inl rfl⟩
      · next i values hwalk =>
        split_ifs with hkeep
        · obtain ⟨hleading, hnamed⟩ := Bool.and_eq_true_iff.mp hkeep
          have hhead : path.head? = some 47 := by simpa using hleading
          rw [if_pos hleading] at hstatic hcached
          rw [hleading] at hwalk
          constructor
          · exact (sameRoutes_maybeCache router path i values).trans
              (sameRoutes_resolve _ i method _)
          · right
            exact ⟨i, values, ⟨hhead, hstatic, hwalk, by simpa using hnamed⟩, hcached,
              matchCache_resolve _ i method _⟩
        · exact ⟨sameRoutes_resolve router i method _,
            Or.inl (matchCache_resolve router i method _)⟩

theorem find_of_dynamic (h : Dynamic router path i values) (hcached : router.cached path = none) :
    (router.find method path).2.matchCache =
      (router.maybeCacheDynamicMatch path i values).matchCache := by
  have hlead : (path.head? == some 47) = true := by rw [h.leading]; rfl
  have hnamed : (router.terminal i).paramNames.isEmpty = false := by
    simpa using h.named
  simp only [Router.find, Router.findDynamic, hlead, if_true, h.dynamic, hcached, h.walk, hnamed,
    Bool.not_false, Bool.and_self, matchCache_resolve]

section Cache

variable {V : Type} {cache : InsertionMap JSString V} {oldest : JSString}
  {keys : List JSString} {state : DynamicMatchCacheState} {incoming : ℕ}

def totalLength (keys : List JSString) : ℤ := (keys.map fun key => (key.length : ℤ)).sum

theorem totalLength_cons (key : JSString) (keys : List JSString) :
    totalLength (key :: keys) = key.length + totalLength keys := by
  rw [totalLength, List.map_cons, List.sum_cons, ← totalLength]

theorem totalLength_append (keys keys' : List JSString) :
    totalLength (keys ++ keys') = totalLength keys + totalLength keys' := by
  rw [totalLength, List.map_append, List.sum_append, ← totalLength, ← totalLength]

theorem length_le_totalLength {key : JSString} (h : key ∈ keys) :
    (key.length : ℤ) ≤ totalLength keys := by
  apply List.single_le_sum
  · intro n hn
    obtain ⟨k, -, rfl⟩ := List.mem_map.mp hn
    omega
  · exact List.mem_map_of_mem h

/-- The bounds of the cache, with its running count of characters. -/
structure DynamicMatchCacheState.Bounded (state : DynamicMatchCacheState) : Prop where
  size : state.cache.size ≤ dynamicMatchCacheMax
  length : totalLength state.cache.keys ≤ dynamicMatchCacheChars
  chars : state.chars = totalLength state.cache.keys

/-- What the loop leaves of a cache: its last keys, few enough for a path unless none is left. -/
structure Evicted (incoming : ℕ) (before after : DynamicMatchCacheState) : Prop where
  keys : after.cache.keys <:+ before.cache.keys
  chars : after.chars = totalLength after.cache.keys
  room : after.cache.keys = [] ∨
    after.cache.size < dynamicMatchCacheMax ∧ after.chars + incoming ≤ dynamicMatchCacheChars

theorem evicted_evict (hkeys : state.cache.keys = keys)
    (hchars : state.chars = totalLength state.cache.keys) :
    Evicted incoming state (evict incoming keys state) := by
  induction keys generalizing state with
  | nil => exact ⟨List.suffix_rfl, hchars, Or.inl hkeys⟩
  | cons oldest keys ih =>
    rw [evict]
    split_ifs with hroom
    · exact ⟨List.suffix_rfl, hchars, Or.inr hroom⟩
    · have hrest : (state.cache.delete oldest).keys = keys :=
        InsertionMap.keys_delete_head hkeys
      have hfewer : state.chars - oldest.length = totalLength (state.cache.delete oldest).keys := by
        rw [hchars, hkeys, totalLength_cons, hrest]
        omega
      obtain ⟨hsuffix, hchars', hroom'⟩ := @ih { state with
        cache := state.cache.delete oldest
        chars := state.chars - oldest.length } hrest hfewer
      constructor
      · apply hsuffix.trans
        rw [hrest, hkeys]
        exact List.suffix_cons oldest keys
      · exact hchars'
      · exact hroom'

theorem bounded_set_iff {after : DynamicMatchCacheState} (entry : DynamicMatchCacheEntry)
    (h : Evicted path.length state after) (hnone : state.cache.get path = none) :
    DynamicMatchCacheState.Bounded { after with
      cache := after.cache.set path entry
      chars := after.chars + path.length } ↔ (path.length : ℤ) ≤ dynamicMatchCacheChars := by
  have hnot : path ∉ after.cache.keys :=
    fun hmem => InsertionMap.get_eq_none_iff.mp hnone (h.keys.mem hmem)
  have hkeys : (after.cache.set path entry).keys = after.cache.keys ++ [path] := by
    rw [InsertionMap.keys_set, if_neg hnot]
  constructor
  · rintro ⟨-, hlength, -⟩
    rw [hkeys] at hlength
    exact (length_le_totalLength (by simp)).trans hlength
  · intro hpath
    have hsum : totalLength (after.cache.keys ++ [path]) = after.chars + path.length := by
      rw [totalLength_append, h.chars, totalLength_cons]
      rfl
    rcases h.room with hempty | ⟨hsize, hroom⟩
    · constructor
      · rw [InsertionMap.size_eq_length_keys, hkeys, hempty]
        change 1 ≤ 2048
        decide
      · rw [hkeys, hempty, List.nil_append, totalLength_cons]
        simpa [totalLength] using hpath
      · rw [hkeys, hsum]
    · constructor
      · rw [InsertionMap.size_eq_length_keys, hkeys, List.length_append,
          ← InsertionMap.size_eq_length_keys]
        exact hsize
      · rw [hkeys, hsum]
        exact hroom
      · rw [hkeys, hsum]

end Cache

theorem pendingPath_evict (incoming : ℕ) (keys : List JSString) (state : DynamicMatchCacheState) :
    (evict incoming keys state).pendingPath = state.pendingPath := by
  induction keys generalizing state with
  | nil => rfl
  | cons oldest keys ih =>
    rw [evict]
    split_ifs
    · rfl
    · rw [ih]

theorem pendingPath_maybeCache (router : Router T) (path : JSString) (i : ℕ)
    (values : List JSString) :
    (router.maybeCacheDynamicMatch path i values).matchCache.bind
      DynamicMatchCacheState.pendingPath = some path := by
  unfold maybeCacheDynamicMatch
  dsimp only
  split_ifs with h
  · rfl
  · rw [Option.bind_some, pendingPath_evict]
    exact not_not.mp h

def Bounded (router : Router T) : Prop :=
  ∀ state, router.matchCache = some state → state.Bounded

inductive Call (T : Type)
  | add (method : JSString) (pattern : RoutePattern) (payload : T)
  | find (method path : JSString)

def Call.run (nfc toUpperCase : JSString → JSString) (router : Router T) : Call T → Router T
  | .add method pattern payload => (router.add nfc toUpperCase method pattern payload).2
  | .find method path => (router.find method path).2

def afterCalls (nfc toUpperCase : JSString → JSString) (calls : List (Call T)) : Router T :=
  calls.foldl (Call.run nfc toUpperCase) Router.new

/-- The path of a call has room in an empty cache, or is not the one that was walked last. -/
def Short (router : Router T) : Call T → Prop
  | .add _ _ _ => True
  | .find _ path => (path.length : ℤ) ≤ dynamicMatchCacheChars ∨
      router.matchCache.bind DynamicMatchCacheState.pendingPath ≠ some path

/-- The path that is kept if it comes again is one that the trie answers. -/
def Pending (router : Router T) : Prop :=
  ∀ path, router.matchCache.bind DynamicMatchCacheState.pendingPath = some path →
    ∃ i values, Dynamic router path i values

theorem matchCache_register {after : Router T} {upper : JSString}
    {compiled : CompiledRoutePattern} {payload : T}
    (h : router.register upper compiled payload = .ok after) :
    after.matchCache = router.matchCache := by
  unfold register at h
  dsimp only at h
  split at h
  · split_ifs at h
    · obtain rfl := Except.ok.inj h
      rfl
    · obtain rfl := Except.ok.inj h
      rfl
  · obtain rfl := Except.ok.inj h
    split_ifs
    · rfl
    · rfl

theorem matchCache_add (nfc toUpperCase : JSString → JSString) (router : Router T)
    (method : JSString) (pattern : RoutePattern) (payload : T) :
    (router.add nfc toUpperCase method pattern payload).2.matchCache = none := by
  unfold Router.add
  dsimp only
  split
  · rfl
  · next after h =>
    split_ifs at h
    cases hcompiled : pattern.compile nfc with
    | error error =>
      rw [hcompiled] at h
      cases h
    | ok compiled =>
      rw [hcompiled] at h
      exact matchCache_register h

variable {nfc toUpperCase : JSString → JSString}

theorem pending_run (h : Pending router) (call : Call T) :
    Pending (call.run nfc toUpperCase router) := by
  cases call with
  | add method pattern payload =>
    intro path hpath
    rw [Call.run, matchCache_add] at hpath
    cases hpath
  | find method path =>
    obtain ⟨hsame, hcache⟩ := find_cases router method path
    intro pending hpending
    rw [Call.run] at hpending
    rcases hcache with hcache | ⟨i, values, hdynamic, -, hcache⟩
    · rw [hcache] at hpending
      obtain ⟨i, values, hdynamic⟩ := h pending hpending
      exact ⟨i, values, hdynamic.of_sameRoutes hsame⟩
    · rw [hcache, pendingPath_maybeCache] at hpending
      obtain rfl := Option.some.inj hpending
      exact ⟨i, values, hdynamic.of_sameRoutes hsame⟩

theorem bounded_getD (h : Bounded router) : (router.matchCache.getD ⟨∅, 0, none⟩).Bounded := by
  cases hcache : router.matchCache with
  | none => exact ⟨Nat.zero_le _, by decide, rfl⟩
  | some state => exact h state hcache

/-- A path that is walked through parameters keeps the cache within its bounds exactly when it is
not the one that was walked last, or has room in an empty cache. -/
theorem bounded_maybeCache_iff (h : Bounded router) (hcached : router.cached path = none) :
    Bounded (router.maybeCacheDynamicMatch path i values) ↔
      ((path.length : ℤ) ≤ dynamicMatchCacheChars ∨
        router.matchCache.bind DynamicMatchCacheState.pendingPath ≠ some path) := by
  have hbounded := bounded_getD h
  have hpending : (router.matchCache.getD ⟨∅, 0, none⟩).pendingPath =
      router.matchCache.bind DynamicMatchCacheState.pendingPath := by
    cases router.matchCache <;> rfl
  have hnone : (router.matchCache.getD ⟨∅, 0, none⟩).cache.get path = none := by
    rw [cached] at hcached
    cases hcache : router.matchCache with
    | none => rfl
    | some state =>
      rw [hcache] at hcached
      exact hcached
  unfold maybeCacheDynamicMatch
  dsimp only
  rw [hpending]
  split_ifs with hpath
  · constructor
    · exact fun _ => Or.inr hpath
    · rintro - state hstate
      obtain rfl := Option.some.inj hstate
      exact ⟨hbounded.size, hbounded.length, hbounded.chars⟩
  · have hevicted : Evicted path.length (router.matchCache.getD ⟨∅, 0, none⟩) _ :=
      evicted_evict rfl hbounded.chars
    have hiff := bounded_set_iff ⟨i, values.take (router.terminal i).paramNames.length⟩ hevicted
      hnone
    constructor
    · intro hafter
      exact Or.inl (hiff.mp (hafter _ rfl))
    · rintro (hshort | hne) state hstate
      · obtain rfl := Option.some.inj hstate
        exact hiff.mpr hshort
      · exact absurd hne hpath

theorem bounded_run {call : Call T} (h : Bounded router) (hshort : Short router call) :
    Bounded (call.run nfc toUpperCase router) := by
  cases call with
  | add method pattern payload =>
    intro state hstate
    rw [Call.run, matchCache_add] at hstate
    cases hstate
  | find method path =>
    obtain ⟨-, hcache⟩ := find_cases router method path
    rcases hcache with hcache | ⟨i, values, -, hcached, hcache⟩
    · intro state hstate
      exact h state (hcache ▸ hstate)
    · intro state hstate
      exact (bounded_maybeCache_iff h hcached).mpr hshort state (hcache ▸ hstate)

theorem cached_eq_none (h : Bounded router) (hlong : dynamicMatchCacheChars < path.length) :
    router.cached path = none := by
  by_contra hcached
  obtain ⟨entry, hentry⟩ := Option.ne_none_iff_exists'.mp hcached
  obtain ⟨state, hstate, hget⟩ := Option.bind_eq_some_iff.mp hentry
  have hmem : path ∈ state.cache.keys := InsertionMap.mem_keys_iff.mpr ⟨entry, hget⟩
  have hlength := (h state hstate).length
  have hle := length_le_totalLength hmem
  omega

theorem not_bounded_run {call : Call T} (h : Bounded router) (hpending : Pending router)
    (hshort : ¬ Short router call) : ¬ Bounded (call.run nfc toUpperCase router) := by
  cases call with
  | add method pattern payload => exact absurd trivial hshort
  | find method path =>
    rw [Short, not_or, not_le, not_not] at hshort
    obtain ⟨hlong, hpath⟩ := hshort
    have hcached := cached_eq_none h hlong
    obtain ⟨i, values, hdynamic⟩ := hpending path hpath
    intro hafter
    have hkept : Bounded (router.maybeCacheDynamicMatch path i values) := by
      intro state hstate
      apply hafter state
      rw [Call.run, find_of_dynamic hdynamic hcached, hstate]
    rcases (bounded_maybeCache_iff h hcached).mp hkept with hle | hne
    · omega
    · exact hne hpath

theorem afterCalls_append (calls : List (Call T)) (call : Call T) :
    afterCalls nfc toUpperCase (calls ++ [call]) =
      call.run nfc toUpperCase (afterCalls nfc toUpperCase calls) := by
  rw [afterCalls, List.foldl_append]
  rfl

theorem pending_afterCalls (calls : List (Call T)) : Pending (afterCalls nfc toUpperCase calls) := by
  induction calls using List.reverseRecOn with
  | nil =>
    intro path hpath
    cases hpath
  | append_singleton calls call ih =>
    rw [afterCalls_append]
    exact pending_run ih call

/-- The cache stays within its bounds throughout a run exactly when no call of it finds again a path
longer than the cache may hold. -/
theorem bounded_iff_short (nfc toUpperCase : JSString → JSString) (calls : List (Call T)) :
    (∀ made, made <+: calls → Bounded (afterCalls nfc toUpperCase made)) ↔
      ∀ made call, made ++ [call] <+: calls → Short (afterCalls nfc toUpperCase made) call := by
  constructor
  · intro h made call hmade
    by_contra hshort
    have hbefore := h made ((List.prefix_append made [call]).trans hmade)
    have hafter := h _ hmade
    rw [afterCalls_append] at hafter
    exact not_bounded_run hbefore (pending_afterCalls made) hshort hafter
  · intro h made
    induction made using List.reverseRecOn with
    | nil =>
      rintro - state hstate
      cases hstate
    | append_singleton made call ih =>
      intro hmade
      rw [afterCalls_append]
      exact bounded_run (ih ((List.prefix_append made [call]).trans hmade)) (h made call hmade)

def oneRoute : List (Call Unit) := [.add (js "GET") (.text (js "/:id")) ()]

theorem dynamic_oneRoute {value : JSString} (hslash : 47 ∉ value) (hne : value ≠ []) :
    Dynamic (afterCalls id id oneRoute) (47 :: value) 0 [value] := by
  have hroot : (afterCalls id id oneRoute).root =
      ⟨[], some ⟨[], none, [], none, some 0⟩, [], none, none⟩ := rfl
  constructor
  · rfl
  · rfl
  · rw [Router.walk, hroot, if_pos rfl, List.tail_cons, List.splitOn_eq_singleton hslash, matchNode]
    simp [hne, orElse, matchMixedChildren]
  · decide

/-- A path longer than the cache may hold is kept when it is found twice in a row. -/
theorem bounded_long_path :
    ¬ Bounded (afterCalls id id (oneRoute ++
      [.find (js "GET") (47 :: List.replicate (256 * 1024) 97),
        .find (js "GET") (47 :: List.replicate (256 * 1024) 97)])) := by
  obtain ⟨value, hvalue⟩ : ∃ value, value = List.replicate (256 * 1024) 97 := ⟨_, rfl⟩
  have hlength : value.length = 256 * 1024 := by rw [hvalue, List.length_replicate]
  have hslash : 47 ∉ value := by
    intro hmem
    rw [hvalue] at hmem
    exact absurd (List.eq_of_mem_replicate hmem) (by decide)
  have hne : value ≠ [] := by
    rintro rfl
    cases hlength
  rw [← hvalue]
  have hdynamic := dynamic_oneRoute hslash hne
  have hcalls : afterCalls id id (oneRoute ++
      [.find (js "GET") (47 :: value), .find (js "GET") (47 :: value)]) =
        (Call.find (js "GET") (47 :: value)).run id id
          ((Call.find (js "GET") (47 :: value)).run id id (afterCalls id id oneRoute)) := rfl
  have hcache : (afterCalls id id oneRoute).matchCache = none := rfl
  have hbounded : Bounded (afterCalls id id oneRoute) := by
    rintro state hstate
    rw [hcache] at hstate
    cases hstate
  rw [hcalls]
  apply not_bounded_run
  · apply bounded_run hbounded
    right
    rw [hcache]
    rintro ⟨⟩
  · exact pending_run (pending_afterCalls oneRoute) _
  · rw [Short, not_or, not_le, not_not]
    constructor
    · rw [List.length_cons, hlength]
      decide
    · rw [Call.run, find_of_dynamic hdynamic rfl, pendingPath_maybeCache]

end Nifra.Router
