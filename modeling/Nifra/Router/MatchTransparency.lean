import Nifra.Router.MatchCache

/-! # The caches change no answer

A router keeps the static answers of a terminal and the matches of a walk. What `find` answers is
what the static map and the trie give without either of them.
-/

namespace Nifra.Router

variable {T : Type} {router after : Router T} {method path : JSString} {i : ℕ}
  {values : List JSString} {params : InsertionMap JSString JSString}

/-- `find` without a cache. -/
def plainFind (router : Router T) (method path : JSString) : RouterMatch T :=
  let leading := path.head? == some 47
  match if leading then router.staticRoutes.get path else none with
  | some i => resolveDirect (router.terminal i) method ∅
  | none =>
    match router.walk path leading with
    | (none, _) => .notFound
    | (some i, values) =>
      resolveDirect (router.terminal i) method
        (buildParams (router.terminal i).paramNames values)

/-- What is kept of earlier answers is what would be answered anew. -/
structure Faithful (router : Router T) : Prop where
  cached : ∀ path entry, router.cached path = some entry → ∃ values,
    Dynamic router path entry.terminal values ∧
      entry.values = values.take (router.terminal entry.terminal).paramNames.length
  kept : ∀ i staticMatches, (router.terminal i).staticMatches = some staticMatches →
    ∀ method answer, staticMatches.get method = some answer →
      answer = resolveDirect (router.terminal i) method ∅

theorem resolveDirect_congr {terminal terminal' : Terminal T}
    (h : terminal.handlers = terminal'.handlers) :
    resolveDirect terminal method params = resolveDirect terminal' method params := by
  unfold resolveDirect
  rw [h]

theorem SameRoutes.plainFind (h : SameRoutes router after) (method path : JSString) :
    plainFind after method path = plainFind router method path := by
  have hterminal (i : ℕ) (params : InsertionMap JSString JSString) :
      resolveDirect (after.terminal i) method params =
        resolveDirect (router.terminal i) method params :=
    resolveDirect_congr (h.handlers i)
  simp only [Router.plainFind, walk, h.root, h.staticRoutes, h.paramNames, hterminal]

theorem buildParams_take (names values : List JSString) :
    buildParams names (values.take names.length) = buildParams names values := by
  have hname : ∀ name ∈ names.zipIdx, name.2 < names.length := fun name hname => by
    have := List.snd_lt_of_mem_zipIdx hname
    omega
  unfold buildParams
  generalize names.length = n at hname ⊢
  generalize names.zipIdx = indexed at hname ⊢
  generalize (∅ : InsertionMap JSString JSString) = params
  induction indexed generalizing params with
  | nil => rfl
  | cons entry indexed ih =>
    obtain ⟨name, i⟩ := entry
    obtain ⟨hlt, hnames⟩ := List.forall_mem_cons.mp hname
    have hvalue : (values.take n).getD i [] = values.getD i [] := by
      rw [List.getD_eq_getElem?_getD, List.getD_eq_getElem?_getD, List.getElem?_take_of_lt hlt]
    rw [List.foldl_cons, List.foldl_cons, ih hnames]
    dsimp only
    rw [hvalue]

theorem Faithful.of_sameRoutes (h : Faithful router) (hsame : SameRoutes router after)
    (hcache : after.matchCache = router.matchCache)
    (hkept : ∀ i staticMatches, (after.terminal i).staticMatches = some staticMatches →
      ∀ method answer, staticMatches.get method = some answer →
        answer = resolveDirect (router.terminal i) method ∅) : Faithful after where
  cached path entry hentry := by
    rw [Router.cached, hcache, ← Router.cached] at hentry
    obtain ⟨values, hdynamic, hvalues⟩ := h.cached path entry hentry
    exact ⟨values, hdynamic.of_sameRoutes hsame, by rw [hvalues, hsame.paramNames]⟩
  kept i staticMatches hmatches method answer hanswer := by
    rw [hkept i staticMatches hmatches method answer hanswer]
    exact resolveDirect_congr (hsame.handlers i).symm

theorem resolve_spec (h : Faithful router) :
    (router.resolve i method params).1 = resolveDirect (router.terminal i) method params ∧
      Faithful (router.resolve i method params).2 := by
  have hsame := sameRoutes_resolve router i method params
  have hcache := matchCache_resolve router i method params
  unfold resolve at hsame hcache ⊢
  dsimp only at hsame hcache ⊢
  cases hmatches : (router.terminal i).staticMatches with
  | none => exact ⟨rfl, h⟩
  | some staticMatches =>
    simp only [hmatches] at hsame hcache ⊢
    by_cases hsize : params.size ≠ 0
    · rw [if_pos hsize]
      exact ⟨rfl, h⟩
    · have hparams : params = ∅ := by
        ext1
        exact List.length_eq_zero_iff.mp (not_not.mp hsize)
      subst hparams
      rw [if_neg hsize] at hsame hcache ⊢
      cases hget : staticMatches.get method with
      | some kept => exact ⟨h.kept i staticMatches hmatches method kept hget, h⟩
      | none =>
        simp only [hget] at hsame hcache ⊢
        split_ifs at hsame hcache ⊢
        · exact ⟨rfl, h⟩
        · refine ⟨rfl, h.of_sameRoutes hsame hcache ?_⟩
          intro j staticMatches' hmatches' method' answer hanswer
          rcases terminal_setTerminal router i j { router.terminal i with
            staticMatches := some (staticMatches.set method
              (resolveDirect (router.terminal i) method ∅)) } with hj | ⟨rfl, hj⟩
          · rw [hj] at hmatches'
            exact h.kept j staticMatches' hmatches' method' answer hanswer
          · rw [hj] at hmatches'
            obtain rfl := Option.some.inj hmatches'
            rw [InsertionMap.get_set] at hanswer
            split_ifs at hanswer with hmethod
            · rw [hmethod]
              exact (Option.some.inj hanswer).symm
            · exact h.kept j staticMatches hmatches method' answer hanswer

theorem get_evict {incoming : ℕ} {keys : List JSString} {state : DynamicMatchCacheState}
    {entry : DynamicMatchCacheEntry} (h : (evict incoming keys state).cache.get path = some entry) :
    state.cache.get path = some entry := by
  induction keys generalizing state with
  | nil => exact h
  | cons oldest keys ih =>
    rw [evict] at h
    split_ifs at h
    · exact h
    · have hget := ih h
      rw [InsertionMap.get_delete] at hget
      split_ifs at hget
      exact hget

theorem cached_maybeCache {other : JSString} {entry : DynamicMatchCacheEntry}
    (h : (router.maybeCacheDynamicMatch path i values).cached other = some entry) :
    router.cached other = some entry ∨ other = path ∧
      entry = ⟨i, values.take (router.terminal i).paramNames.length⟩ := by
  have hold {entry : DynamicMatchCacheEntry}
      (hget : (router.matchCache.getD ⟨∅, 0, none⟩).cache.get other = some entry) :
      router.cached other = some entry := by
    rw [cached]
    cases hcache : router.matchCache with
    | none =>
      rw [hcache] at hget
      cases hget
    | some state =>
      rw [hcache] at hget
      exact hget
  unfold maybeCacheDynamicMatch at h
  dsimp only at h
  split_ifs at h
  · exact Or.inl (hold h)
  · change ((evict _ _ _).cache.set path _).get other = _ at h
    rw [InsertionMap.get_set] at h
    split_ifs at h with hpath
    · exact Or.inr ⟨hpath, (Option.some.inj h).symm⟩
    · exact Or.inl (hold (get_evict h))

theorem Faithful.maybeCache (h : Faithful router) (hdynamic : Dynamic router path i values) :
    Faithful (router.maybeCacheDynamicMatch path i values) := by
  have hsame := sameRoutes_maybeCache router path i values
  have hterminal (j : ℕ) : (router.maybeCacheDynamicMatch path i values).terminal j =
      router.terminal j := by
    unfold maybeCacheDynamicMatch
    dsimp only
    split_ifs <;> rfl
  constructor
  · intro other entry hentry
    rw [hterminal]
    rcases cached_maybeCache hentry with hold | ⟨rfl, rfl⟩
    · obtain ⟨values, hdynamic, hvalues⟩ := h.cached other entry hold
      exact ⟨values, hdynamic.of_sameRoutes hsame, hvalues⟩
    · exact ⟨values, hdynamic.of_sameRoutes hsame, rfl⟩
  · intro j
    rw [hterminal]
    exact h.kept j

theorem find_spec (h : Faithful router) (method path : JSString) :
    (router.find method path).1 = plainFind router method path ∧
      Faithful (router.find method path).2 := by
  unfold Router.find findDynamic plainFind
  dsimp only
  cases hstatic : if path.head? == some 47 then router.staticRoutes.get path else none with
  | some i => exact resolve_spec h
  | none =>
    dsimp only
    cases hcached : if path.head? == some 47 then router.cached path else none with
    | some entry =>
      dsimp only
      split_ifs at hcached with hleading
      obtain ⟨values, hdynamic, hvalues⟩ := h.cached path entry hcached
      rw [hleading, hdynamic.walk, hvalues, buildParams_take]
      exact resolve_spec h
    | none =>
      dsimp only
      rcases hwalk : router.walk path (path.head? == some 47) with ⟨hit, values⟩
      cases hit with
      | none => exact ⟨rfl, h⟩
      | some i =>
        dsimp only
        split_ifs with hkeep
        · obtain ⟨hleading, hnamed⟩ := Bool.and_eq_true_iff.mp hkeep
          have hhead : path.head? = some 47 := by simpa using hleading
          rw [if_pos hleading] at hstatic
          rw [hleading] at hwalk
          have hdynamic : Dynamic router path i values :=
            ⟨hhead, hstatic, hwalk, by simpa using hnamed⟩
          obtain ⟨hanswer, hafter⟩ := @resolve_spec T _ method i
            (buildParams (router.terminal i).paramNames values) (h.maybeCache hdynamic)
          refine ⟨hanswer.trans ?_, hafter⟩
          exact resolveDirect_congr ((sameRoutes_maybeCache router path i values).handlers i)
        · exact resolve_spec h

theorem getD_append_singleton {α : Type*} (l : List α) (a d : α) (j : ℕ) :
    (l ++ [a]).getD j d = if j = l.length then a else l.getD j d := by
  rw [List.getD_eq_getElem?_getD, List.getElem?_append, List.getD_eq_getElem?_getD]
  split_ifs with hlt heq heq
  · omega
  · rfl
  · rw [heq, Nat.sub_self]
    rfl
  · rw [List.getElem?_eq_none (by simp; omega), List.getElem?_eq_none (by omega)]

theorem Faithful.register (h : Faithful router) (hnone : router.matchCache = none) {upper : JSString}
    {compiled : CompiledRoutePattern} {payload : T}
    (hadded : router.register upper compiled payload = .ok after) : Faithful after := by
  refine ⟨fun path entry hentry => ?_, fun j staticMatches hmatches method answer hanswer => ?_⟩
  · rw [Router.cached, matchCache_register hadded, hnone] at hentry
    cases hentry
  · unfold Router.register at hadded
    dsimp only at hadded
    split at hadded
    · next i _ =>
      split_ifs at hadded
      all_goals
        obtain rfl := Except.ok.inj hadded
        change ((router.setTerminal i _).terminal j).staticMatches = _ at hmatches
        change _ = resolveDirect ((router.setTerminal i _).terminal j) method ∅
        rcases terminal_setTerminal router i j { router.terminal i with
          handlers := (router.terminal i).handlers.set upper payload
          staticMatches := (router.terminal i).staticMatches.map fun _ => ∅ } with hj | ⟨-, hj⟩
        · rw [hj] at hmatches ⊢
          exact h.kept j staticMatches hmatches method answer hanswer
        · rw [hj] at hmatches
          obtain ⟨_, -, rfl⟩ := Option.map_eq_some_iff.mp hmatches
          cases hanswer
    · split_ifs at hadded
      · obtain rfl := Except.ok.inj hadded
        rw [Router.terminal, getD_append_singleton] at hmatches ⊢
        by_cases hj : j = router.terminals.length
        · rw [if_pos hj] at hmatches
          obtain rfl := Option.some.inj hmatches
          cases hanswer
        · rw [if_neg hj] at hmatches ⊢
          exact h.kept j staticMatches hmatches method answer hanswer
      · obtain rfl := Except.ok.inj hadded
        rw [Router.terminal, getD_append_singleton] at hmatches ⊢
        by_cases hj : j = router.terminals.length
        · rw [if_pos hj] at hmatches
          cases hmatches
        · rw [if_neg hj] at hmatches ⊢
          exact h.kept j staticMatches hmatches method answer hanswer

theorem Faithful.add (h : Faithful router) (nfc toUpperCase : JSString → JSString)
    (method : JSString) (pattern : RoutePattern) (payload : T) :
    Faithful (router.add nfc toUpperCase method pattern payload).2 := by
  have hcleared : Faithful { router with matchCache := none } := ⟨by rintro _ _ ⟨⟩, h.kept⟩
  unfold Router.add
  dsimp only
  split
  · exact hcleared
  · next after hadded =>
    split_ifs at hadded
    cases hcompiled : pattern.compile nfc with
    | error error =>
      rw [hcompiled] at hadded
      cases hadded
    | ok compiled =>
      rw [hcompiled] at hadded
      exact hcleared.register rfl hadded

theorem faithful_afterCalls (nfc toUpperCase : JSString → JSString) (calls : List (Call T)) :
    Faithful (afterCalls nfc toUpperCase calls) := by
  induction calls using List.reverseRecOn with
  | nil =>
    refine ⟨by rintro _ _ ⟨⟩, ?_⟩
    rintro _ _ ⟨⟩
  | append_singleton calls call ih =>
    rw [afterCalls_append]
    cases call with
    | add method pattern payload => exact ih.add nfc toUpperCase method pattern payload
    | find method path => exact (find_spec ih method path).2

/-- After any calls, `find` answers what the static map and the trie answer without a cache, and
changes none of these answers. -/
theorem find_transparent (nfc toUpperCase : JSString → JSString) (calls : List (Call T))
    (method path : JSString) : let router := afterCalls nfc toUpperCase calls
    (router.find method path).1 = plainFind router method path ∧
      ∀ method' path', plainFind (router.find method path).2 method' path' =
        plainFind router method' path' :=
  ⟨(find_spec (faithful_afterCalls nfc toUpperCase calls) method path).1,
    (find_cases _ method path).1.plainFind⟩

end Nifra.Router
