import Nifra.Lib.InsertionMap
import Nifra.Lib.Slices
import Nifra.Text.FormText

/-! # The query object

Plain queries are cut by a scanner of the server's own, all others are read by the parser of
URL-encoded forms. A key given once holds a string, a repeated key all its values in order.
-/

namespace Nifra.Server

inductive QueryValue
  | single (value : JSString)
  | many (values : List JSString)
  deriving DecidableEq

/-- An object with a null prototype: what was written to it is all there is to read. -/
abbrev QueryObject := InsertionMap JSString QueryValue

def parseKeyInternCap : ℕ := 2048

def parseKeyMaxLength : ℕ := 64

structure ParseKeyIntern where
  table : InsertionMap JSString JSString
  self : ∀ key hit, table.get key = some hit → hit = key
  size_le : table.size ≤ parseKeyInternCap

instance : EmptyCollection ParseKeyIntern :=
  ⟨{ table := ∅, self := fun _ _ h => by simp at h, size_le := Nat.zero_le _ }⟩

/-- `internParseKey`, where `fresh` is `FRESH_KEY_STORE_IS_CHEAP`, with the table as it
leaves it. -/
def internParseKey (fresh : Bool) (intern : ParseKeyIntern) (key : JSString) :
    JSString × ParseKeyIntern :=
  if fresh then (key, intern)
  else
    match hkey : intern.table.get key with
    | some hit => (hit, intern)
    | none =>
      if hfull : parseKeyMaxLength < key.length ∨ parseKeyInternCap ≤ intern.table.size then
        (key, intern)
      else
        (key, {
          table := intern.table.set key key
          self := by
            intro l hit hl
            rw [InsertionMap.get_set] at hl
            split_ifs at hl with h
            · rw [h]
              exact (Option.some.inj hl).symm
            · exact intern.self l hit hl
          size_le := by
            rw [InsertionMap.size_set_of_get_none hkey]
            omega })

@[simp] theorem internParseKey_fst (fresh : Bool) (intern : ParseKeyIntern) (key : JSString) :
    (internParseKey fresh intern key).1 = key := by
  unfold internParseKey
  by_cases hfresh : fresh
  · rw [if_pos hfresh]
  · rw [if_neg hfresh]
    split
    · next hit hkey => exact intern.self key hit hkey
    · split_ifs <;> rfl

abbrev QueryState := QueryObject × ParseKeyIntern

def setQueryValue (fresh : Bool) (state : QueryState) (rawKey value : JSString) : QueryState :=
  let (key, intern) := internParseKey fresh state.2 rawKey
  match state.1.get key with
  | none => (state.1.set key (.single value), intern)
  | some (.single existing) => (state.1.set key (.many [existing, value]), intern)
  | some (.many existing) => (state.1.set key (.many (existing ++ [value])), intern)

/-- Every pair through `setQueryValue`, in order. -/
def setQueryValues (fresh : Bool) (state : QueryState) (pairs : List (JSString × JSString)) :
    QueryState :=
  pairs.foldl (fun state pair => setQueryValue fresh state pair.1 pair.2) state

def queryObjectFallback (fresh : Bool) (intern : ParseKeyIntern) (search : JSString) : QueryState :=
  setQueryValues fresh (∅, intern) (urlSearchParams search)

/-- What the turn of the loop does with the segment from `pos` to `stop`. -/
def scanSegment (fresh : Bool) (search : JSString) (pos stop : ℕ) (state : QueryState) :
    QueryState :=
  if pos < stop then
    let split := List.skipWhile (· ≠ 61) search stop pos
    let value := if split = stop then [] else search.slice (split + 1) stop
    setQueryValue fresh state (search.slice pos split) value
  else state

/-- The loop of `queryObjectOf` from `pos` on. -/
def scanQuery (fresh : Bool) (search : JSString) (pos : ℕ) (state : QueryState) : QueryState :=
  if pos ≤ search.length then
    match hamp : search.indexFrom 38 pos with
    | none => scanSegment fresh search pos search.length state
    | some amp => scanQuery fresh search (amp + 1) (scanSegment fresh search pos amp state)
  else state
  termination_by search.length + 1 - pos
  decreasing_by
    obtain ⟨hle, hget, -⟩ := List.indexFrom_eq_some_iff.mp hamp
    have := (List.getElem?_eq_some_iff.mp hget).1
    omega

def queryObjectOf (fresh : Bool) (intern : ParseKeyIntern) (search : JSString) : QueryState :=
  let start := if search[0]? = some 63 then 1 else 0
  if search.length ≤ start then (∅, intern)
  else if (search.indexFrom 43 start).isSome ∨ (search.indexFrom 37 start).isSome then
    queryObjectFallback fresh intern search
  else scanQuery fresh search start (∅, intern)

variable (fresh : Bool) {search : JSString} {pos stop : ℕ}

theorem scanSegment_eq (hpos : pos ≤ stop) (hstop : stop ≤ search.length) (state : QueryState) :
    scanSegment fresh search pos stop state = setQueryValues fresh state
      (([search.slice pos stop].filter (· ≠ [])).map unescapedPair) := by
  have hlength : (search.slice pos stop).length = stop - pos := List.length_slice hstop
  unfold scanSegment
  by_cases hlt : pos < stop
  · have hne : search.slice pos stop ≠ [] := by
      apply List.ne_nil_of_length_pos
      omega
    have hskip := List.skipped_skipWhile (· ≠ 61) (l := search) hpos hstop
    generalize List.skipWhile (· ≠ 61) search stop pos = split at hskip
    have hvalue : (if split = stop then [] else search.slice (split + 1) stop)
        = ((search.slice pos stop).dropWhile (· ≠ 61)).drop 1 := by
      rw [← hskip.left]
      split_ifs with hsplit
      · rw [hsplit, List.slice_self, List.drop_nil]
      · rw [List.slice_succ (lt_of_le_of_ne hskip.le_stop hsplit) hstop, List.drop_one, List.tail_cons]
    have hkept : [search.slice pos stop].filter (· ≠ []) = [search.slice pos stop] :=
      List.filter_cons_of_pos (decide_eq_true hne)
    rw [if_pos hlt, hkept]
    simp only [hvalue, hskip.passed, setQueryValues, List.map_cons, List.map_nil, List.foldl_cons,
      List.foldl_nil, unescapedPair]
  · obtain rfl : pos = stop := by omega
    rw [if_neg hlt, List.slice_self]
    rfl

theorem setQueryValues_append (state : QueryState) (l l' : List (JSString × JSString)) :
    setQueryValues fresh state (l ++ l') = setQueryValues fresh (setQueryValues fresh state l) l' :=
  List.foldl_append

theorem scanQuery_eq (hpos : pos ≤ search.length) (state : QueryState) :
    scanQuery fresh search pos state
      = setQueryValues fresh state (unescapedPairs (search.drop pos)) := by
  induction hn : search.length - pos using Nat.strong_induction_on generalizing pos state with
  | _ n ih =>
    rw [scanQuery, if_pos hpos, unescapedPairs]
    split
    · next hamp =>
      rw [scanSegment_eq fresh hpos le_rfl, List.splitOn_drop_of_indexFrom_none hamp,
        List.slice_length]
    · next amp hamp =>
      obtain ⟨hle, hget, -⟩ := List.indexFrom_eq_some_iff.mp hamp
      have hlt : amp < search.length := (List.getElem?_eq_some_iff.mp hget).1
      have hsplit : (search.drop pos).splitOn 38
          = [search.slice pos amp] ++ (search.drop (amp + 1)).splitOn 38 :=
        List.splitOn_drop_of_indexFrom hamp
      rw [scanSegment_eq fresh hle hlt.le, ih _ (by omega) (by omega) _ rfl, hsplit,
        List.filter_append, List.map_append, setQueryValues_append, unescapedPairs]

theorem queryObjectOf_eq_fallback (intern : ParseKeyIntern) (h : WellFormed search) :
    queryObjectOf fresh intern search = queryObjectFallback fresh intern search := by
  unfold queryObjectOf
  set start := if search[0]? = some 63 then 1 else 0 with hstart
  have hdrop : (if search.head? = some 63 then search.tail else search) = search.drop start := by
    rw [hstart, List.head?_eq_getElem?]
    split_ifs <;> simp
  have hrest : WellFormed (search.drop start) := by
    rw [hstart]
    split_ifs with hmark
    · exact h.drop_one hmark (by decide)
    · exact h
  have hpairs : urlSearchParams search = parseForm (encodeUtf8 (search.drop start)) := by
    rw [urlSearchParams, hdrop]
  simp only
  by_cases hempty : search.length ≤ start
  · rw [if_pos hempty, queryObjectFallback, hpairs, List.drop_eq_nil_of_le hempty]
    rfl
  · rw [if_neg hempty]
    by_cases hescaped : (search.indexFrom 43 start).isSome ∨ (search.indexFrom 37 start).isSome
    · rw [if_pos hescaped]
    · rw [if_neg hescaped]
      simp only [not_or, Option.not_isSome_iff_eq_none, List.indexFrom_eq_none_iff] at hescaped
      rw [queryObjectFallback, hpairs, parseForm_encodeUtf8 hrest hescaped.1 hescaped.2,
        scanQuery_eq fresh (by omega)]

def gather : List JSString → Option QueryValue
  | [] => none
  | [value] => some (.single value)
  | values => some (.many values)

def valuesOf (key : JSString) (pairs : List (JSString × JSString)) : List JSString :=
  (pairs.filter fun pair => pair.1 = key).map Prod.snd

/-- An object and the pairs it was filled with: the keys in the order they were first given. -/
structure Gathered (pairs : List (JSString × JSString)) (out : QueryObject) : Prop where
  keys : out.keys = (pairs.map Prod.fst).eraseDups
  get : ∀ key, out.get key = gather (valuesOf key pairs)

theorem Gathered.unique {pairs : List (JSString × JSString)} {out out' : QueryObject}
    (h : Gathered pairs out) (h' : Gathered pairs out') : out = out' :=
  InsertionMap.eq_of_keys_get (h.keys.trans h'.keys.symm) fun key =>
    (h.get key).trans (h'.get key).symm

theorem gather_append {values : List JSString} (value : JSString) :
    gather (values ++ [value]) = some (match gather values with
      | none => .single value
      | some (.single existing) => .many [existing, value]
      | some (.many existing) => .many (existing ++ [value])) := by
  match values with
  | [] => rfl
  | [_] => rfl
  | _ :: _ :: _ => rfl

theorem setQueryValue_eq (state : QueryState) (key value : JSString) :
    (setQueryValue fresh state key value).1 = state.1.set key (match state.1.get key with
      | none => .single value
      | some (.single existing) => .many [existing, value]
      | some (.many existing) => .many (existing ++ [value])) := by
  unfold setQueryValue
  simp only [internParseKey_fst]
  rcases state.1.get key with _ | _ | _ <;> rfl

theorem Gathered.setQueryValue {pairs : List (JSString × JSString)} {state : QueryState}
    (h : Gathered pairs state.1) (key value : JSString) :
    Gathered (pairs ++ [(key, value)]) (setQueryValue fresh state key value).1 := by
  rw [setQueryValue_eq]
  constructor
  · rw [InsertionMap.keys_set, h.keys, List.map_append, List.eraseDups_append]
    by_cases hkey : key ∈ pairs.map Prod.fst
    · simp [hkey, List.removeAll]
    · simp [hkey, List.removeAll, List.eraseDups_cons]
  · intro l
    rw [InsertionMap.get_set, valuesOf, List.filter_append, List.map_append]
    by_cases hl : l = key
    · subst hl
      have hlast : ([(l, value)].filter fun pair => pair.1 = l).map Prod.snd = [value] := by simp
      rw [if_pos rfl, hlast, gather_append, h.get l]
      rfl
    · have hlast : ([(key, value)].filter fun pair => pair.1 = l).map Prod.snd = [] := by
        simpa using fun hkey => hl hkey.symm
      rw [if_neg hl, hlast, List.append_nil, h.get l]
      rfl

theorem gathered_setQueryValues (intern : ParseKeyIntern) (pairs : List (JSString × JSString)) :
    Gathered pairs (setQueryValues fresh (∅, intern) pairs).1 := by
  induction pairs using List.reverseRecOn with
  | nil => exact ⟨rfl, fun _ => rfl⟩
  | append_singleton pairs pair ih =>
    rw [setQueryValues_append]
    exact ih.setQueryValue fresh pair.1 pair.2

/-- Whatever is interned and however a search is read, its object holds the pairs of the
form, under every key alike. -/
theorem queryObjectOf_eq (fresh' : Bool) (intern intern' : ParseKeyIntern) (h : WellFormed search) :
    (queryObjectOf fresh intern search).1 = (queryObjectFallback fresh' intern' search).1 ∧
      (queryObjectOf fresh intern search).1.keys
        = ((urlSearchParams search).map Prod.fst).eraseDups ∧
      ∀ key, (queryObjectOf fresh intern search).1.get key
        = gather (valuesOf key (urlSearchParams search)) := by
  have hfast : Gathered (urlSearchParams search) (queryObjectOf fresh intern search).1 := by
    rw [queryObjectOf_eq_fallback fresh intern h]
    exact gathered_setQueryValues fresh intern _
  exact ⟨hfast.unique (gathered_setQueryValues fresh' intern' _), hfast.keys, hfast.get⟩

theorem queryObjectOf_eq_protoKeys :
    (queryObjectOf false ∅ (js "?__proto__=a&&b&__proto__=c=d")).1
      = (queryObjectFallback true ∅ (js "?__proto__=a&&b&__proto__=c=d")).1 :=
  (queryObjectOf_eq false true ∅ ∅ (wellFormed_ascii (by decide))).1

end Nifra.Server
