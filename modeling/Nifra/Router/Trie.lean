import Nifra.Router.Pattern
import Nifra.Lib.InsertionMap

/-! # The router

Routes are kept in a trie of segments, the paths without parameters also in a map of whole paths.
A path that is matched twice in a row through parameters is kept in a cache of matches, which every
registration empties.
-/

namespace Nifra.Router

def dynamicMatchCacheMax : ℕ := 2048

def dynamicMatchCacheChars : ℤ := 256 * 1024

inductive RouterMatch (T : Type)
  | found (payload : T) (params : InsertionMap JSString JSString)
  | notFound
  | methodNotAllowed (allowed : List JSString)

structure Terminal (T : Type) where
  handlers : InsertionMap JSString T
  paramNames : List JSString
  staticMatches : Option (InsertionMap JSString (RouterMatch T))

structure DynamicMatchCacheEntry where
  terminal : ℕ
  values : List JSString
  deriving DecidableEq

/-- The cache is made at the first entry; until then it is empty here. -/
structure DynamicMatchCacheState where
  cache : InsertionMap JSString DynamicMatchCacheEntry
  chars : ℤ
  pendingPath : Option JSString

/-- A node of the trie. A terminal is an object of its own that the trie, the map of paths and the
cache refer to, by its place in the list of terminals. -/
structure RouteNode where
  staticChildren : List (JSString × RouteNode)
  paramChild : Option RouteNode
  mixedChildren : List (List MixedPart × RouteNode)
  wildcardChild : Option RouteNode
  terminal : Option ℕ

def createNode : RouteNode := ⟨[], none, [], none, none⟩

end Nifra.Router

namespace Nifra

structure Router (T : Type) where
  root : Router.RouteNode
  terminals : List (Router.Terminal T)
  staticRoutes : InsertionMap JSString ℕ
  matchCache : Option Router.DynamicMatchCacheState

end Nifra

namespace Nifra.Router

/-- A branch of the walk, and what is tried with the captures it leaves when it fails. -/
def orElse (branch : Option ℕ × List JSString)
    (next : List JSString → Option ℕ × List JSString) : Option ℕ × List JSString :=
  match branch with
  | (some terminal, out) => (some terminal, out)
  | (none, out) => next out

/-- The loop over the mixed children, each of which takes back its captures when it fails. -/
def matchMixedChildren (deeper : RouteNode → List JSString → Option ℕ × List JSString)
    (segment : JSString) :
    List (List MixedPart × RouteNode) → List JSString → Option ℕ × List JSString
  | [], out => (none, out)
  | (parts, child) :: children, out =>
    let shape := mixedSegmentShape parts
    match matchMixedSegment shape segment out (constrainedParts parts) with
    | (false, out) => matchMixedChildren deeper segment children out
    | (true, out) =>
      orElse (deeper child out) fun out =>
        matchMixedChildren deeper segment children (out.take (out.length - (shape.length - 1)))

/-- `matchNode` on the segments that are left, with the captures as the call leaves them. A path
has at least one segment. -/
def matchNode : List JSString → RouteNode → List JSString → Option ℕ × List JSString
  | [], _, out => (none, out)
  | segment :: rest, node, out =>
    let deeper (child : RouteNode) (out : List JSString) : Option ℕ × List JSString :=
      if rest.isEmpty then (child.terminal, out) else matchNode rest child out
    orElse
      (match node.staticChildren.lookup segment with
      | none => (none, out)
      | some child => deeper child out) fun out =>
    orElse
      (if segment.isEmpty then (none, out)
      else matchMixedChildren deeper segment node.mixedChildren out) fun out =>
    orElse
      (match node.paramChild with
      | none => (none, out)
      | some child =>
        if segment.isEmpty then (none, out)
        else orElse (deeper child (out ++ [segment])) fun out => (none, out.dropLast)) fun out =>
    match node.wildcardChild.bind RouteNode.terminal with
    | none => (none, out)
    | some terminal => (some terminal, out ++ [[47].intercalate (segment :: rest)])

def buildParams (names values : List JSString) : InsertionMap JSString JSString :=
  names.zipIdx.foldl (fun params (name, i) => params.set name (values.getD i [])) ∅

section Resolution

variable {T : Type}

def resolveDirect (terminal : Terminal T) (method : JSString)
    (params : InsertionMap JSString JSString) : RouterMatch T :=
  match terminal.handlers.get method with
  | some payload => .found payload params
  | none =>
    match if method = js "HEAD" then terminal.handlers.get (js "GET") else none with
    | some get => .found get params
    | none =>
      .methodNotAllowed (terminal.handlers.keys ++
        if terminal.handlers.has (js "GET") && !terminal.handlers.has (js "HEAD") then
          [js "HEAD"]
        else [])

def terminal (router : Router T) (i : ℕ) : Terminal T := router.terminals.getD i ⟨∅, [], none⟩

def setTerminal (router : Router T) (i : ℕ) (terminal : Terminal T) : Router T :=
  { router with terminals := router.terminals.set i terminal }

/-- `resolve`, with the answers that the terminal keeps. Its parameters are `EMPTY_PARAMS` exactly
when there is none. -/
def resolve (router : Router T) (i : ℕ) (method : JSString)
    (params : InsertionMap JSString JSString) : RouterMatch T × Router T :=
  let terminal := router.terminal i
  let direct := resolveDirect terminal method params
  match terminal.staticMatches with
  | none => (direct, router)
  | some staticMatches =>
    if params.size ≠ 0 then (direct, router)
    else
      match staticMatches.get method with
      | some kept => (kept, router)
      | none =>
        let cacheable := terminal.handlers.has method ||
          method == js "HEAD" && terminal.handlers.has (js "GET")
        if !cacheable then (direct, router)
        else
          (direct, router.setTerminal i
            { terminal with staticMatches := some (staticMatches.set method direct) })

def evict (incoming : ℕ) : List JSString → DynamicMatchCacheState → DynamicMatchCacheState
  | [], state => state
  | oldest :: keys, state =>
    if state.cache.size < dynamicMatchCacheMax ∧
      state.chars + incoming ≤ dynamicMatchCacheChars then state
    else
      evict incoming keys
        { state with
          cache := state.cache.delete oldest
          chars := state.chars - oldest.length }

def maybeCacheDynamicMatch (router : Router T) (path : JSString) (terminal : ℕ)
    (values : List JSString) : Router T :=
  let state := router.matchCache.getD ⟨∅, 0, none⟩
  if state.pendingPath ≠ some path then
    { router with matchCache := some { state with pendingPath := some path } }
  else
    let state := evict path.length state.cache.keys state
    let entry : DynamicMatchCacheEntry :=
      ⟨terminal, values.take (router.terminal terminal).paramNames.length⟩
    { router with
      matchCache := some
        { state with
          cache := state.cache.set path entry
          chars := state.chars + path.length } }

def cached (router : Router T) (path : JSString) : Option DynamicMatchCacheEntry :=
  router.matchCache.bind fun state => state.cache.get path

def walk (router : Router T) (path : JSString) (leading : Bool) : Option ℕ × List JSString :=
  matchNode ((if leading then path.tail else path).splitOn 47) router.root []

def findDynamic (router : Router T) (method path : JSString) (leading : Bool) :
    RouterMatch T × Router T :=
  match if leading then router.cached path else none with
  | some entry =>
    router.resolve entry.terminal method
      (buildParams (router.terminal entry.terminal).paramNames entry.values)
  | none =>
    match router.walk path leading with
    | (none, _) => (.notFound, router)
    | (some i, values) =>
      let names := (router.terminal i).paramNames
      let router :=
        if leading && !names.isEmpty then router.maybeCacheDynamicMatch path i values else router
      router.resolve i method (buildParams names values)

def find (router : Router T) (method path : JSString) : RouterMatch T × Router T :=
  let leading := path.head? == some 47
  match if leading then router.staticRoutes.get path else none with
  | some i => router.resolve i method ∅
  | none => router.findDynamic method path leading

end Resolution

/-- The child under a key, built on if it is there, else built new at the end. -/
def addStatic {N : Type} (fresh : N) (build : N → N) (children : List (JSString × N))
    (value : JSString) : List (JSString × N) :=
  if children.any fun child => child.1 == value then
    children.map fun child => if child.1 = value then (child.1, build child.2) else child
  else children ++ [(value, build fresh)]

def terminalAt : List RoutePatternSegment → RouteNode → Option ℕ
  | [], node => node.terminal
  | .param _ :: rest, node => node.paramChild.bind (terminalAt rest)
  | .wildcard _ :: rest, node => node.wildcardChild.bind (terminalAt rest)
  | .mixed parts :: rest, node =>
    (node.mixedChildren.find? fun child => mixedKey child.1 == mixedKey parts).bind fun child =>
      terminalAt rest child.2
  | .static value :: rest, node => (node.staticChildren.lookup value).bind (terminalAt rest)

/-- The walk of `Router.add`, which makes the nodes that are missing, up to a new terminal. -/
def placeTerminal (i : ℕ) : List RoutePatternSegment → RouteNode → RouteNode
  | [], node => { node with terminal := some i }
  | .param _ :: rest, node =>
    { node with paramChild := some (placeTerminal i rest (node.paramChild.getD createNode)) }
  | .wildcard _ :: rest, node =>
    { node with wildcardChild := some (placeTerminal i rest (node.wildcardChild.getD createNode)) }
  | .mixed parts :: rest, node =>
    { node with
      mixedChildren := addMixed createNode (placeTerminal i rest) node.mixedChildren parts }
  | .static value :: rest, node =>
    { node with
      staticChildren := addStatic createNode (placeTerminal i rest) node.staticChildren value }

/-- `[A-Z\d-]` -/
def isMethodChar (c : ℕ) : Bool := decide (65 ≤ c ∧ c ≤ 90 ∨ 48 ≤ c ∧ c ≤ 57) || c == 45

/-- `REGISTRABLE_METHOD` -/
def isRegistrableMethod (method : JSString) : Bool :=
  !([js "TRACE", js "TRACK", js "CONNECT"].contains method) &&
    method.head?.any (fun c => decide (65 ≤ c ∧ c ≤ 90)) && method.tail.all isMethodChar &&
    decide (method.tail.length ≤ 31)

inductive RoutePattern
  | text (path : JSString)
  | compiled (pattern : CompiledRoutePattern)

def RoutePattern.compile (nfc : JSString → JSString) :
    RoutePattern → Except RouteError CompiledRoutePattern
  | .text path => compileRoutePattern nfc path
  | .compiled pattern => .ok pattern

section Registration

variable {T : Type}

def new : Router T := ⟨createNode, [], ∅, none⟩

def join (names : List JSString) : JSString := (js ", ").intercalate names

def register (router : Router T) (upper : JSString) (compiled : CompiledRoutePattern)
    (payload : T) : Except RouteError (Router T) :=
  let path := compiled.pattern
  let paramNames := compiled.paramNames
  let isStatic := paramNames.isEmpty
  let mirror (i : ℕ) (router : Router T) : Router T :=
    if isStatic then { router with staticRoutes := router.staticRoutes.set path i } else router
  match terminalAt compiled.segments router.root with
  | some i =>
    -- every node of the walk is there, so a call that throws has made none
    let existing := router.terminal i
    if existing.paramNames ≠ paramNames then
      .error (.config .paramNameConflict
        (js "conflicting parameter names for \"" ++ path ++ js "\": [" ++
          join existing.paramNames ++ js "] vs [" ++ join paramNames ++ js "]"))
    else if existing.handlers.has upper then
      .error (.config .duplicateRoute
        (js "duplicate route: " ++ upper ++ js " " ++ path))
    else
      .ok (mirror i (router.setTerminal i
        { existing with
          handlers := existing.handlers.set upper payload
          staticMatches := existing.staticMatches.map fun _ => ∅ }))
  | none =>
    let i := router.terminals.length
    .ok (mirror i
      { router with
        root := placeTerminal i compiled.segments router.root
        terminals := router.terminals ++
          [⟨(∅ : InsertionMap JSString T).set upper payload, paramNames,
            if isStatic then some ∅ else none⟩] })

/-- `add`, for a Unicode normalization and an upper-casing, with the router as the call leaves
it. -/
def add (nfc toUpperCase : JSString → JSString) (router : Router T) (method : JSString)
    (pattern : RoutePattern) (payload : T) : Except RouteError Unit × Router T :=
  let router := { router with matchCache := none }
  let upper := toUpperCase method
  let added : Except RouteError (Router T) :=
    if !isRegistrableMethod upper then
      .error (.config .invalidMethod
        (js "unsupported HTTP method \"" ++ method ++ js "\""))
    else do
      let compiled ← pattern.compile nfc
      router.register upper compiled payload
  match added with
  | .error error => (.error error, router)
  | .ok router => (.ok (), router)

end Registration

end Nifra.Router
