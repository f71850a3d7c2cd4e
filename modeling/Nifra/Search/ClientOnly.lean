import Nifra.Search.RoundTrip
import Nifra.Search.Same

/-! # Changes that only the client sees

A navigation that changes client-only keys alone skips the loader. The comparison sees what the parsed
queries show, and so misses what they do not.
-/

namespace Nifra.Search

variable {N : Type} [DecidableEq N] (numbers : NumberText N)

omit [DecidableEq N]

def carried (raw key : JSString) : List (SearchValue N) :=
  decodedValues numbers defaultSearchLimits key (paramsOf raw)

def shown (raw key : JSString) : Option (SearchValue N) :=
  (parseSearch numbers defaultSearchLimits raw).get key

variable {numbers} {raw prevRaw nextRaw key : JSString}

variable [DecidableEq N] {prev next : SearchObject N} {clientKeys : List JSString}

end Nifra.Search
