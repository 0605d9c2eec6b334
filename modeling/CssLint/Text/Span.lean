/-!
Places of a text that have a length.
-/

namespace CssLint

/-- The bytes of a text from `start` up to `stop`. -/
structure Span where
  start : Nat
  stop : Nat
deriving Repr, DecidableEq

end CssLint
