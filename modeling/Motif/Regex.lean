import Motif.Regex.Automaton
import Motif.Regex.Footprint
import Motif.Regex.Parser

/-!
# Matching with regular expressions
-/

namespace Motif.Regex

/-- The automaton for a text and its flags, if the text is well formed and its automata are not too
large. -/
def compile? (pattern flags : String) : Option Automaton := do
  let r ← parse? pattern flags
  if r.fits then some (.ofRegex r) else none

end Motif.Regex
