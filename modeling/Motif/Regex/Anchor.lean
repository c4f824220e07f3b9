import Motif.Text.CharClass

/-!
# Anchors

Conditions on a position in a text: on where it is, and on the characters before and after it.
-/

namespace Motif.Regex

/-- What sides of a position are inside a word. -/
inductive WordSide where
  /-- Exactly one side is. -/
  | boundary
  /-- Both sides are, or neither. -/
  | noBoundary
  | start
  | stop
  /-- Nothing is asked of the right side. -/
  | startHalf
  /-- Nothing is asked of the left side. -/
  | stopHalf
  deriving Repr, DecidableEq, Inhabited

inductive Anchor where
  | textStart
  | textEnd
  | lineStart
  | lineEnd
  /-- As `lineStart`, where carriage returns end lines too and go together with a line feed. -/
  | lineStartCr
  | lineEndCr
  /-- A condition on words, of the characters of all scripts or of ASCII alone. -/
  | word (side : WordSide) (ascii : Bool)
  deriving Repr, DecidableEq, Inhabited

namespace WordSide

def fits (before after : Bool) : WordSide → Bool
  | .boundary => before != after
  | .noBoundary => before == after
  | .start => !before && after
  | .stop => before && !after
  | .startHalf => !before
  | .stopHalf => !after

end WordSide

namespace Anchor

def isAsciiWord (c : Char) : Bool := c.isAlphanum || c == '_'

def isWord (ascii : Bool) (c : Char) : Bool :=
  if ascii then isAsciiWord c else Text.CharClass.word.contains c.toNat

def before? (text : Array Char) (i : Nat) : Option Char := if i == 0 then none else text[i - 1]?

def holds (text : Array Char) (i : Nat) : Anchor → Bool
  | .textStart => i == 0
  | .textEnd => i == text.size
  | .lineStart => i == 0 || before? text i == some '\n'
  | .lineEnd => i == text.size || text[i]? == some '\n'
  | .lineStartCr =>
    i == 0 || before? text i == some '\n' || (before? text i == some '\r' && text[i]? != some '\n')
  | .lineEndCr =>
    i == text.size || text[i]? == some '\r' ||
      (text[i]? == some '\n' && before? text i != some '\r')
  | .word side ascii => side.fits ((before? text i).any (isWord ascii)) (text[i]?.any (isWord ascii))

end Anchor

end Motif.Regex
