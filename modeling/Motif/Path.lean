import Motif.Tree.Node

/-!
# Ancestors

The way from a node up to the root, as ids and tags, nearest first.
-/

namespace Motif

structure Frame where
  id : Nat
  tag : Tag
  deriving Repr, DecidableEq, Inhabited

def Node.frame (n : Node) : Frame := { id := n.id, tag := n.tag }

abbrev Path := List Frame

namespace Path

def parent? (path : Path) : Option Frame := path.head?

def depth (path : Path) : Nat := path.length

def hasTag (path : Path) (tags : List Tag) : Bool := path.any fun f => tags.contains f.tag

/-- The nearest ancestor with one of the tags, unless one with a tag of `barriers` comes first. -/
def nearest? (tags barriers : List Tag) : Path → Option Frame
  | [] => none
  | f :: path =>
    if tags.contains f.tag then some f
    else if barriers.contains f.tag then none
    else nearest? tags barriers path

def container? (path : Path) : Option Frame := path.find? fun f => f.tag.isScopeContainer

def containers (path : Path) : Path := path.filter fun f => f.tag.isScopeContainer

/-- The ancestors nearer than the first that satisfies `stop`, and that one if there is one. -/
def upTo (stop : Frame → Bool) (path : Path) : Path × Option Frame :=
  (path.takeWhile fun f => !stop f, path.find? stop)

end Path

end Motif
