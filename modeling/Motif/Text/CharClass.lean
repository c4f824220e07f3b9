import Motif.Text.Property

/-!
# Character classes

The decimal digits, the white space, the word characters and the hidden characters of all scripts.
-/

namespace Motif.Text.CharClass

def space : CharSet := .unions (["wspace"].filterMap Property.byName?)

def digit : CharSet := .unions (["nd"].filterMap Property.byName?)

/-- Letters, marks, digits, connectors and joiners. -/
def word : CharSet := .unions (["alpha", "m", "nd", "pc", "joinc"].filterMap Property.byName?)

/-- The characters that leave no mark of their own on paper: controls, spaces other than the plain
one, marks that join the character before them, and code points without a character. They are close
to those that are no base of a cluster, and the spaces. -/
def hidden : CharSet := Property.Named.set Property.byName? {
  names := [], near := ["any", "grbase", "zs"], runs :=
  "6Ach8AbbAAdTAbgCBefMAczAAbpJAbgkBBCABA2AwyBPmNBbSGm7AcqPZbmTCIIdlEADABAqIbHEJwb8YCYh8EgoZHbj3VcZd
  GrgHCmNWPQgnL4BCBBBGCEJBeiYAeODjRIkTDbOADAbVAEA2AEAhOAbzfTFgkKLxgSepN" }

end Motif.Text.CharClass
