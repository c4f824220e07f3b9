import Motif.Text.CharSet

/-!
# Case folding

Characters that differ only in case. Folding sends each to one representative, one character to one
character; `close` adds to a set all that share a representative with one of its members.
-/

namespace Motif.Text.CaseFold

/-- Each code point that does not fold to itself, with its representative, from numbers that stand
for runs of characters that fold by the same distance: from where the last run ended to the first
character, how many more there are, the steps between them, and twice the distance, less one where
it is downwards. -/
def foldings (start : Nat) : List Nat → List (Nat × Nat)
  | skip :: more :: step :: twice :: rest =>
    let first := start + skip
    let folded := fun code => if twice % 2 = 0 then code + twice / 2 else code - (twice + 1) / 2
    let codes := (List.range (more + 1)).map fun k => first + k * step
    codes.map (fun code => (code, folded code)) ++ foldings (first + more * step) rest
  | _ => []

def pairs : List (Nat × Nat) := foldings 0 (CharSet.numbers
  "b3ZBb2cTABbrCLWBb2CGBb28XCCECCCDHCCDWCCCABgZBCCCCABo5CABlYBBCCCABlQBABCCBBlOBABCDABeOBABlIBABlKBA
  BCCABlOBABlSCABl0BABlWBABCEABl0BABl4CABl6BCCCCABmEBABCCABmEDABCCABmEBABCCBBmCBBCCCABmGBABCEABCIABE
  BABCCABEBABCCABEBICCDICCDABEBBCCCABfNBABdDBTCCCABhHCICCIABxb0BABCCABjBBABxbUDABCCABk3BABd4BABd8BEC
  Cg5ABgQbHBCCEABCJABgQHABcECCBcCCABdUCBBdSCQBb2CIBb2XABCNABQBABbXBABbNEAB3BABbHCLCCCABc9BABcXDABdLB
  ABdTCABCCABNBABCDCBhHBPBeQB5Bb2bNQCCK0CCCAB4BGCCDbLCCDbBBcYdcKbBBpnUCABpnUGABpnUwTFBPciTABnhXBABnh
  VBABnhDBBBng9BABnhBBABngXBABnfLBABcxjKBABCHbGBglDDCBglDi7cCCCHABdHDABqhBCbLCCKHBPJFBPLHBPJHBPJFBPM
  DCPJHBPZHBPJHBPJHBPJBBPBBBeDBABRCABpiRKDBe1BABRHABpl7FBBPBBBfTIABplBFBBPBBBgHBABNMBBhDBBBg9BABRiKA
  BqbVEABrxZBABrq9HABbUbKPB6UABCw1ZBbQbzFbLBcYbNABCCABwy3BABid5BABwx7DCCCCABxa5BABwzFBABxbBBABxa9CAB
  CDABCJBBxc3BbNCCJBCCFABCbheWWCCUNCCd2GCCE4CCLBCCCABcxm5BECCFABCCABdmi5DBCCEJCCCABdmkPBABdmlBBABdmk
  3BABdmkJBABdmkPCABdmhXBABdmi9BABdmh3BABbzUBHCCCABcXBABdmkNBABcxp1BBCCCABdmmNBABCEABCGCCCCABdmyRZAB
  Cy1cHBdfbDvr0ABCbdIZBb2bh8bDBcId39BcIeNKBcGCOBcGCGBcGCBBcGbxHbOBdUeOVBb2db55Bb2xkB5Bb2bhoB7Bb6")

/-- Adds the code points that share a representative with a member, as the given pairs have it. -/
def closeBy (pairs : List (Nat × Nat)) (s : CharSet) : CharSet :=
  let met := pairs.filter fun (code, folded) => s.contains code || s.contains folded
  let folded := CharSet.ofRanges (met.map fun (_, folded) => (folded, folded))
  let sources := pairs.filter fun (_, f) => folded.contains f
  (s.union folded).union (.ofRanges (sources.map fun (code, _) => (code, code)))

def close (s : CharSet) : CharSet := closeBy pairs s

def closeAscii (s : CharSet) : CharSet :=
  closeBy (pairs.filter fun (code, folded) => code < 128 && folded < 128) s

end Motif.Text.CaseFold
