import Pseudocode.NameMap
import Pseudocode.Value

/-! # Environments

The variables of a running program; every block shares them.
-/

namespace Pseudocode

abbrev Environment := NameMap Value

end Pseudocode
