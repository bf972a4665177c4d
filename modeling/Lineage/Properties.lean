import Std.Data.ExtTreeMap

/-!
# Properties

Text under names, one value for each name, listed in the order of the names. Two property maps are
equal as soon as they answer every name alike.
-/

namespace Lineage

abbrev Properties := Std.ExtTreeMap String String

end Lineage
