import Rehome.Proofs.Service.Agreement

/-! A current path beside the place of a file in its package. The service and the command line resolve
references against it alike. The service still names the module by its place, while the command line
names it by the current path. -/

namespace Rehome

open Declaration (modulePathOf stripIndex)
open Statement (declareModule rehome)

variable {current home rel root t : Text}

namespace Service

end Service

namespace CommandLine

end CommandLine

end Rehome
