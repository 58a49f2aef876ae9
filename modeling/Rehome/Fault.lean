import Rehome.FileSystem.Walk
import Rehome.Record.Check

/-! What stops a run. -/

namespace Rehome

inductive Fault where
  | system (error : SystemError) (path : Text)
  /-- A directory to be removed turned out to be a link to one. -/
  | linkedDirectory
  /-- A path holds a NUL. -/
  | nul
  /-- A file that should hold a text does not. -/
  | notText
  | noSource (dir : Text)
  | noWorkers
  | badManifestName (name : Text)
  | overlap (destination : Text) (package : Package)
  | duplicateKey (key : Text)
  | badArgument (error : Package.ArgumentError)
  | noSettings (path : Text)
  | badSyntax (path : Text)
  | badSettings (path : Text) (issues : List Issue)
  /-- A settings file spells a number with more digits than may be read. -/
  | hugeNumeral (digits : Nat)
  /-- The working directory is needed after it was removed. -/
  | noWorkingDirectory
  /-- An option for a package came without a value. -/
  | valuelessPackage
  /-- The option for the root file came without a value, and the root file is needed. -/
  | valuelessRootFile
  deriving DecidableEq

namespace Fault

/-- Who answers for a fault. -/
inductive Kind where
  /-- The file system. -/
  | system
  /-- The choice of destination or packages. -/
  | build
  /-- Settings or arguments. -/
  | settings
  /-- Nobody: the run ends without a report. -/
  | internal
  deriving DecidableEq

def kind : Fault → Kind
  | system .. | linkedDirectory | noSource _ | noWorkingDirectory => .system
  | badManifestName _ | overlap .. | duplicateKey _ => .build
  | badArgument _ | noSettings _ | badSyntax _ | badSettings .. => .settings
  | nul | notText | noWorkers | hugeNumeral _ | valuelessPackage | valuelessRootFile => .internal

def countIssues (is : List Issue) : Text :=
  Text.ofNat is.length ++
    (if is.length = 1 then " validation error" else " validation errors").toList

/-- What is said of a fault. Of bad settings only the number of issues is said here. -/
def message : Fault → Text
  | system e path => e.report ++ ": ".toList ++ path.quoted
  | linkedDirectory => "Cannot call rmtree on a symbolic link".toList
  | nul => "embedded null byte".toList
  | notText => "invalid UTF-8".toList
  | noSource dir => "Declaration source directory not found: ".toList ++ dir
  | noWorkers => "max_workers must be greater than 0".toList
  | badManifestName name => Manifest.nameComplaint name
  | overlap destination p =>
    "Destination ".toList ++ destination ++ " overlaps source ".toList ++ p.sourceDir ++
      " of ".toList ++ p.home
  | duplicateKey key => "Duplicate manifest key: ".toList ++ key
  | badArgument e => e.message
  | noSettings path => "Config file not found: ".toList ++ path
  | badSyntax path => "Invalid TOML in ".toList ++ path
  | badSettings path is =>
    "Invalid config ".toList ++ path ++ ": ".toList ++ countIssues is ++
      " for RelocateConfig".toList
  | hugeNumeral digits =>
    "Exceeds the limit (".toList ++ Text.ofNat Number.maxDigits ++
      " digits) for integer string conversion: value has ".toList ++ Text.ofNat digits ++
      " digits; use sys.set_int_max_str_digits() to increase the limit".toList
  | noWorkingDirectory => SystemError.notFound.report
  | valuelessPackage => "'list' object has no attribute 'partition'".toList
  | valuelessRootFile => "'list' object has no attribute 'replace'".toList

end Fault

end Rehome
