import Rehome.Record.Check

/-! Settings of a run: which packages are rehomed, and where the copies and the manifest go. -/

namespace Rehome

structure Settings where
  destination : Text := "types".toList
  manifestName : Text := "dts-list.ts".toList
  /-- How many files are worked on at a time. -/
  workers : Int := 8
  packages : List Package := []
  deriving DecidableEq

namespace Settings

def ofValue : Value → Checked Settings :=
  Value.asRecord "RelocateConfig" fun fs =>
    let default : Settings := {}
    ((Value.optional fs "destination" default.destination Value.asText).both
      ((Value.optional fs "manifest_name" default.manifestName Value.asManifestName).both
        ((Value.optional fs "workers" default.workers Value.asPositive).both
          (Value.optional fs "packages" default.packages (Value.asList Package.ofValue))))).map
      fun (destination, manifestName, workers, packages) =>
        { destination, manifestName, workers, packages }

end Settings

end Rehome
