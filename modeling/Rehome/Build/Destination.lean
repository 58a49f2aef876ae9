import Rehome.Program

/-! The destination of a build. It must not share a tree with any source, because it is removed
before anything is written. -/

namespace Rehome.Build

def checkSource (destination real : Text) (p : Package) : Action Unit := do
  let source ← Action.realPath p.sourceDir
  if Path.overlaps? real source = some true then throw (.overlap destination p)

def checkDestination (packages : List Package) (destination manifestName : Text) : Action Unit := do
  if Manifest.isPlainName manifestName then
    let real ← Action.realPath destination
    packages.forM (checkSource destination real)
  else throw (.badManifestName manifestName)

/-- Removes what an earlier build left. -/
def cleanDestination (destination : Text) : Action Unit := do
  if ← Action.isDirectory destination then
    Action.log .info ("Removing previous output ".toList ++ destination)
    Action.removeTree destination

end Rehome.Build
