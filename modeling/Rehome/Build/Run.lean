import Rehome.Build.Destination
import Rehome.Build.Output
import Rehome.Settings.Basic
import Rehome.Statement.Replace

/-! Builds. The files of each package are copied to their new places, package after package, and the
manifest is written last. -/

namespace Rehome

/-- What a build leaves. -/
structure Build where
  destination : Text
  manifestPath : Text
  entries : List Manifest.Entry
  deriving DecidableEq

namespace Build

/-- The declaration files of a directory, in order, by their paths from there. These are found by
comparing absolute paths, so for a directory that is named from the working directory, and holds such
a file, there has to be a working directory. -/
def scan (dir : Text) : Action (List Text) := do
  if ← Action.isDirectory dir then
    let files ← Action.files dir
    let named := files.filter fun names => names.getLast?.any Declaration.isFile
    if named ≠ [] ∧ !Path.isAbsolute dir then discard Action.workingDirectory
    return Text.sort (named.map fun names => (Path.ofSegments names).slashed)
  else throw (.noSource dir)

/-- Copies one file of a package to its new place. -/
def prepare (p : Package) (destination rel : Text) : Action Declaration := do
  let t ← Action.read (Path.join p.sourceDir rel)
  let d := Declaration.place p.home rel p.rootFile []
  let d := { d with text := Statement.rehome d.currentPath d.modulePath t }
  writeText (Path.join (Path.join destination p.home) rel) d.text
  Action.log .debug ("Rewrote ".toList ++ rel ++ " as ".toList ++ d.modulePath)
  return d

/-- The files of a package, copied one after the other up to the first that fails. Of workers that copy them at the
same time this is one course, and `Concurrent.buildPackage` tells of all. -/
def buildPackage (destination : Text) (workers : Int) (p : Package) :
    Action (List Manifest.Entry) := do
  let rels ← scan p.sourceDir
  Action.log .info ("Package ".toList ++ p.home ++ ": ".toList ++ Text.ofNat rels.length ++
    " declaration files in ".toList ++ p.sourceDir)
  if workers < 1 then throw .noWorkers
  let ds ← rels.mapM (prepare p destination)
  return ds.map fun d => Manifest.entry d.home d.relPath

/-- The entries `es` and after them those of one more package, as long as no key comes twice. -/
def addEntries (es : List Manifest.Entry) : List Manifest.Entry → Action (List Manifest.Entry)
  | [] => return es
  | e :: more =>
    if e.key ∈ es.map (·.key) then throw (.duplicateKey e.key) else addEntries (es ++ [e]) more

def buildPackages (destination : Text) (workers : Int) (ps : List Package) :
    Action (List Manifest.Entry) :=
  ps.foldlM (fun es p => do addEntries es (← buildPackage destination workers p)) []

/-- A build as the settings ask for, seen from the working directory `cwd`. -/
def run (cwd : Text) (s : Settings) : Action Build := do
  let destination := Path.absolute cwd s.destination
  checkDestination s.packages destination s.manifestName
  cleanDestination destination
  let entries ← buildPackages destination s.workers s.packages
  let manifestPath := Path.join destination s.manifestName
  writeText manifestPath (Manifest.render entries)
  Action.log .info ("Wrote manifest with ".toList ++ Text.ofNat entries.length ++
    " entries to ".toList ++ manifestPath)
  return { destination, manifestPath, entries }

end Build

end Rehome
