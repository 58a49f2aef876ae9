import Rehome.Path.Basic

/-! Module references. A relative reference is resolved against the current path of the file that
holds it, the path of the file's module under its namespace. -/

namespace Rehome.Reference

def isRelative (ref : Text) : Bool := ref.head? = some '.'

/-- The module that `ref` names in the file at `current`. The last segment of `current` is the file
itself and is left first. A slash at the end of the reference stays, and references that climb above
the namespace keep their `..`. -/
def resolve (current ref : Text) : Text :=
  if isRelative ref then
    let ref := ref.slashed
    let target := Path.normalize (Path.join (Path.join current Path.up) ref)
    if Path.endsInSlash ref && !Path.endsInSlash target then target ++ ['/'] else target
  else ref

end Rehome.Reference
