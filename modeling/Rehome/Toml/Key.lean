import Rehome.Toml.Strings

/-! Keys, which are bare words or strings on one line, and dotted paths of them. -/

namespace Rehome.Toml

def isKeyChar (c : Char) : Bool :=
  Text.isAsciiDigit c || ('a' ≤ c && c ≤ 'z') || ('A' ≤ c && c ≤ 'Z') || c = '-' || c = '_'

def keyPart : Scan Text := fun t =>
  match t.takeWhile isKeyChar with
  | [] => lineString t
  | word => .ok (word, t.dropWhile isKeyChar)

/-- A path of keys with dots between them, and the blanks after it. -/
def key (t : Text) : Except Error (List Text × Text) := do
  let ⟨(k, r), _⟩ ← took t (keyPart t)
  match skipBlanks r with
  | '.' :: r =>
    let ⟨(_, r), _⟩ ← took t (.ok ((), skipBlanks r))
    let (ks, r) ← key r
    return (k :: ks, r)
  | r => return ([k], r)
termination_by t.length

end Rehome.Toml
