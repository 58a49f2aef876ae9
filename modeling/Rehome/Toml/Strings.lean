import Rehome.Toml.Scan

/-! Strings. Literal strings, between single quotes, hold what is written; basic strings, between
double quotes, have escapes. Both come on one line or, with tripled quotes, on several. -/

namespace Rehome.Toml

/-- What a string may not hold, depending on whether it may hold line feeds. -/
def isBarred (multiline : Bool) (c : Char) : Bool := isControl c && !(multiline && c = '\n')

/-- A Unicode scalar value of `width` hexadecimal digits. -/
def scalar (width : Nat) : Scan Char := fun t =>
  match (t.take width).mapM Text.hexValue? with
  | some ds =>
    let n := Text.numeral 16 ds
    if ds.length = width ∧ n.isValidChar then .ok (Char.ofNat n, t.drop width)
    else .error .malformed
  | none => .error .malformed

/-- A line feed after nothing but blanks, and the white space that follows it. -/
def skipLineEnd : Scan Unit := fun t =>
  match skipBlanks t with
  | [] => .ok ((), [])
  | '\n' :: t => .ok ((), t.dropWhile fun c => isBlank c ∨ c = '\n')
  | _ => .error .malformed

/-- What the part of an escape after its backslash stands for. In a string on several lines the end
of a line may be escaped. -/
def escape (multiline : Bool) : Scan Text
  | 'b' :: t => .ok (['\x08'], t)
  | 't' :: t => .ok (['\t'], t)
  | 'n' :: t => .ok (['\n'], t)
  | 'f' :: t => .ok (['\x0c'], t)
  | 'r' :: t => .ok (['\r'], t)
  | '"' :: t => .ok (['"'], t)
  | '\\' :: t => .ok (['\\'], t)
  | 'u' :: t => (scalar 4 t).map fun (c, t) => ([c], t)
  | 'U' :: t => (scalar 8 t).map fun (c, t) => ([c], t)
  | c :: t =>
    if multiline ∧ (isBlank c ∨ c = '\n') then (skipLineEnd (c :: t)).map fun (_, t) => ([], t)
    else .error .malformed
  | [] => .error .malformed

/-- The rest of a basic string. -/
def basic (multiline : Bool) (t : Text) : Except Error (Text × Text) :=
  match t with
  | [] => .error .malformed
  | '"' :: t =>
    if multiline then
      match t with
      | '"' :: '"' :: t => .ok ([], t)
      | t => (basic multiline t).map fun (s, t) => ('"' :: s, t)
    else .ok ([], t)
  | '\\' :: t => do
    let ⟨(u, r), _⟩ ← took ('\\' :: t) (escape multiline t)
    let (s, r) ← basic multiline r
    return (u ++ s, r)
  | c :: t =>
    if isBarred multiline c then .error .malformed
    else (basic multiline t).map fun (s, t) => (c :: s, t)
termination_by t.length
decreasing_by
  · exact Nat.lt_succ_self _
  · assumption
  · exact Nat.lt_succ_self _

/-- The rest of a literal string. -/
def literal (multiline : Bool) : Scan Text
  | [] => .error .malformed
  | c :: t =>
    if c = '\'' then
      if multiline then
        match Text.afterPrefix? ['\'', '\''] t with
        | some r => .ok ([], r)
        | none => (literal multiline t).map fun (s, t) => ('\'' :: s, t)
      else .ok ([], t)
    else if isBarred multiline c then .error .malformed
    else (literal multiline t).map fun (s, t) => (c :: s, t)

/-- The line feed right after an opening tripled quote does not count. -/
def dropFirstLineEnd : Text → Text
  | '\n' :: t => t
  | t => t

/-- At most two more quotes right after the closing ones belong to the string. -/
def withLateQuotes (mark : Char) : Text × Text → Text × Text
  | (s, t) =>
    match t with
    | c :: d :: r =>
      if c = mark then if d = mark then (s ++ [c, d], r) else (s ++ [c], d :: r) else (s, t)
    | [c] => if c = mark then (s ++ [c], []) else (s, t)
    | [] => (s, t)

/-- A string on one line, the only kind that may be a key. -/
def lineString : Scan Text
  | '"' :: t => basic false t
  | '\'' :: t => literal false t
  | _ => .error .malformed

/-- A string of any kind. -/
def string : Scan Text
  | '"' :: '"' :: '"' :: t => (basic true (dropFirstLineEnd t)).map (withLateQuotes '"')
  | '\'' :: '\'' :: '\'' :: t => (literal true (dropFirstLineEnd t)).map (withLateQuotes '\'')
  | t => lineString t

end Rehome.Toml
