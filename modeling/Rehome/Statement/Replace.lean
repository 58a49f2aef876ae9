import Rehome.Reference
import Rehome.Statement.Basic

/-! Replacing the modules that statements name. One pass per shape goes through a text from its
start and replaces the module of each statement it meets; what lies between the statements stays. -/

namespace Rehome.Statement

/-- Every statement of one shape, met from the left and not inside another, names `f m` in place of
the module `m` that it names in `t`. -/
def Shape.mapModules (s : Shape) (f : Text → Text) (t : Text) : Text :=
  match h : s.find? t with
  | some g =>
    have := g.length_rest_lt
    have := Faithful.find s h
    g.lead ++ f g.module ++ g.quote :: s.mapModules f g.rest
  | none =>
    match t with
    | [] => []
    | c :: t => c :: s.mapModules f t
termination_by t.length
decreasing_by all_goals simp_all

/-- Module references resolved against `current`: first imports with bindings, then bare imports,
then exports. A later pass sees what the earlier ones left. -/
def resolveAll (current t : Text) : Text :=
  [Shape.importFrom, .importBare, .exportFrom].foldl
    (fun t s => s.mapModules (Reference.resolve current) t) t

/-- `t` as the body of a block that declares the module `name`. -/
def declareModule (name t : Text) : Text :=
  "declare module '".toList ++ name ++ "' \x7b\n".toList ++ t ++ "\n\x7d".toList

/-- The text of a declaration file in its new place. -/
def rehome (current name t : Text) : Text := declareModule name (resolveAll current t)

end Rehome.Statement
