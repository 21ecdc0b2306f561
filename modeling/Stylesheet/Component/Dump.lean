import Stylesheet.Component.Tree
import Stylesheet.Error
import Stylesheet.Text.Literal
import Stylesheet.Token.Basic

/-!
A tree as text: one line for each component, indented by its depth, with the text of every
leaf.
-/

namespace Stylesheet

open Stylesheet.Text

/-- The text of the token at a component that is a leaf. -/
def Component.leafText? (s : Source) (c : Component) : Except SourceError (Option (List Char)) :=
  if c.kind.isComposite then return none
  else do
    let t ← s.tokenAt c.location
    return some (← s.slice t.start t.stop)

/-- The line for a component; `leaf` is its text if it is a leaf. -/
def Component.line (c : Component) (depth : Nat) (leaf : Option (List Char)) : List Char :=
  let extra := if c.extra = 0 then [] else " extra=".toList ++ Nat.toDigits 10 c.extra
  let text := match leaf with
    | some cs => ' ' :: literal cs
    | none => []
  List.replicate (2 * depth) ' ' ++ c.kind.name.toList ++ '@' :: Nat.toDigits 10 c.location ++
    extra ++ text ++ ['\n']

namespace ComponentTree

variable (t : ComponentTree) (s : Source)

def dumpLine (index depth : Nat) : Except Error (List Char) := do
  let c ← (t.get index).mapError Error.tree
  let leaf ← (c.leafText? s).mapError Error.source
  return c.line depth leaf

def dump : Except Error (List Char) := do
  let walk ← (t.preorder 0).mapError Error.tree
  let lines ← walk.mapM fun (index, depth) => t.dumpLine s index depth
  return lines.flatten

end ComponentTree

end Stylesheet
