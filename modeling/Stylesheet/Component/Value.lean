import Stylesheet.Component.Tree
import Stylesheet.Token.Value

/-!
What a component says, read from the text it was parsed from.
-/

namespace Stylesheet

/-- The value of the token a component starts at. A component that starts at no token of its
own has none. -/
def Component.value (s : Source) (c : Component) : Except SourceError (Option (List Char)) :=
  match c.kind.tokenKind? with
  | some kind => s.valueAt kind c.location
  | none => .ok none

end Stylesheet
