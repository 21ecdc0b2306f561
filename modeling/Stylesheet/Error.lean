import Stylesheet.Source
import Stylesheet.Tree.Basic

/-!
The errors of operations that read a text and walk or build a tree.
-/

namespace Stylesheet

inductive Error
  | source (e : SourceError)
  | tree (e : TreeError)
  deriving DecidableEq, Repr

def Error.message : Error → String
  | .source e => e.message
  | .tree e => e.message

end Stylesheet
