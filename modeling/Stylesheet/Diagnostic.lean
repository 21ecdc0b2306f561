import Stylesheet.Structure.Frame

/-!
Problems as they are told to a user: a message and the stretch of text it is about.
-/

namespace Stylesheet

structure Diagnostic where
  message : String
  span : Span
  deriving DecidableEq, Repr

def Finding.diagnostic (f : Finding) : Diagnostic := ⟨f.problem.message, f.span⟩

end Stylesheet
