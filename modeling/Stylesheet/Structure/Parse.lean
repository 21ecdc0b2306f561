import Stylesheet.Diagnostic
import Stylesheet.Error
import Stylesheet.Structure.Machine

/-!
Parsing a text: the tree of its components and all the problems in it, in the order of the
places they are found at. Parsing goes on past every problem.
-/

namespace Stylesheet

structure Parse where
  tree : ComponentTree
  findings : List Finding

/-- Puts a finding before the first that starts no earlier. -/
def insertFinding (f : Finding) : List Finding → List Finding
  | [] => [f]
  | g :: gs => if f.span.start ≤ g.span.start then f :: g :: gs else g :: insertFinding f gs

/-- Orders findings by where they start; those that start together keep their order. -/
def sortFindings (fs : List Finding) : List Finding := fs.foldr insertFinding []

namespace Source

variable (s : Source)

/-- Parses from here to the end of the text. -/
def parse (list : ListKind) : Except TreeError Parse := do
  let m ← Machine.start list s.location
  let m ← m.run (s.tokens.filter fun t => t.kind ≠ .comments)
  let (b, structural) ← unwind m.stack m.builder
  let tree ← ComponentTree.ofTree (← b.finish)
  return ⟨tree, sortFindings (structural ++ s.tokens.filterMap Token.finding?)⟩

end Source

namespace Parse

variable (p : Parse)

def diagnostics : List Diagnostic := p.findings.map Finding.diagnostic

/-- Where qualified rules were dropped. -/
def dropped : List Nat :=
  (p.findings.filter fun f => f.problem = .missingBlock).map fun f => f.span.start

/-- The log of a parse of the source: a line for each dropped rule and one for the result. -/
def log (s : Source) (list : ListKind) : List String :=
  let len := s.text.length
  let kind := list.name
  let scope := s!"parse_source\x7blen={len} kind={kind}\x7d"
  let components := p.tree.size
  let problems := p.findings.length
  let counts := s!"components={components} diagnostics={problems}"
  (p.dropped.map fun offset =>
    s!"TRACE {scope}: vellum_parse::parser: discarding qualified rule offset={offset}") ++
  [s!"DEBUG {scope}: vellum_parse: parsed rule list {counts}"]

end Parse

end Stylesheet
