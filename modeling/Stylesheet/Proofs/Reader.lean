import Mathlib.Data.List.Destutter
import Stylesheet.Proofs.Tiling
import Stylesheet.Structure.Parse

/-!
Reading a text turn by turn. A reader holds a lexer, the machine and the problems found so far; in
each turn it reads one token and gives it to the innermost frame. The first token of a qualified
rule is handed back to the lexer, so that the rule reads it again as part of its prelude, and its
error is then met twice. Frames know where they were opened, and the token there is read anew when
a problem is reported.
-/

namespace Stylesheet

def Source.tokenSpan (s : Source) (location : ℕ) : Except SourceError Span := do
  let t ← s.tokenAt location
  match Span.between? location t.stop with
  | some span => return span
  | none => throw (.badSlice location t.stop)

/-- A lexical error as a finding at its token. -/
def Source.lexicalFinding (s : Source) (e : LexError) : Except SourceError Finding := do
  let span ← s.tokenSpan e.location
  return ⟨.lexical e.kind, span⟩

namespace Lexer

def nextMaterial (l : Lexer) : Token × Lexer :=
  if l.next.1.kind = .comments then nextMaterial l.next.2 else l.next
termination_by l.source.text.length - l.source.location
decreasing_by
  have hlt : l.source.location < l.source.text.length := by
    rw [← Nat.not_le, ← Source.token_eof_iff]
    intro heof
    simp_all [next]
  have hstop := Source.lt_token_stop hlt
  change l.source.text.length - l.source.token.stop < _
  omega

end Lexer

/-- What is wrong with a frame that is open at the end of the text, and where it was opened. -/
def Frame.complaint : Frame → Option (Problem × ℕ)
  | .ruleList _ => none
  | .atRule t => some (.unclosedAtRule, t.start)
  | .qualifiedRule t => some (.missingBlock, t.start)
  | .block t bracket _ => some (.unclosedBlock bracket, t.start)
  | .function t => some (.unclosedFunction, t.start)

namespace Machine

def abandon (m : Machine) : Except TreeError Machine := do
  let b ← m.builder.abandonNode
  return ⟨b, m.stack.tail⟩

def closeFrame (m : Machine) : Frame → Except TreeError Machine
  | .ruleList _ => m.pop
  | .atRule _ => m.pop
  | .qualifiedRule _ => m.abandon
  | .block _ _ attached => m.popBlock attached
  | .function _ => m.pop

end Machine

structure Reader where
  lexer : Lexer
  machine : Machine
  findings : List Finding

namespace Reader

def start (s : Source) (list : ListKind) : Except Error Reader := do
  let m ← (Machine.start list s.location).mapError .tree
  return ⟨.ofSource s, m, []⟩

variable (r : Reader)

def complain (frame : Frame) : Except SourceError (List Finding) :=
  match frame.complaint with
  | none => return []
  | some (problem, location) => do
    let span ← r.lexer.source.tokenSpan location
    return [⟨problem, span⟩]

def atEnd (frame : Frame) : Except Error Reader := do
  let found ← (r.complain frame).mapError .source
  let m ← (r.machine.closeFrame frame).mapError .tree
  return { r with machine := m, findings := r.findings ++ found }

/-- A token in a frame. The list of rules hands the first token of a qualified rule back. -/
def take (frame : Frame) (t : Token) : Except Error Reader :=
  match frame with
  | .ruleList list =>
    if list.ignores t.kind then return r
    else if t.kind = .atKeyword then do
      let m ← (r.machine.push (.atRule t) .atRule t.start).mapError .tree
      return { r with machine := m }
    else do
      let l ← (r.lexer.seek t.start).mapError .source
      let m ← (r.machine.push (.qualifiedRule t) .qualifiedRule t.start).mapError .tree
      return { r with lexer := l, machine := m }
  | _ => do
    let m ← (r.machine.feed t).mapError .tree
    return { r with machine := m }

/-- One turn: a token is read and goes to the innermost frame. When no frame is left, reading
is over and the reader stays as it is. -/
def turn : Except Error Reader :=
  match r.machine.stack with
  | [] => return r
  | frame :: _ =>
    let (t, l) := r.lexer.nextMaterial
    let r := { r with lexer := l }
    if t.kind = .eof then r.atEnd frame else r.take frame t

/-- Errors come in the order of their places, and at one place in the order of their kinds. -/
def inOrder (e f : LexError) : Bool :=
  e.location < f.location || (e.location = f.location && e.kind.ctorIdx ≤ f.kind.ctorIdx)

/-- The result when no frame is left. An error that was met twice counts once. -/
def finish : Except Error Parse := do
  let errors := (r.lexer.errors.mergeSort inOrder).destutter (· ≠ ·)
  let lexical ← (errors.mapM r.lexer.source.lexicalFinding).mapError .source
  let tree ← r.machine.builder.finish.mapError .tree
  let tree ← (ComponentTree.ofTree tree).mapError .tree
  return ⟨tree, sortFindings (r.findings ++ lexical)⟩

def after (s : Source) (list : ListKind) : ℕ → Except Error Reader
  | 0 => start s list
  | n + 1 => do
    let r ← after s list n
    r.turn

/-- Reads a whole text turn by turn. The number of turns is one that is always enough. -/
def read (s : Source) (list : ListKind) : Except Error Parse := do
  let r ← after s list (4 * (s.text.length - s.location) + 3)
  r.finish

end Reader

end Stylesheet
