import Stylesheet.Component.Tree
import Stylesheet.Structure.Frame
import Stylesheet.Tree.Builder

/-!
Reading tokens into a tree without recursion. The machine keeps the open components on a stack,
each with its open node in the builder, and gives every token to the innermost one. At the end
of the text what is still open is closed from the inside out, with one finding for each; a
qualified rule that has no block by then is dropped.
-/

namespace Stylesheet

abbrev ComponentBuilder := Builder componentCapacity Component

structure Machine where
  builder : ComponentBuilder
  stack : List Frame
  deriving DecidableEq, Repr

/-- Closes a block and, if it is attached, its rule, which then knows where its block is. -/
def closeBlock (b : ComponentBuilder) (attached : Bool) : Except TreeError ComponentBuilder := do
  let (block, b) ← b.finishNode
  if attached then
    let (rule, b) ← b.finishNode
    b.modifyValue rule fun c => { c with extra := block - rule }
  else return b

namespace Machine

variable (m : Machine)

def push (f : Frame) (kind : ComponentKind) (location : Nat) : Except TreeError Machine := do
  let (_, b) ← m.builder.startNode ⟨kind, location, 0⟩
  return ⟨b, f :: m.stack⟩

def pop : Except TreeError Machine := do
  let (_, b) ← m.builder.finishNode
  return ⟨b, m.stack.tail⟩

/-- Closes a block, with its rule if it is attached to one. -/
def popBlock (attached : Bool) : Except TreeError Machine := do
  let b ← closeBlock m.builder attached
  return ⟨b, m.stack.drop (if attached then 2 else 1)⟩

def start (list : ListKind) (location : Nat) : Except TreeError Machine :=
  push ⟨.empty, []⟩ (.ruleList list) .ruleList location

/-- Takes a token as a component value: it opens a block or a function, or is a leaf. -/
def value (t : Token) : Except TreeError Machine :=
  match Bracket.ofOpener? t.kind with
  | some bracket => m.push (.block t bracket false) bracket.block t.start
  | none =>
    if t.kind = .function then m.push (.function t) .function t.start
    else
      match ComponentKind.ofToken? t.kind with
      | some kind => do
        let (_, b) ← m.builder.leaf ⟨kind, t.start, 0⟩
        return { m with builder := b }
      | none => throw (.strayToken t.kind.name)

/-- Takes a token in the prelude of a rule, where a brace opens the rule's block. -/
def preludeValue (t : Token) : Except TreeError Machine :=
  if t.kind = .leftBrace then m.push (.block t .curly true) .curlyBlock t.start else m.value t

/-- Gives a token to the innermost open component. The first token of a qualified rule is
already part of its prelude. -/
def feed (t : Token) : Except TreeError Machine :=
  match m.stack with
  | [] => return m
  | .ruleList list :: _ =>
    if list.ignores t.kind then return m
    else if t.kind = .atKeyword then m.push (.atRule t) .atRule t.start
    else do
      let m ← m.push (.qualifiedRule t) .qualifiedRule t.start
      m.preludeValue t
  | .atRule _ :: _ => if t.kind = .semicolon then m.pop else m.preludeValue t
  | .qualifiedRule _ :: _ => m.preludeValue t
  | .block _ bracket attached :: _ =>
    if t.kind = bracket.closer then m.popBlock attached else m.value t
  | .function _ :: _ => if t.kind = .rightParen then m.pop else m.value t

/-- Feeds tokens one after the other. -/
def run : Machine → List Token → Except TreeError Machine
  | m, [] => return m
  | m, t :: ts => do
    let m ← m.feed t
    m.run ts

@[simp] theorem run_nil (m : Machine) : m.run [] = .ok m := rfl
@[simp] theorem run_cons (m : Machine) (t : Token) (ts : List Token) :
    m.run (t :: ts) = m.feed t >>= fun m => m.run ts := rfl

end Machine

/-- Closes the open components at the end of the text, innermost first. -/
def unwind : List Frame → ComponentBuilder → Except TreeError (ComponentBuilder × List Finding)
  | [], b => return (b, [])
  | .ruleList _ :: stack, b => do
    let (_, b) ← b.finishNode
    unwind stack b
  | .atRule t :: stack, b => do
    let (_, b) ← b.finishNode
    let (b, fs) ← unwind stack b
    return (b, ⟨.unclosedAtRule, t.span⟩ :: fs)
  | .qualifiedRule t :: stack, b => do
    let b ← b.abandonNode
    let (b, fs) ← unwind stack b
    return (b, ⟨.missingBlock, t.span⟩ :: fs)
  | .function t :: stack, b => do
    let (_, b) ← b.finishNode
    let (b, fs) ← unwind stack b
    return (b, ⟨.unclosedFunction, t.span⟩ :: fs)
  | .block t bracket true :: _ :: stack, b => do
    let b ← closeBlock b true
    let (b, fs) ← unwind stack b
    return (b, ⟨.unclosedBlock bracket, t.span⟩ :: fs)
  | .block t bracket attached :: stack, b => do
    let b ← closeBlock b attached
    let (b, fs) ← unwind stack b
    return (b, ⟨.unclosedBlock bracket, t.span⟩ :: fs)

end Stylesheet
