import Stylesheet.Component.Dump
import Stylesheet.Diagnostic.Snippet
import Stylesheet.Structure.Parse

/-!
The commands of the command line: list the tokens of a file, show its tree, or check it. What
a command prints is a function of the file's contents.
-/

namespace Stylesheet

open Stylesheet.Text

inductive Command
  | tokens | tree | check
  deriving DecidableEq, Repr

def Command.ofName? : String → Option Command
  | "tokens" => some .tokens
  | "tree" => some .tree
  | "check" => some .check
  | _ => none

/-- Why a file cannot be read. -/
inductive ReadError
  | notFound
  | notText
  | other (reason : String)
  deriving DecidableEq, Repr

def ReadError.message : ReadError → String
  | .notFound => "No such file or directory (os error 2)"
  | .notText => "stream did not contain valid UTF-8"
  | .other reason => reason

def decodeFile (bytes : ByteArray) : Except ReadError String :=
  match String.fromUTF8? bytes with
  | some text => .ok text
  | none => .error .notText

/-- What a command leaves behind. -/
structure Outcome where
  exit : Nat
  stdout : String
  stderr : String
  deriving DecidableEq, Repr

/-- Why a command stops before its work: what it tried and what went wrong. -/
structure Failure where
  context : String
  cause : String
  deriving DecidableEq, Repr

/-- What was tried on a file, and why it did not work. -/
def Failure.onFile (attempt path cause : String) : Failure := ⟨s!"{attempt} `{path}`", cause⟩

def Failure.outcome (f : Failure) : Outcome :=
  ⟨1, "", "Error: " ++ f.context ++ "\n\nCaused by:\n    " ++ f.cause ++ "\n"⟩

/-- The line for a token: kind, place and text. -/
def Token.line (s : Source) (t : Token) : String :=
  let text := (s.text.drop t.start).take (t.stop - t.start)
  t.kind.name ++ "@" ++ toString t.start ++ ".." ++ toString t.stop ++ " " ++
    String.ofList (literal text) ++ "\n"

/-- The diagnostics of a parse, each rendered on lines of its own. -/
def Parse.report (p : Parse) (path : String) (s : Source) : String :=
  String.join (p.diagnostics.map fun d => d.render .ansi path s.text ++ "\n")

namespace Command

/-- The work of a command on a text that could be opened. -/
def work (c : Command) (path : String) (s : Source) : Except Failure Outcome := do
  let parsed := (s.parse .topLevel).mapError fun e => .onFile "failed to parse" path e.message
  match c with
  | .tokens => return ⟨0, String.join (s.tokens.map (Token.line s)), ""⟩
  | .tree =>
    let p ← parsed
    let dump ← (p.tree.dump s).mapError fun e => .onFile "failed to show" path e.message
    return ⟨0, String.ofList dump, p.report path s⟩
  | .check =>
    let p ← parsed
    let count := p.findings.length
    if count = 0 then return ⟨0, "", p.report path s⟩
    else
      return ⟨1, "", p.report path s ++ s!"Error: found {count} problem(s) in `{path}`\n"⟩

/-- Runs a command on a file with the given contents. -/
def run (c : Command) (path : String) (contents : Except ReadError String) : Outcome :=
  let outcome : Except Failure Outcome := do
    let text ← contents.mapError fun e => .onFile "failed to read" path e.message
    let s ← (Source.ofString text).mapError fun e => .onFile "cannot tokenize" path e.message
    c.work path s
  match outcome with
  | .ok o => o
  | .error f => f.outcome

end Command

end Stylesheet
