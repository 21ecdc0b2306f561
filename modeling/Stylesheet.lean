import Stylesheet.Text.CodePoint
import Stylesheet.Text.Class
import Stylesheet.Text.Piece
import Stylesheet.Text.Escape
import Stylesheet.Text.Name
import Stylesheet.Text.Quoted
import Stylesheet.Text.Url
import Stylesheet.Text.Comment
import Stylesheet.Text.Number
import Stylesheet.Text.Literal
import Stylesheet.Source
import Stylesheet.Token.Kind
import Stylesheet.Token.Lexeme
import Stylesheet.Token.Basic
import Stylesheet.Token.Value
import Stylesheet.Token.Lexer
import Stylesheet.Tree.Basic
import Stylesheet.Tree.Cursor
import Stylesheet.Tree.Walk
import Stylesheet.Tree.SkipTree
import Stylesheet.Tree.Builder
import Stylesheet.Tree.Sparse
import Stylesheet.Error
import Stylesheet.Component.Kind
import Stylesheet.Component.Tree
import Stylesheet.Component.Dump
import Stylesheet.Component.Value
import Stylesheet.Structure.Frame
import Stylesheet.Structure.Machine
import Stylesheet.Diagnostic
import Stylesheet.Diagnostic.Row
import Stylesheet.Diagnostic.Snippet
import Stylesheet.Structure.Parse
import Stylesheet.Command
import Stylesheet.Main
import Stylesheet.Proofs.Progress
import Stylesheet.Proofs.Tiling
import Stylesheet.Proofs.Draft
import Stylesheet.Proofs.Descent
import Stylesheet.Proofs.Levels
import Stylesheet.Proofs.Simulation
import Stylesheet.Proofs.Findings
import Stylesheet.Proofs.Refinement
import Stylesheet.Proofs.Reader
import Stylesheet.Proofs.Nesting
import Stylesheet.Proofs.Totality
import Stylesheet.Proofs.Linear
import Stylesheet.Proofs.Subtrees
import Stylesheet.Proofs.Arrays
import Stylesheet.Proofs.Growth
import Stylesheet.Proofs.Calls
import Stylesheet.Proofs.Overlay
import Stylesheet.Proofs.Placement
import Stylesheet.Proofs.Mirror
import Stylesheet.Proofs.Shape
import Stylesheet.Proofs.Report
import Stylesheet.Proofs.Grammar
import Stylesheet.Proofs.Edits
import Stylesheet.Proofs.Journal
import Stylesheet.Proofs.Replay
import Stylesheet.Proofs.Lookahead
import Stylesheet.Proofs.Seam
import Stylesheet.Proofs.Splice
import Stylesheet.Proofs.Relocation
import Stylesheet.Proofs.Cutting
import Stylesheet.Proofs.Comments
import Stylesheet.Proofs.Correspondence
import Stylesheet.Proofs.Newlines
import Stylesheet.Proofs.Closers
import Stylesheet.Proofs.Restart
import Stylesheet.Proofs.Seeking
import Stylesheet.Proofs.Room
import Stylesheet.Proofs.Dropping
import Stylesheet.Proofs.Outline
import Stylesheet.Proofs.Quoting
import Stylesheet.Proofs.Anchors
import Stylesheet.Proofs.Cursors
import Stylesheet.Proofs.Navigation
import Stylesheet.Proofs.Lookup
import Stylesheet.Proofs.Contents
import Stylesheet.Proofs.Naming
import Stylesheet.Proofs.Numerals
import Stylesheet.Proofs.Escaping
import Stylesheet.Proofs.Faults
import Stylesheet.Proofs.Bodies
import Stylesheet.Proofs.Scanner
import Stylesheet.Proofs.Scanning
import Stylesheet.Proofs.Decoding
import Stylesheet.Proofs.Identifiers
import Stylesheet.Proofs.Listing
import Stylesheet.Proofs.Terminators
