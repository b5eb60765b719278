import LispCore.Diagnostic
import LispCore.Documents
import LispCore.Failure
import LispCore.FileTree
import LispCore.Number.Binary64
import LispCore.Number.Numeral
import LispCore.Number.Radix
import LispCore.Number.Rounding
import LispCore.Number.Shortest
import LispCore.Path
import LispCore.Proofs.Diagnostic.Agreement
import LispCore.Proofs.Diagnostic.Extent
import LispCore.Proofs.Documents.Publication
import LispCore.Proofs.Number.Printed
import LispCore.Proofs.Reader.Acceptance
import LispCore.Proofs.Reader.EntryPoints
import LispCore.Proofs.Reader.Fault
import LispCore.Proofs.Reader.Grammar
import LispCore.Proofs.Reader.Increment
import LispCore.Proofs.Reader.Integer
import LispCore.Proofs.Reader.Literal
import LispCore.Proofs.Reader.Naming
import LispCore.Proofs.Reader.Prefix
import LispCore.Proofs.Reader.Rejection
import LispCore.Proofs.Reader.Relayout
import LispCore.Proofs.Reader.RoundTrip
import LispCore.Proofs.Reader.Run
import LispCore.Proofs.Reader.Sugar
import LispCore.Proofs.Reader.WellFormed
import LispCore.Proofs.Session.Channels
import LispCore.Proofs.Session.Coroutines
import LispCore.Proofs.Session.Isolation
import LispCore.Proofs.Session.Latest
import LispCore.Proofs.Session.Loading
import LispCore.Proofs.Source.Location
import LispCore.Proofs.Source.Lookup
import LispCore.Proofs.Source.Saved
import LispCore.Proofs.Text.LineEnds
import LispCore.Proofs.Token.Cursor
import LispCore.Proofs.Token.Layout
import LispCore.Proofs.Value.Canonical
import LispCore.Proofs.Value.Same
import LispCore.Proofs.Value.Sequence
import LispCore.Proofs.Value.Visit
import LispCore.Reader.Form
import LispCore.Reader.Literal
import LispCore.Reader.Program
import LispCore.Session.Bindings
import LispCore.Session.Call
import LispCore.Session.Error
import LispCore.Session.Host
import LispCore.Session.Lisp
import LispCore.Session.Run
import LispCore.Session.Store
import LispCore.Source
import LispCore.Symbol
import LispCore.Text.Blank
import LispCore.Text.DecimalDigit
import LispCore.Text.Newline
import LispCore.Text.Printable
import LispCore.Text.Quoted
import LispCore.Text.Split
import LispCore.Token
import LispCore.Token.Atom
import LispCore.Token.Lexer
import LispCore.Token.Literal
import LispCore.Token.Stream
import LispCore.Value
import LispCore.Value.List
import LispCore.Value.Printer
