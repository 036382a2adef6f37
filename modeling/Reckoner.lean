import Reckoner.Api
import Reckoner.Command
import Reckoner.Command.Flags
import Reckoner.Command.Run
import Reckoner.Diagnostic
import Reckoner.Evaluation
import Reckoner.Fault
import Reckoner.Files
import Reckoner.History
import Reckoner.Http
import Reckoner.Json
import Reckoner.Json.Reader
import Reckoner.Main
import Reckoner.Markup
import Reckoner.Moment
import Reckoner.Number.Decimal
import Reckoner.Number.Double
import Reckoner.Number.Integer
import Reckoner.Number.Layout
import Reckoner.Number.Shortest
import Reckoner.Page
import Reckoner.Path
import Reckoner.Prompt
import Reckoner.Proofs.Grammar
import Reckoner.Rpc
import Reckoner.Session
import Reckoner.Settings
import Reckoner.Settings.Load
import Reckoner.Store
import Reckoner.Suite
import Reckoner.Suite.Load
import Reckoner.Text.Blank
import Reckoner.Text.Bytes
import Reckoner.Text.Control
import Reckoner.Text.Excerpt
import Reckoner.Text.Printable
import Reckoner.Text.Quoted
import Reckoner.Text.Utf8
import Reckoner.Token
import Reckoner.Token.Scan
import Reckoner.Tree
import Reckoner.Tree.Eval
import Reckoner.Tree.Parse
import Reckoner.Value
import Reckoner.Yaml.Fields
import Reckoner.Yaml.Mark
import Reckoner.Yaml.Meaning
import Reckoner.Yaml.Node
import Reckoner.Yaml.Scalar
import Reckoner.Yaml.Token
import Reckoner.Proofs.Reading
import Reckoner.Proofs.Program
import Reckoner.Proofs.Recovery
import Reckoner.Proofs.Utf8
import Reckoner.Proofs.Munch
import Reckoner.Proofs.Scanning
import Reckoner.Proofs.Gaps
import Reckoner.Proofs.Lines
import Reckoner.Proofs.Newline
import Reckoner.Proofs.Typing
import Reckoner.Proofs.Joining
import Reckoner.Proofs.Retention
import Reckoner.Proofs.Layout
import Reckoner.Proofs.Origin
import Reckoner.Proofs.Anchors
import Reckoner.Proofs.Checked
import Reckoner.Proofs.Validity
import Reckoner.Proofs.Bodies
import Reckoner.Proofs.Fronts
import Reckoner.Proofs.Messages
import Reckoner.Proofs.Traffic
import Reckoner.Proofs.Lookup
import Reckoner.Proofs.Interleaving
import Reckoner.Proofs.Cursor
import Reckoner.Proofs.Descent
import Reckoner.Proofs.EndMarks
import Reckoner.Proofs.Turns
import Reckoner.Proofs.Interruption
import Reckoner.Proofs.Single
import Reckoner.Proofs.Spacing
import Reckoner.Proofs.Parentheses
import Reckoner.Proofs.Doubles
import Reckoner.Proofs.Printed
import Reckoner.Proofs.Unambiguous
import Reckoner.Proofs.Verdicts
import Reckoner.Proofs.Expectations
import Reckoner.Proofs.Acceptance
import Reckoner.Proofs.Spellings
import Reckoner.Proofs.Precedence
import Reckoner.Proofs.Explicit
import Reckoner.Proofs.Conversation
import Reckoner.Proofs.Admission
import Reckoner.Proofs.Escaping
import Reckoner.Proofs.Pages
import Reckoner.Proofs.Phases
import Reckoner.Proofs.Excerpts
