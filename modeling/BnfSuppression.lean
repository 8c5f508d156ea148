import BnfSuppression.CommandLine.Application
import BnfSuppression.CommandLine.Arguments
import BnfSuppression.CommandLine.Inspection
import BnfSuppression.CommandLine.Outcome
import BnfSuppression.CommandLine.Request
import BnfSuppression.CommandLine.Run
import BnfSuppression.CommandLine.Selection
import BnfSuppression.CommandLine.Toolkit
import BnfSuppression.CommandLine.Verbosity
import BnfSuppression.Diff.Alignment
import BnfSuppression.Diff.Patch
import BnfSuppression.Diff.Preview
import BnfSuppression.Directive
import BnfSuppression.Document
import BnfSuppression.Files.Disk
import BnfSuppression.Files.Path
import BnfSuppression.Forest
import BnfSuppression.Forest.Navigation
import BnfSuppression.Log
import BnfSuppression.Main
import BnfSuppression.Proofs.Alike
import BnfSuppression.Proofs.Alike.Answers
import BnfSuppression.Proofs.Ancestry
import BnfSuppression.Proofs.Apart
import BnfSuppression.Proofs.Applying
import BnfSuppression.Proofs.Atomic
import BnfSuppression.Proofs.Calls
import BnfSuppression.Proofs.Change
import BnfSuppression.Proofs.Commuting
import BnfSuppression.Proofs.Directive
import BnfSuppression.Proofs.Directive.Grammar
import BnfSuppression.Proofs.Directive.Growing
import BnfSuppression.Proofs.Dropped
import BnfSuppression.Proofs.Dumped
import BnfSuppression.Proofs.Edits
import BnfSuppression.Proofs.Effect
import BnfSuppression.Proofs.Encoding
import BnfSuppression.Proofs.Entered
import BnfSuppression.Proofs.Faithful
import BnfSuppression.Proofs.FileAccess
import BnfSuppression.Proofs.Inheritance
import BnfSuppression.Proofs.Integrity
import BnfSuppression.Proofs.Layered
import BnfSuppression.Proofs.Leads
import BnfSuppression.Proofs.Lexing
import BnfSuppression.Proofs.Lexing.Cuts
import BnfSuppression.Proofs.Lexing.Joined
import BnfSuppression.Proofs.Lexing.Spelled
import BnfSuppression.Proofs.Lexing.Written
import BnfSuppression.Proofs.Lines
import BnfSuppression.Proofs.Listing
import BnfSuppression.Proofs.Locked
import BnfSuppression.Proofs.LogLevel
import BnfSuppression.Proofs.Lossless
import BnfSuppression.Proofs.Numerals
import BnfSuppression.Proofs.Offsets
import BnfSuppression.Proofs.Painted
import BnfSuppression.Proofs.PatchLines
import BnfSuppression.Proofs.Patching
import BnfSuppression.Proofs.Planted
import BnfSuppression.Proofs.Planted.Place
import BnfSuppression.Proofs.Precedence
import BnfSuppression.Proofs.Previews
import BnfSuppression.Proofs.Printed
import BnfSuppression.Proofs.ReadBack
import BnfSuppression.Proofs.Reading
import BnfSuppression.Proofs.Reading.Ahead
import BnfSuppression.Proofs.Reading.Composites
import BnfSuppression.Proofs.Reading.Edges
import BnfSuppression.Proofs.Reading.Grammar
import BnfSuppression.Proofs.Reading.Insertion
import BnfSuppression.Proofs.Reading.Locality
import BnfSuppression.Proofs.Reading.Scanning
import BnfSuppression.Proofs.Reading.Trivia
import BnfSuppression.Proofs.Reload
import BnfSuppression.Proofs.Replacing
import BnfSuppression.Proofs.Resolver
import BnfSuppression.Proofs.Rewriting
import BnfSuppression.Proofs.Running
import BnfSuppression.Proofs.Search
import BnfSuppression.Proofs.Section
import BnfSuppression.Proofs.Session
import BnfSuppression.Proofs.Shape
import BnfSuppression.Proofs.Shape.Kept
import BnfSuppression.Proofs.Shared
import BnfSuppression.Proofs.Standing
import BnfSuppression.Proofs.Stepwise
import BnfSuppression.Proofs.Tended
import BnfSuppression.Proofs.Unusable
import BnfSuppression.Proofs.Usable
import BnfSuppression.Proofs.Walks
import BnfSuppression.Proofs.Walks.Indices
import BnfSuppression.Proofs.Writing
import BnfSuppression.Settings
import BnfSuppression.Settings.Layer
import BnfSuppression.Settings.Source
import BnfSuppression.Suppression.Action
import BnfSuppression.Suppression.Coverage
import BnfSuppression.Suppression.LeadingRun
import BnfSuppression.Suppression.Listing
import BnfSuppression.Terminal.Codes
import BnfSuppression.Terminal.ColorMode
import BnfSuppression.Terminal.Style
import BnfSuppression.Text.Blank
import BnfSuppression.Text.Capital
import BnfSuppression.Text.Digit
import BnfSuppression.Text.Lines
import BnfSuppression.Text.Printable
import BnfSuppression.Text.Quoted
import BnfSuppression.Text.Ranges
import BnfSuppression.Text.Utf8
import BnfSuppression.Token
import BnfSuppression.Token.Lexer
import BnfSuppression.Toml.Assembly
import BnfSuppression.Toml.Content
import BnfSuppression.Toml.Format
import BnfSuppression.Toml.Reader
import BnfSuppression.Toml.Scalar
import BnfSuppression.Toml.Value
import BnfSuppression.Toml.Writer
import BnfSuppression.Tree
import BnfSuppression.Tree.Outline
import BnfSuppression.Tree.Parser
import BnfSuppression.Workspace
