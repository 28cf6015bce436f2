import Unbundled.Chain.Context
import Unbundled.Chain.Probe
import Unbundled.Chain.Stage
import Unbundled.Chain.Standard
import Unbundled.CommandLine
import Unbundled.Component.Block
import Unbundled.Component.Compile
import Unbundled.Component.Descriptor
import Unbundled.Component.Fault
import Unbundled.Component.Module
import Unbundled.Component.Script
import Unbundled.Config.File
import Unbundled.Config.Resolve
import Unbundled.Config.Settings
import Unbundled.ContentType
import Unbundled.Disk
import Unbundled.Fault
import Unbundled.Http
import Unbundled.Import.Rewrite
import Unbundled.Import.Scan
import Unbundled.Json.Reader
import Unbundled.Json.Token
import Unbundled.Main
import Unbundled.Package.Fault
import Unbundled.Package.Manifest
import Unbundled.Package.Resolve
import Unbundled.Package.Specifier
import Unbundled.Path
import Unbundled.Proofs.Chain.Direct
import Unbundled.Proofs.Chain.Outside
import Unbundled.Proofs.Chain.Spelling
import Unbundled.Proofs.Component.Paths
import Unbundled.Proofs.Disk.Inside
import Unbundled.Proofs.Disk.Places
import Unbundled.Proofs.Import.Ascending
import Unbundled.Proofs.Import.Declarations
import Unbundled.Proofs.Import.Lines
import Unbundled.Proofs.Import.Names
import Unbundled.Proofs.Import.Reading
import Unbundled.Proofs.Import.Sequences
import Unbundled.Proofs.Import.Spans
import Unbundled.Proofs.Import.Strays
import Unbundled.Proofs.Import.Walk
import Unbundled.Proofs.Package.Files
import Unbundled.Proofs.Package.Inside
import Unbundled.Proofs.Package.Manifests
import Unbundled.Proofs.Path.Steps
import Unbundled.Proofs.Source.Lexemes
import Unbundled.Proofs.Source.Lines
import Unbundled.Proofs.Source.Names
import Unbundled.Proofs.Source.Places
import Unbundled.Proofs.Source.Strings
import Unbundled.Proofs.Text.Parts
import Unbundled.Proofs.Text.Percent
import Unbundled.Proofs.Text.Utf8
import Unbundled.Proofs.Url.Paths
import Unbundled.Proofs.Url.Requests
import Unbundled.Proofs.Url.RoundTrip
import Unbundled.Release
import Unbundled.Reload
import Unbundled.Source.Cursor
import Unbundled.Source.Lexeme
import Unbundled.Text.Basic
import Unbundled.Text.Blank
import Unbundled.Text.Literal
import Unbundled.Text.Percent
import Unbundled.Text.Utf8
import Unbundled.Url
import Unbundled.Proofs.Url.Endings
import Unbundled.Proofs.Chain.Scripts
import Unbundled.Proofs.Chain.Wording
import Unbundled.Proofs.Chain.Unwinding
import Unbundled.Proofs.Chain.Repeats
import Unbundled.Proofs.Source.Behind
import Unbundled.Proofs.Source.Boundaries
import Unbundled.Proofs.Source.Continued
import Unbundled.Proofs.Source.Replaced
import Unbundled.Proofs.Import.Runs
import Unbundled.Proofs.Component.Exports
import Unbundled.Proofs.Component.Silent
import Unbundled.Proofs.Component.Modules
import Unbundled.Proofs.Component.Sealing
import Unbundled.Proofs.Component.Search
import Unbundled.Proofs.Component.Pages
import Unbundled.Proofs.Component.Binding
import Unbundled.Proofs.Component.Listing
import Unbundled.Proofs.Component.Tags
import Unbundled.Proofs.Component.Items
import Unbundled.Proofs.Component.Templates
import Unbundled.Proofs.Component.Nesting
import Unbundled.Proofs.Component.Losses
import Unbundled.Proofs.Component.Roots
import Unbundled.Proofs.Component.Placement
import Unbundled.Proofs.Component.Layout
import Unbundled.Proofs.Chain.Front
import Unbundled.Proofs.Chain.Failures
import Unbundled.Proofs.Chain.Responses
import Unbundled.Proofs.Config.Precedence
import Unbundled.Proofs.Disk.Canonical
import Unbundled.Proofs.Path.Parents
import Unbundled.Proofs.Source.Splits
import Unbundled.Proofs.Source.Fillers
import Unbundled.Proofs.Import.Reached
import Unbundled.Proofs.Import.Statements
import Unbundled.Proofs.Source.Arithmetic
import Unbundled.Proofs.Import.Elsewhere
import Unbundled.Proofs.Import.Arithmetic
import Unbundled.Proofs.Source.Blanked
import Unbundled.Proofs.Import.Continued
import Unbundled.Proofs.Import.Comments
import Unbundled.Proofs.Source.Indexed
import Unbundled.Proofs.Source.Units
import Unbundled.Proofs.Source.Bytewise
import Unbundled.Proofs.Source.Nested
import Unbundled.Proofs.Import.Indexed
import Unbundled.Proofs.Source.Alongside
import Unbundled.Proofs.Import.Spliced
import Unbundled.Proofs.Import.Tidy
import Unbundled.Proofs.Import.Reworded
import Unbundled.Proofs.Import.Repeated
import Unbundled.Proofs.Source.Fronts
import Unbundled.Proofs.Package.Names
import Unbundled.Proofs.Package.Search
import Unbundled.Proofs.Text.Occurrences
import Unbundled.Proofs.Chain.Client
import Unbundled.Proofs.Component.Appended
import Unbundled.Proofs.Source.Slices
import Unbundled.Proofs.Component.Attributes
import Unbundled.Proofs.Component.Indexed
import Unbundled.Proofs.Component.Unfailing
import Unbundled.Proofs.Component.Written
import Unbundled.Proofs.Source.Templates
import Unbundled.Proofs.Json.Grammar
import Unbundled.Proofs.Json.Literals
import Unbundled.Proofs.Json.Reading
import Unbundled.Proofs.Package.Members
