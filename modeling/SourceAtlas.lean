import SourceAtlas.Analysis
import SourceAtlas.Assoc
import SourceAtlas.Cache.Basic
import SourceAtlas.Cache.Document
import SourceAtlas.Cache.Store
import SourceAtlas.Classification
import SourceAtlas.CommandLine.Command
import SourceAtlas.CommandLine.Options
import SourceAtlas.CommandLine.Run
import SourceAtlas.Config
import SourceAtlas.Cycle
import SourceAtlas.Datum
import SourceAtlas.Digest.Sha256
import SourceAtlas.Disk.Basic
import SourceAtlas.Disk.Canonical
import SourceAtlas.Disk.Lookup
import SourceAtlas.Extraction
import SourceAtlas.Failure
import SourceAtlas.Graph.Basic
import SourceAtlas.Graph.Components
import SourceAtlas.Inventory
import SourceAtlas.Json.Reader
import SourceAtlas.Json.Writer
import SourceAtlas.Main
import SourceAtlas.Metrics
import SourceAtlas.Number.Decimal
import SourceAtlas.Number.Double
import SourceAtlas.Outline.Basic
import SourceAtlas.Outline.Finding
import SourceAtlas.Path
import SourceAtlas.Pattern.CharClass
import SourceAtlas.Pattern.Glob
import SourceAtlas.Pattern.Ignore
import SourceAtlas.Record.Basic
import SourceAtlas.Record.Document
import SourceAtlas.Report.Basic
import SourceAtlas.Report.Diagram
import SourceAtlas.Report.Document
import SourceAtlas.Report.Markdown
import SourceAtlas.Resolution
import SourceAtlas.Scan.Basic
import SourceAtlas.Scan.Ignoring
import SourceAtlas.Schema.Fault
import SourceAtlas.Schema.Reader
import SourceAtlas.Sorting
import SourceAtlas.Syntax.Declarations
import SourceAtlas.Syntax.Expressions
import SourceAtlas.Syntax.Grammar
import SourceAtlas.Syntax.Lexeme
import SourceAtlas.Syntax.Markup
import SourceAtlas.Syntax.Phrase
import SourceAtlas.Syntax.Rule
import SourceAtlas.Syntax.Statements
import SourceAtlas.Syntax.Tree
import SourceAtlas.Syntax.Types
import SourceAtlas.Text.Basic
import SourceAtlas.Text.Blank
import SourceAtlas.Text.Parts
import SourceAtlas.Text.Printable
import SourceAtlas.Text.Quoted
import SourceAtlas.Text.Utf8
import SourceAtlas.Toml.Document
import SourceAtlas.Toml.Value
import SourceAtlas.Verification
import SourceAtlas.World.Basic
import SourceAtlas.World.Files
import SourceAtlas.Proofs.Analysis.Atomicity
import SourceAtlas.Proofs.Analysis.Coherence
import SourceAtlas.Proofs.Analysis.Completion
import SourceAtlas.Proofs.Analysis.Confinement
import SourceAtlas.Proofs.Analysis.Ending
import SourceAtlas.Proofs.Analysis.Endurance
import SourceAtlas.Proofs.Analysis.Files
import SourceAtlas.Proofs.Analysis.Identity
import SourceAtlas.Proofs.Analysis.Imports
import SourceAtlas.Proofs.Analysis.Parity
import SourceAtlas.Proofs.Analysis.Remembering
import SourceAtlas.Proofs.Analysis.Rendering
import SourceAtlas.Proofs.Analysis.Repetition
import SourceAtlas.Proofs.Analysis.Resuming
import SourceAtlas.Proofs.Analysis.Run
import SourceAtlas.Proofs.Analysis.Session
import SourceAtlas.Proofs.Analysis.Stopping
import SourceAtlas.Proofs.Analysis.Transparency
import SourceAtlas.Proofs.Analysis.Trouble
import SourceAtlas.Proofs.Assoc
import SourceAtlas.Proofs.Averages
import SourceAtlas.Proofs.Cache.Atomicity
import SourceAtlas.Proofs.Cache.Confinement
import SourceAtlas.Proofs.Cache.Document
import SourceAtlas.Proofs.Cache.Enclosure
import SourceAtlas.Proofs.Cache.Legibility
import SourceAtlas.Proofs.Cache.Loading
import SourceAtlas.Proofs.Cache.Memory
import SourceAtlas.Proofs.Cache.Rewriting
import SourceAtlas.Proofs.Cache.RoundTrip
import SourceAtlas.Proofs.Cache.Store
import SourceAtlas.Proofs.CommandLine.Escapes
import SourceAtlas.Proofs.CommandLine.Exit
import SourceAtlas.Proofs.Config
import SourceAtlas.Proofs.Coupling
import SourceAtlas.Proofs.Disk.Canonical
import SourceAtlas.Proofs.Disk.Children
import SourceAtlas.Proofs.Disk.Lookup
import SourceAtlas.Proofs.Disk.Resolving
import SourceAtlas.Proofs.Disk.Shape
import SourceAtlas.Proofs.Drawing
import SourceAtlas.Proofs.Extraction
import SourceAtlas.Proofs.Figures
import SourceAtlas.Proofs.Flowchart
import SourceAtlas.Proofs.Graph.Closing
import SourceAtlas.Proofs.Graph.Components
import SourceAtlas.Proofs.Graph.Cycles
import SourceAtlas.Proofs.Graph.Edges
import SourceAtlas.Proofs.Graph.Returning
import SourceAtlas.Proofs.Graph.Search
import SourceAtlas.Proofs.Graph.Traversal
import SourceAtlas.Proofs.Inventory
import SourceAtlas.Proofs.Json.Range
import SourceAtlas.Proofs.Json.RoundTrip
import SourceAtlas.Proofs.Json.Scalars
import SourceAtlas.Proofs.Legibility
import SourceAtlas.Proofs.Outline.Comments
import SourceAtlas.Proofs.Outline.Figures
import SourceAtlas.Proofs.Outline.Legibility
import SourceAtlas.Proofs.Outline.Lines
import SourceAtlas.Proofs.Outline.Looking
import SourceAtlas.Proofs.Outline.Traversal
import SourceAtlas.Proofs.Path
import SourceAtlas.Proofs.Refresh
import SourceAtlas.Proofs.Relative
import SourceAtlas.Proofs.Reordering
import SourceAtlas.Proofs.Report
import SourceAtlas.Proofs.Resolution
import SourceAtlas.Proofs.Scan
import SourceAtlas.Proofs.Scan.Again
import SourceAtlas.Proofs.Scan.Exact
import SourceAtlas.Proofs.Scan.Nesting
import SourceAtlas.Proofs.Syntax.Comments
import SourceAtlas.Proofs.Syntax.Derivation
import SourceAtlas.Proofs.Syntax.Grammar
import SourceAtlas.Proofs.Syntax.Placement
import SourceAtlas.Proofs.Syntax.Shape
import SourceAtlas.Proofs.Syntax.Weight
import SourceAtlas.Proofs.Text.Basic
import SourceAtlas.Proofs.Text.Utf8
import SourceAtlas.Proofs.Toml
import SourceAtlas.Proofs.Verification
import SourceAtlas.Proofs.Walk
import SourceAtlas.Proofs.Wording
import SourceAtlas.Proofs.World.Looking
import SourceAtlas.Proofs.World.Standpoint
import SourceAtlas.Proofs.World.Stopping
import SourceAtlas.Proofs.World.Twins
import SourceAtlas.Proofs.World.Writing
