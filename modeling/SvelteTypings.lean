import SvelteTypings.Text.Blank
import SvelteTypings.Text.Lines
import SvelteTypings.Text.Search
import SvelteTypings.Text.Utf8
import SvelteTypings.Text.Word
import SvelteTypings.Text.Printable
import SvelteTypings.Text.Quoted
import SvelteTypings.Path.Basic
import SvelteTypings.Path.Normalize
import SvelteTypings.Path.Suffix
import SvelteTypings.Path.Relative
import SvelteTypings.Path.Map
import SvelteTypings.Json.Basic
import SvelteTypings.Json.Number
import SvelteTypings.Json.Token
import SvelteTypings.Json.Parser
import SvelteTypings.Json.Comments
import SvelteTypings.Json.Printer
import SvelteTypings.Failure
import SvelteTypings.FileSystem.Basic
import SvelteTypings.FileSystem.Memory
import SvelteTypings.FileSystem.Disk
import SvelteTypings.Compiler.Options
import SvelteTypings.Compiler.Session
import SvelteTypings.Compiler.Resolution
import SvelteTypings.Compiler.Program
import SvelteTypings.Compiler.Emission
import SvelteTypings.Script.Token
import SvelteTypings.Script.Lexer
import SvelteTypings.Script.Statement
import SvelteTypings.Script.Nesting
import SvelteTypings.Script.Declaration
import SvelteTypings.Script.Import
import SvelteTypings.Text.Removal
import SvelteTypings.Text.Writer
import SvelteTypings.Component.Blocks
import SvelteTypings.Component.Import
import SvelteTypings.Component.Property
import SvelteTypings.Component.Event
import SvelteTypings.Component.Slot
import SvelteTypings.Component.Name
import SvelteTypings.Component.Parts
import SvelteTypings.Component.Typing
import SvelteTypings.Generation.Config
import SvelteTypings.Generation.Synthesis
import SvelteTypings.Generation.Table
import SvelteTypings.Generation.Overlay
import SvelteTypings.Generation.Schedule
import SvelteTypings.Generation.Run
import SvelteTypings.Generation.Components
import SvelteTypings.Generation.Scripts
import SvelteTypings.Compiler.DiskHost
import SvelteTypings.Cli.Arguments
import SvelteTypings.Cli.Failure
import SvelteTypings.Cli.ProjectConfig
import SvelteTypings.Cli.Sources
import SvelteTypings.Cli.Persist
import SvelteTypings.Cli.Generate
import SvelteTypings.Main
import SvelteTypings.Proofs.Text.Utf8
import SvelteTypings.Proofs.Text.Trimming
import SvelteTypings.Proofs.Text.Nested
import SvelteTypings.Proofs.Path.Map
import SvelteTypings.Proofs.Path.Segments
import SvelteTypings.Proofs.Path.Canonical
import SvelteTypings.Proofs.Path.Rooted
import SvelteTypings.Proofs.Path.Named
import SvelteTypings.Proofs.Path.Spelling
import SvelteTypings.Proofs.Path.Walk
import SvelteTypings.Proofs.Path.Below
import SvelteTypings.Proofs.FileSystem.Memory
import SvelteTypings.Proofs.FileSystem.Disk
import SvelteTypings.Proofs.Compiler.Session
import SvelteTypings.Proofs.Compiler.Moments
import SvelteTypings.Proofs.Compiler.Candidates
import SvelteTypings.Proofs.Compiler.Program
import SvelteTypings.Proofs.Compiler.Files
import SvelteTypings.Proofs.Compiler.Emission
import SvelteTypings.Proofs.Compiler.Answers
import SvelteTypings.Proofs.Compiler.Order
import SvelteTypings.Proofs.Compiler.SameBuild
import SvelteTypings.Proofs.Compiler.Loads
import SvelteTypings.Proofs.Compiler.Searching
import SvelteTypings.Proofs.Generation.Table
import SvelteTypings.Proofs.Generation.Overlay
import SvelteTypings.Proofs.Generation.Passes
import SvelteTypings.Proofs.Generation.History
import SvelteTypings.Proofs.Generation.Listing
import SvelteTypings.Proofs.Generation.Admission
import SvelteTypings.Proofs.Generation.Visibility
import SvelteTypings.Proofs.Generation.Reachability
import SvelteTypings.Proofs.Generation.Loading
import SvelteTypings.Proofs.Generation.Writing
import SvelteTypings.Proofs.Generation.Compilation
import SvelteTypings.Proofs.Generation.Closure
import SvelteTypings.Proofs.Generation.Convergence
import SvelteTypings.Proofs.Generation.Steadiness
import SvelteTypings.Proofs.Generation.Capacity
import SvelteTypings.Proofs.Generation.Progress
import SvelteTypings.Proofs.Generation.Relisting
import SvelteTypings.Proofs.Generation.Addressing
import SvelteTypings.Proofs.Generation.Destinations
import SvelteTypings.Proofs.Generation.Conflicts
import SvelteTypings.Proofs.Generation.Scripts
import SvelteTypings.Proofs.Generation.RootOrder
import SvelteTypings.Proofs.Generation.Routing
import SvelteTypings.Proofs.Generation.Halting
import SvelteTypings.Proofs.Generation.Searching
import SvelteTypings.Proofs.Script.Lexing
import SvelteTypings.Proofs.Script.Splitting
import SvelteTypings.Proofs.Script.Layout
import SvelteTypings.Proofs.Script.Sequence
import SvelteTypings.Proofs.Script.Heading
import SvelteTypings.Proofs.Script.Stretches
import SvelteTypings.Proofs.Script.LineEnds
import SvelteTypings.Proofs.Script.Bodies
import SvelteTypings.Proofs.Script.Initializers
import SvelteTypings.Proofs.Script.Arrows
import SvelteTypings.Proofs.Script.Signatures
import SvelteTypings.Proofs.Script.Matching
import SvelteTypings.Proofs.Script.Overloads
import SvelteTypings.Proofs.Script.Origin
import SvelteTypings.Proofs.Script.Members
import SvelteTypings.Proofs.Script.Classes
import SvelteTypings.Proofs.Script.Surface
import SvelteTypings.Proofs.Component.Rendering
import SvelteTypings.Proofs.Component.Exports
import SvelteTypings.Proofs.Component.Hoisting
import SvelteTypings.Proofs.Component.Properties
import SvelteTypings.Proofs.Component.Events
import SvelteTypings.Proofs.Cli.Persist
import SvelteTypings.Proofs.Script.Composition
import SvelteTypings.Proofs.Script.Documentation
import SvelteTypings.Proofs.Script.Coverage
import SvelteTypings.Proofs.Script.Parameters
import SvelteTypings.Proofs.Script.Indexed.Declarations
import SvelteTypings.Proofs.Script.Angles
import SvelteTypings.Proofs.Script.Pieces
import SvelteTypings.Proofs.Script.Regular
import SvelteTypings.Proofs.Script.Paired
import SvelteTypings.Proofs.Script.Pairing
import SvelteTypings.Proofs.Text.Searching
import SvelteTypings.Proofs.Text.Removing
import SvelteTypings.Proofs.Component.Cutting
import SvelteTypings.Proofs.Component.Blocks
import SvelteTypings.Proofs.Component.Comments
import SvelteTypings.Proofs.Component.Collecting
import SvelteTypings.Proofs.Component.Slots
import SvelteTypings.Proofs.Component.Keys
import SvelteTypings.Proofs.Json.Reading
import SvelteTypings.Proofs.Json.Decoration
import SvelteTypings.Proofs.Json.Members
import SvelteTypings.Proofs.FileSystem.Locations
import SvelteTypings.Proofs.Cli.Chains
import SvelteTypings.Proofs.Path.Displacement
import SvelteTypings.Proofs.Component.Reindenting
