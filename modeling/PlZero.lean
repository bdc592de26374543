import PlZero.Archive.Address
import PlZero.Archive.Digest
import PlZero.Archive.Form
import PlZero.Archive.Store
import PlZero.Archive.Table
import PlZero.Cbor.Item
import PlZero.Command.Build
import PlZero.Command.Execute
import PlZero.Command.Flag
import PlZero.Command.Number
import PlZero.Command.Run
import PlZero.Command.Usage
import PlZero.Command.Verb
import PlZero.Editor.Capabilities
import PlZero.Editor.Cursor
import PlZero.Editor.Document
import PlZero.Editor.Json
import PlZero.Editor.Message
import PlZero.Editor.Session
import PlZero.Editor.Shape
import PlZero.Editor.WordSearch
import PlZero.Files.Disk
import PlZero.Files.Path
import PlZero.Files.Upward
import PlZero.Machine.Artifact
import PlZero.Machine.Assembly
import PlZero.Machine.Format
import PlZero.Machine.Instruction
import PlZero.Machine.Listing
import PlZero.Machine.Run
import PlZero.Main
import PlZero.Project.Manifest
import PlZero.Project.Search
import PlZero.Source.Compile
import PlZero.Source.Fault
import PlZero.Source.Parse
import PlZero.Source.Position
import PlZero.Source.Reader
import PlZero.Source.Scan
import PlZero.Source.Symbol
import PlZero.Source.Token
import PlZero.Source.Translation
import PlZero.Source.Tree
import PlZero.Text.Blank
import PlZero.Text.Calendar
import PlZero.Text.Glyph
import PlZero.Text.Graphic
import PlZero.Text.Grid
import PlZero.Text.LetterCase
import PlZero.Text.Line
import PlZero.Text.Numeral
import PlZero.Text.Quoted
import PlZero.Toml.Builder
import PlZero.Toml.Quoted
import PlZero.Toml.Reader
import PlZero.Toml.Scalar
import PlZero.Toml.Value
import PlZero.Proofs.Attempt
import PlZero.Proofs.Entries
import PlZero.Proofs.Glyphs
import PlZero.Proofs.Grammar
import PlZero.Proofs.Reading
import PlZero.Proofs.Items
import PlZero.Proofs.Acceptance
import PlZero.Proofs.ArchiveRows
import PlZero.Proofs.BinaryForm
import PlZero.Proofs.CacheTransparency
import PlZero.Proofs.CompilerCorrectness
import PlZero.Proofs.ExactArithmetic
import PlZero.Proofs.Height
import PlZero.Proofs.StackDiscipline
import PlZero.Proofs.Words
import PlZero.Proofs.TextForm
import PlZero.Proofs.Runs
import PlZero.Proofs.Scanning
import PlZero.Proofs.Layout
import PlZero.Proofs.Spelling
import PlZero.Proofs.Placement
import PlZero.Proofs.ArtifactPlaces
import PlZero.Proofs.ArtifactRuns
import PlZero.Proofs.PairedRuns
import PlZero.Proofs.BlankFill
import PlZero.Proofs.StaticFaults
import PlZero.Proofs.Pairing
import PlZero.Proofs.Renaming
import PlZero.Proofs.SymbolHistory
import PlZero.Proofs.DiskChanges
import PlZero.Proofs.SourceHeads
import PlZero.Proofs.ManyBuilds
import PlZero.Proofs.StoreHistory
import PlZero.Proofs.SessionText
import PlZero.Proofs.Continuation
import PlZero.Proofs.Misreading
import PlZero.Proofs.BlockFaults
import PlZero.Proofs.FaultPlaces
import PlZero.Proofs.DeclaredSymbols
import PlZero.Proofs.Snapshots
import PlZero.Proofs.Spacing
import PlZero.Proofs.ProgramText
import PlZero.Proofs.Reencoding
import PlZero.Proofs.Places
import PlZero.Proofs.PlainPaths
import PlZero.Proofs.Diagnostics
import PlZero.Proofs.Occurrences
import PlZero.Proofs.Navigation
import PlZero.Proofs.ConstantCells
import PlZero.Proofs.DeclarationScan
import PlZero.Proofs.CompletionLists
import PlZero.Proofs.Drafts
import PlZero.Proofs.CleanPaths
import PlZero.Proofs.Obstacles
import PlZero.Proofs.SingleBuild
import PlZero.Proofs.TomlText
import PlZero.Proofs.TomlTables
import PlZero.Proofs.ManifestRoundTrip
import PlZero.Proofs.Tallies
import PlZero.Proofs.ScanningOnDemand
import PlZero.Proofs.NumberRuns
import PlZero.Proofs.NearestManifest
import PlZero.Proofs.OnePass
import PlZero.Proofs.ExpressionRuns
import PlZero.Proofs.Origins
import PlZero.Proofs.CursorWords
