import Rehome.Build.Destination
import Rehome.Build.Output
import Rehome.Build.Run
import Rehome.CommandLine.Grammar
import Rehome.CommandLine.Order
import Rehome.CommandLine.Run
import Rehome.Declaration
import Rehome.Fault
import Rehome.FileSystem.Basic
import Rehome.FileSystem.Change
import Rehome.FileSystem.RealPath
import Rehome.FileSystem.Walk
import Rehome.Host
import Rehome.Main
import Rehome.Manifest
import Rehome.Number.Binary64
import Rehome.Number.Whole
import Rehome.Package
import Rehome.Package.Raw
import Rehome.Path.Basic
import Rehome.Program
import Rehome.Proofs.Build.Among
import Rehome.Proofs.Build.Ancestors
import Rehome.Proofs.Build.Arrangement
import Rehome.Proofs.Build.Certificate
import Rehome.Proofs.Build.Concurrent
import Rehome.Proofs.Build.Confinement
import Rehome.Proofs.Build.Copies
import Rehome.Proofs.Build.Courses
import Rehome.Proofs.Build.Destination
import Rehome.Proofs.Build.Extent
import Rehome.Proofs.Build.Gathering
import Rehome.Proofs.Build.Laying
import Rehome.Proofs.Build.Layout
import Rehome.Proofs.Build.LineEnds
import Rehome.Proofs.Build.Made
import Rehome.Proofs.Build.Making
import Rehome.Proofs.Build.ModuleNames
import Rehome.Proofs.Build.Order
import Rehome.Proofs.Build.Output
import Rehome.Proofs.Build.Places
import Rehome.Proofs.Build.Publication
import Rehome.Proofs.Build.Refusal
import Rehome.Proofs.Build.Regeneration
import Rehome.Proofs.Build.Repetition
import Rehome.Proofs.Build.Scan
import Rehome.Proofs.Build.Slot
import Rehome.Proofs.Build.Source
import Rehome.Proofs.Build.Timing
import Rehome.Proofs.Build.Transfer
import Rehome.Proofs.Build.Writing
import Rehome.Proofs.CommandLine.Prepare
import Rehome.Proofs.CommandLine.Reading
import Rehome.Proofs.Declaration.Names
import Rehome.Proofs.FileSystem.Confined
import Rehome.Proofs.FileSystem.Grown
import Rehome.Proofs.FileSystem.Leads
import Rehome.Proofs.FileSystem.Listing
import Rehome.Proofs.FileSystem.Lookup
import Rehome.Proofs.FileSystem.Names
import Rehome.Proofs.FileSystem.Passage
import Rehome.Proofs.FileSystem.RealForm
import Rehome.Proofs.FileSystem.RealPath
import Rehome.Proofs.FileSystem.Removal
import Rehome.Proofs.FileSystem.Site
import Rehome.Proofs.FileSystem.Traces
import Rehome.Proofs.FileSystem.Walk
import Rehome.Proofs.FileSystem.Written
import Rehome.Proofs.Manifest.Reading
import Rehome.Proofs.Package.Argument
import Rehome.Proofs.Path.Descent
import Rehome.Proofs.Path.Normal
import Rehome.Proofs.Path.Overlap
import Rehome.Proofs.Path.Segments
import Rehome.Proofs.Program.Faults
import Rehome.Proofs.Program.Interleaving
import Rehome.Proofs.Program.Keeps
import Rehome.Proofs.Program.Perform
import Rehome.Proofs.Program.Repeats
import Rehome.Proofs.Reference.Climbing
import Rehome.Proofs.Reference.Declared
import Rehome.Proofs.Reference.Extended
import Rehome.Proofs.Reference.Following
import Rehome.Proofs.Reference.Relocation
import Rehome.Proofs.Service.Agreement
import Rehome.Proofs.Service.CurrentPath
import Rehome.Proofs.Settings.Described
import Rehome.Proofs.Settings.Loading
import Rehome.Proofs.Statement.Breaks
import Rehome.Proofs.Statement.Clause
import Rehome.Proofs.Statement.Comment
import Rehome.Proofs.Statement.Frame
import Rehome.Proofs.Statement.Lines
import Rehome.Proofs.Statement.Once
import Rehome.Proofs.Statement.Opening
import Rehome.Proofs.Statement.Passes
import Rehome.Proofs.Statement.Positions
import Rehome.Proofs.Statement.Reading
import Rehome.Proofs.Statement.Returns
import Rehome.Proofs.Statement.Sequence
import Rehome.Proofs.Text.Cut
import Rehome.Proofs.Text.LineEnds
import Rehome.Proofs.Text.Sort
import Rehome.Proofs.Toml.Documents
import Rehome.Proofs.Toml.Scanners
import Rehome.Record.Check
import Rehome.Record.Issue
import Rehome.Record.Value
import Rehome.Reference
import Rehome.Service
import Rehome.Settings.Basic
import Rehome.Settings.Load
import Rehome.Statement.Basic
import Rehome.Statement.Replace
import Rehome.Text.Basic
import Rehome.Text.Blank
import Rehome.Text.Digit
import Rehome.Text.Printable
import Rehome.Text.Quoted
import Rehome.Text.Raw
import Rehome.Toml.Document
import Rehome.Toml.Key
import Rehome.Toml.Moment
import Rehome.Toml.Number
import Rehome.Toml.Scan
import Rehome.Toml.Strings
import Rehome.Toml.Table
