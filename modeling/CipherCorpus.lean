import CipherCorpus.Algorithm
import CipherCorpus.Archive.Gzip
import CipherCorpus.Archive.Inflate
import CipherCorpus.Archive.Kind
import CipherCorpus.Archive.Tar
import CipherCorpus.Archive.Unpack
import CipherCorpus.Archive.Zip
import CipherCorpus.Artifact
import CipherCorpus.Cell
import CipherCorpus.Command.Arguments
import CipherCorpus.Command.Dataset
import CipherCorpus.Command.Inspect
import CipherCorpus.Command.Place
import CipherCorpus.Command.Report
import CipherCorpus.Compile.Command
import CipherCorpus.Compile.Level
import CipherCorpus.Compile.Matrix
import CipherCorpus.Compile.Options
import CipherCorpus.Compile.Workers
import CipherCorpus.Config.Basic
import CipherCorpus.Config.Error
import CipherCorpus.Config.File
import CipherCorpus.Config.Override
import CipherCorpus.Config.Validate
import CipherCorpus.Config.Yaml
import CipherCorpus.Dataset.Build
import CipherCorpus.Dataset.Catalog
import CipherCorpus.Dataset.Labeling
import CipherCorpus.Dataset.Open
import CipherCorpus.Dataset.Summary
import CipherCorpus.Dataset.Verify
import CipherCorpus.Digest.Block
import CipherCorpus.Digest.Crc32
import CipherCorpus.Digest.Hex
import CipherCorpus.Digest.Md5
import CipherCorpus.Digest.Sha256
import CipherCorpus.Duration
import CipherCorpus.Failure
import CipherCorpus.FileTree.Basic
import CipherCorpus.FileTree.Change
import CipherCorpus.FileTree.Error
import CipherCorpus.FileTree.Resolve
import CipherCorpus.Function
import CipherCorpus.Host
import CipherCorpus.Json.Decode
import CipherCorpus.Json.Records
import CipherCorpus.Json.Scan
import CipherCorpus.Json.Value
import CipherCorpus.Label
import CipherCorpus.Labeler
import CipherCorpus.Layout
import CipherCorpus.Main
import CipherCorpus.Manifest
import CipherCorpus.Manifest.File
import CipherCorpus.OrderedMap
import CipherCorpus.Origin
import CipherCorpus.Path
import CipherCorpus.Process.Basic
import CipherCorpus.Process.Tools
import CipherCorpus.Proofs.Algorithm
import CipherCorpus.Proofs.Archive.Extraction
import CipherCorpus.Proofs.Archive.Neighbours
import CipherCorpus.Proofs.Archive.Unpack
import CipherCorpus.Proofs.Command.Dataset
import CipherCorpus.Proofs.Command.Label
import CipherCorpus.Proofs.Command.Place
import CipherCorpus.Proofs.Command.Report
import CipherCorpus.Proofs.Command.RunRecord
import CipherCorpus.Proofs.Command.Stored
import CipherCorpus.Proofs.Command.TwoWays
import CipherCorpus.Proofs.Compile.Binaries
import CipherCorpus.Proofs.Compile.Cells
import CipherCorpus.Proofs.Compile.Footprint
import CipherCorpus.Proofs.Compile.Leftovers
import CipherCorpus.Proofs.Compile.Matrix
import CipherCorpus.Proofs.Compile.Observed
import CipherCorpus.Proofs.Compile.OneWorker
import CipherCorpus.Proofs.Compile.OutputNames
import CipherCorpus.Proofs.Compile.Schedules
import CipherCorpus.Proofs.Compile.Turns
import CipherCorpus.Proofs.Compile.TwoMachines
import CipherCorpus.Proofs.Config.Limits
import CipherCorpus.Proofs.Config.Override
import CipherCorpus.Proofs.Dataset.Accounts
import CipherCorpus.Proofs.Dataset.Build
import CipherCorpus.Proofs.Dataset.Changes
import CipherCorpus.Proofs.Dataset.Entries
import CipherCorpus.Proofs.Dataset.Evidence
import CipherCorpus.Proofs.Dataset.GroundTruth
import CipherCorpus.Proofs.Dataset.InOrder
import CipherCorpus.Proofs.Dataset.Isolation
import CipherCorpus.Proofs.Dataset.Labeling
import CipherCorpus.Proofs.Dataset.SameFiles
import CipherCorpus.Proofs.Dataset.StoredCount
import CipherCorpus.Proofs.Dataset.Verify
import CipherCorpus.Proofs.FileTree.Answers
import CipherCorpus.Proofs.FileTree.Canonical
import CipherCorpus.Proofs.FileTree.Change
import CipherCorpus.Proofs.FileTree.Home
import CipherCorpus.Proofs.FileTree.KeyPath
import CipherCorpus.Proofs.FileTree.Kinds
import CipherCorpus.Proofs.FileTree.Landing
import CipherCorpus.Proofs.FileTree.Outside
import CipherCorpus.Proofs.FileTree.Place
import CipherCorpus.Proofs.FileTree.Reached
import CipherCorpus.Proofs.FileTree.Steps
import CipherCorpus.Proofs.FileTree.Under
import CipherCorpus.Proofs.FileTree.Walk
import CipherCorpus.Proofs.FileTree.WellFormed
import CipherCorpus.Proofs.Host
import CipherCorpus.Proofs.Json.Decode
import CipherCorpus.Proofs.Json.Layout
import CipherCorpus.Proofs.Json.Records
import CipherCorpus.Proofs.Json.Scan
import CipherCorpus.Proofs.Json.Shapes
import CipherCorpus.Proofs.Manifest
import CipherCorpus.Proofs.Manifest.Added
import CipherCorpus.Proofs.Manifest.File
import CipherCorpus.Proofs.OrderedMap
import CipherCorpus.Proofs.Origin
import CipherCorpus.Proofs.Path
import CipherCorpus.Proofs.Process.Deadline
import CipherCorpus.Proofs.Sources.Apart
import CipherCorpus.Proofs.Sources.ArchiveName
import CipherCorpus.Proofs.Sources.Beside
import CipherCorpus.Proofs.Sources.Cache
import CipherCorpus.Proofs.Sources.Cached
import CipherCorpus.Proofs.Sources.Callers
import CipherCorpus.Proofs.Sources.Calls
import CipherCorpus.Proofs.Sources.Choice
import CipherCorpus.Proofs.Sources.Crew
import CipherCorpus.Proofs.Sources.Filling
import CipherCorpus.Proofs.Sources.Promoted
import CipherCorpus.Proofs.Sources.Ready
import CipherCorpus.Proofs.Sources.Recovery
import CipherCorpus.Proofs.Sources.Rooted
import CipherCorpus.Proofs.Sources.Search
import CipherCorpus.Proofs.Sources.Stages
import CipherCorpus.Proofs.Sources.Tiers
import CipherCorpus.Proofs.Store.Connection
import CipherCorpus.Proofs.Store.Corpus
import CipherCorpus.Proofs.Store.File
import CipherCorpus.Proofs.Store.History
import CipherCorpus.Proofs.Store.Listing
import CipherCorpus.Proofs.Store.Migration
import CipherCorpus.Proofs.Store.Order
import CipherCorpus.Proofs.Store.Reopen
import CipherCorpus.Proofs.Store.Rows
import CipherCorpus.Proofs.Store.Session
import CipherCorpus.Proofs.Store.Totals
import CipherCorpus.Proofs.Symbols.Listing
import CipherCorpus.Proofs.Symbols.Prologue
import CipherCorpus.Proofs.Text.Lowercase
import CipherCorpus.Proofs.Text.Number
import CipherCorpus.Proofs.Text.Pieces
import CipherCorpus.Proofs.Text.Search
import CipherCorpus.Proofs.Text.Utf8
import CipherCorpus.Proofs.Text.Words
import CipherCorpus.Shell.Condition
import CipherCorpus.Shell.Evaluate
import CipherCorpus.Shell.Expansion
import CipherCorpus.Shell.Format
import CipherCorpus.Shell.Pattern
import CipherCorpus.Shell.Program
import CipherCorpus.Shell.Reader
import CipherCorpus.Shell.Script
import CipherCorpus.Shell.Session
import CipherCorpus.Shell.Sum
import CipherCorpus.Shell.Utility
import CipherCorpus.Sources.Cache
import CipherCorpus.Sources.Callers
import CipherCorpus.Sources.Search
import CipherCorpus.Store.Connection
import CipherCorpus.Store.Database
import CipherCorpus.Store.Row
import CipherCorpus.Store.Run
import CipherCorpus.Store.Session
import CipherCorpus.Symbols.Elf
import CipherCorpus.Symbols.Listing
import CipherCorpus.Symbols.Prologue
import CipherCorpus.Symbols.Recovery
import CipherCorpus.Text.Blank
import CipherCorpus.Text.CaseTable
import CipherCorpus.Text.Lowercase
import CipherCorpus.Text.Number
import CipherCorpus.Text.Pieces
import CipherCorpus.Text.PrintableTable
import CipherCorpus.Text.Quoted
import CipherCorpus.Text.Utf8
import CipherCorpus.Toolchain
import CipherCorpus.Total
import CipherCorpus.Yaml.Cursor
import CipherCorpus.Yaml.Decode
import CipherCorpus.Yaml.Node
import CipherCorpus.Yaml.Scalar
import CipherCorpus.Yaml.Token
