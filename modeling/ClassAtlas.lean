import ClassAtlas.Descriptor.Encode
import ClassAtlas.Main
import ClassAtlas.Signature.Spelling
import ClassAtlas.Proofs.Descriptor.Reading
import ClassAtlas.Proofs.Text.ModifiedUtf8
import ClassAtlas.Proofs.Text.TwoReadings
import ClassAtlas.Proofs.Descriptor.Pool
import ClassAtlas.Proofs.Descriptor.Writing
import ClassAtlas.Proofs.Descriptor.Values
import ClassAtlas.Proofs.Descriptor.Attributes
import ClassAtlas.Proofs.Descriptor.Members
import ClassAtlas.Proofs.Descriptor.RoundTrip
import ClassAtlas.Proofs.Graph.Scheduling
import ClassAtlas.Proofs.Graph.Search
import ClassAtlas.Proofs.Graph.Components
import ClassAtlas.Proofs.Graph.EdgeSet
import ClassAtlas.Proofs.Graph.Cycles
import ClassAtlas.Proofs.Graph.Outcomes
import ClassAtlas.Proofs.Signature.Steps
import ClassAtlas.Proofs.Signature.Types
import ClassAtlas.Proofs.Signature.Declarations
import ClassAtlas.Proofs.Signature.FirstFault
import ClassAtlas.Proofs.Signature.Names
import ClassAtlas.Proofs.Graph.Replacement
import ClassAtlas.Proofs.Graph.Frozen
import ClassAtlas.Proofs.Graph.Freezing
import ClassAtlas.Proofs.Graph.Conservation
import ClassAtlas.Proofs.Graph.Dependencies
import ClassAtlas.Proofs.Graph.Privacy
import ClassAtlas.Proofs.Graph.Extension
import ClassAtlas.Proofs.Graph.SearchOrder
import ClassAtlas.Proofs.Graph.Index
import ClassAtlas.Proofs.Graph.Links
import ClassAtlas.Proofs.Graph.Ancestors
import ClassAtlas.Proofs.Graph.Superclasses
import ClassAtlas.Proofs.Graph.Interfaces
import ClassAtlas.Proofs.Graph.Annotations
import ClassAtlas.Proofs.ArchiveCache.Codec
import ClassAtlas.Proofs.ArchiveCache.Stored
import ClassAtlas.Proofs.Descriptor.Delimited
import ClassAtlas.Proofs.Descriptor.Padding
import ClassAtlas.Proofs.Descriptor.Invisible
import ClassAtlas.Proofs.Descriptor.PoolLayout
import ClassAtlas.Proofs.Descriptor.NormalForm
import ClassAtlas.Proofs.Descriptor.PoolRequests
import ClassAtlas.Proofs.Scan.Isolation
import ClassAtlas.Proofs.Assigned
import ClassAtlas.Proofs.FileTree.Writing
import ClassAtlas.Proofs.Entries.Nesting
import ClassAtlas.Proofs.Entries.Pruning
import ClassAtlas.Proofs.Filter.Fingerprint
import ClassAtlas.Proofs.ClassPath.Order
import ClassAtlas.Proofs.ArchiveCache.Files
import ClassAtlas.Proofs.ArchiveCache.Warm
import ClassAtlas.Proofs.ArchiveCache.History
import ClassAtlas.Proofs.ArchiveCache.Rescan
import ClassAtlas.Proofs.ClassPath.LookUpOrder
import ClassAtlas.Proofs.ClassPath.UnknownLoaders
import ClassAtlas.Proofs.Graph.PlainSearch
import ClassAtlas.Proofs.Text.Regex
import ClassAtlas.Proofs.Filter.Globs
import ClassAtlas.Proofs.Filter.Slashes
import ClassAtlas.Proofs.Filter.Segments
import ClassAtlas.Proofs.Descriptor.SingleReads
import ClassAtlas.Proofs.Descriptor.EarlyEnds
import ClassAtlas.Proofs.Descriptor.NestingLimit
import ClassAtlas.Proofs.Descriptor.ParameterTables
import ClassAtlas.Proofs.Report.Faithful
import ClassAtlas.Proofs.FileTree.Folders
import ClassAtlas.Proofs.ArchiveCache.LastStore
