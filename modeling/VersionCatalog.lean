import VersionCatalog.Backend.Basic
import VersionCatalog.Backend.File
import VersionCatalog.Backend.Keeper
import VersionCatalog.Backend.Memory
import VersionCatalog.Backend.Scripted
import VersionCatalog.Backend.Storage
import VersionCatalog.Config.Basic
import VersionCatalog.Config.Storage
import VersionCatalog.Config.Toml
import VersionCatalog.Disk.Basic
import VersionCatalog.Disk.Path
import VersionCatalog.Double
import VersionCatalog.Error
import VersionCatalog.Instant.Basic
import VersionCatalog.Instant.Text
import VersionCatalog.Item
import VersionCatalog.Json.Basic
import VersionCatalog.Json.Number
import VersionCatalog.Json.Reader
import VersionCatalog.Json.Shape
import VersionCatalog.Json.Token
import VersionCatalog.Json.Writer
import VersionCatalog.Keyed
import VersionCatalog.Manager.Items
import VersionCatalog.Manager.Request
import VersionCatalog.Manager.Versions
import VersionCatalog.Naming
import VersionCatalog.Number
import VersionCatalog.Proofs.Agreement
import VersionCatalog.Proofs.Arrangements
import VersionCatalog.Proofs.Backends
import VersionCatalog.Proofs.Bases
import VersionCatalog.Proofs.Calls
import VersionCatalog.Proofs.Certification
import VersionCatalog.Proofs.Chains
import VersionCatalog.Proofs.Chronology
import VersionCatalog.Proofs.Configurations
import VersionCatalog.Proofs.Copies
import VersionCatalog.Proofs.Creation
import VersionCatalog.Proofs.Decimals
import VersionCatalog.Proofs.Deletion
import VersionCatalog.Proofs.Depths
import VersionCatalog.Proofs.Descent
import VersionCatalog.Proofs.Digits
import VersionCatalog.Proofs.Disks
import VersionCatalog.Proofs.Documents
import VersionCatalog.Proofs.Doubles
import VersionCatalog.Proofs.Effects
import VersionCatalog.Proofs.Files
import VersionCatalog.Proofs.Footprints
import VersionCatalog.Proofs.Format
import VersionCatalog.Proofs.Growth
import VersionCatalog.Proofs.History
import VersionCatalog.Proofs.Instants
import VersionCatalog.Proofs.KnownIds
import VersionCatalog.Proofs.Legibility
import VersionCatalog.Proofs.Lifecycle
import VersionCatalog.Proofs.Likeness
import VersionCatalog.Proofs.Listings
import VersionCatalog.Proofs.Loading
import VersionCatalog.Proofs.Moved
import VersionCatalog.Proofs.Moves
import VersionCatalog.Proofs.Names
import VersionCatalog.Proofs.Naming
import VersionCatalog.Proofs.Numbers
import VersionCatalog.Proofs.Offers
import VersionCatalog.Proofs.Overrides
import VersionCatalog.Proofs.Parsing
import VersionCatalog.Proofs.Paths
import VersionCatalog.Proofs.Places
import VersionCatalog.Proofs.Plans
import VersionCatalog.Proofs.Probes
import VersionCatalog.Proofs.Pruning
import VersionCatalog.Proofs.Publication
import VersionCatalog.Proofs.Reading
import VersionCatalog.Proofs.Reliability
import VersionCatalog.Proofs.Rereading
import VersionCatalog.Proofs.Restoring
import VersionCatalog.Proofs.Rounded
import VersionCatalog.Proofs.Scanning
import VersionCatalog.Proofs.Sections
import VersionCatalog.Proofs.Seniority
import VersionCatalog.Proofs.Serving
import VersionCatalog.Proofs.Shelves
import VersionCatalog.Proofs.Spans
import VersionCatalog.Proofs.Spellings
import VersionCatalog.Proofs.Stranded
import VersionCatalog.Proofs.Synchronizing
import VersionCatalog.Proofs.Table
import VersionCatalog.Proofs.Tally
import VersionCatalog.Proofs.Tenants
import VersionCatalog.Proofs.Traces
import VersionCatalog.Proofs.Values
import VersionCatalog.Proofs.Ways
import VersionCatalog.Revision
import VersionCatalog.Session
import VersionCatalog.Span
import VersionCatalog.Store.Basic
import VersionCatalog.Store.Document
import VersionCatalog.Store.Items
import VersionCatalog.Store.Versions
import VersionCatalog.Text.Blank
import VersionCatalog.Text.Digits
import VersionCatalog.Text.Numeral
import VersionCatalog.Toml.Document
import VersionCatalog.Toml.Line
import VersionCatalog.Toml.Value
import VersionCatalog.Version
