import DocStore.Assoc
import DocStore.Base64
import DocStore.Bus
import DocStore.Bytes
import DocStore.Config
import DocStore.Config.File
import DocStore.Context
import DocStore.Document
import DocStore.Double
import DocStore.Double.Decimal
import DocStore.Error
import DocStore.Identifier
import DocStore.Index.Entry
import DocStore.Index.Maintenance
import DocStore.Json
import DocStore.Key
import DocStore.KeyRange
import DocStore.LogLevel
import DocStore.MessagePack
import DocStore.Model
import DocStore.Mutation
import DocStore.Proofs.Base64
import DocStore.Proofs.Bytes
import DocStore.Proofs.Double.Nearest
import DocStore.Proofs.Double.Shortest
import DocStore.Proofs.Index
import DocStore.Proofs.Index.Entry
import DocStore.Proofs.Index.Unique
import DocStore.Proofs.Key.Layout
import DocStore.Proofs.Query.Image
import DocStore.Proofs.Query.Literal
import DocStore.Proofs.Query.Operand
import DocStore.Proofs.Query.Parse
import DocStore.Proofs.Query.Render
import DocStore.Proofs.Query.RoundTrip
import DocStore.Proofs.Query.Token
import DocStore.Proofs.Schema
import DocStore.Proofs.Search.Agreement
import DocStore.Proofs.Search.Filter
import DocStore.Proofs.Search.Page
import DocStore.Proofs.Search.Pages
import DocStore.Proofs.Search.Repeats
import DocStore.Proofs.SortedMap
import DocStore.Proofs.Storage.Chain
import DocStore.Proofs.Storage.Ending
import DocStore.Proofs.Storage.Exclusion
import DocStore.Proofs.Storage.Faithful
import DocStore.Proofs.Storage.Interchange
import DocStore.Proofs.Storage.Manager
import DocStore.Proofs.Storage.Overlay
import DocStore.Proofs.Storage.Plain
import DocStore.Proofs.Storage.Reclaim
import DocStore.Proofs.Storage.Reservation
import DocStore.Proofs.Storage.Session
import DocStore.Proofs.Storage.Unmoved
import DocStore.Proofs.Storage.Versions
import DocStore.Proofs.Storage.Walk
import DocStore.Proofs.Store.Alone
import DocStore.Proofs.Store.Answers
import DocStore.Proofs.Store.Change
import DocStore.Proofs.Store.Conformance
import DocStore.Proofs.Store.Definitions
import DocStore.Proofs.Store.Documents
import DocStore.Proofs.Store.Freshness
import DocStore.Proofs.Store.IndexConsistency
import DocStore.Proofs.Store.NoLostUpdate
import DocStore.Proofs.Store.Orphans
import DocStore.Proofs.Store.Passing
import DocStore.Proofs.Store.Phases
import DocStore.Proofs.Store.RunningReactors
import DocStore.Proofs.Store.UniqueHolders
import DocStore.Proofs.Store.Unmoved
import DocStore.Proofs.Word
import DocStore.Query
import DocStore.Query.Literal
import DocStore.Query.Parse
import DocStore.Query.Render
import DocStore.Query.Token
import DocStore.Reactor
import DocStore.Reactor.Registry
import DocStore.Reconcile.Queue
import DocStore.Reconcile.Task
import DocStore.Record
import DocStore.Request
import DocStore.Retry
import DocStore.Schema
import DocStore.Search
import DocStore.Search.Candidate
import DocStore.Search.Fault
import DocStore.Search.Plan
import DocStore.SortedMap
import DocStore.Storage.Backend
import DocStore.Storage.Intents
import DocStore.Storage.Scan
import DocStore.Storage.Transaction
import DocStore.Storage.Versions
import DocStore.Storage.View
import DocStore.Store
import DocStore.Store.Attempt
import DocStore.Store.State
import DocStore.Text.Alphabetic
import DocStore.Text.Blank
import DocStore.Text.Escape
import DocStore.Text.Extender
import DocStore.Text.Lossy
import DocStore.Text.Numeric
import DocStore.Text.Unprintable
import DocStore.Timestamp
import DocStore.Toml
import DocStore.Toml.Read
import DocStore.Toml.Text
import DocStore.Toml.Write
import DocStore.Value
import DocStore.Wire
import DocStore.Word
import DocStore.Proofs.Storage.Release
import DocStore.Proofs.Store.Immutability
import DocStore.Proofs.Storage.OwnWrites
import DocStore.Proofs.Query.Grammar
import DocStore.Proofs.Record.Formats
import DocStore.Proofs.Query.Remainder
import DocStore.Proofs.Search.OneByOne
import DocStore.Proofs.Schema.Meaning
import DocStore.Proofs.Request
import DocStore.Proofs.Store.Retries
import DocStore.Proofs.Store.ExpectedVersion
import DocStore.Proofs.Storage.Contention
import DocStore.Proofs.ModelCache.Fills
import DocStore.Proofs.Store.Deeds
import DocStore.Proofs.Bus.Leases
import DocStore.Proofs.Reactor.Attempts
import DocStore.Proofs.Reconcile.Accounting
import DocStore.Proofs.Reconcile.Shutdown
import DocStore.Proofs.Mutation
import DocStore.Proofs.Storage.Chunks
import DocStore.Proofs.KeyRange.Prefix
import DocStore.Proofs.Storage.Past
import DocStore.Proofs.Index.Leaves
import DocStore.Proofs.Retry
