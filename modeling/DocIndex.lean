import DocIndex.Document.Record
import DocIndex.Manager
import DocIndex.Proofs.Document.Feed
import DocIndex.Proofs.Index.Content
import DocIndex.Proofs.Maintenance.Page
import DocIndex.Proofs.Maintenance.Follows
import DocIndex.Proofs.Json.Quoted
import DocIndex.Proofs.Index.Settings
import DocIndex.Proofs.Index.Catalog
import DocIndex.Proofs.FullText.Declared
import DocIndex.Proofs.Index.CatalogChanges
import DocIndex.Proofs.Index.Table
import DocIndex.Proofs.Index.Valid
import DocIndex.Proofs.Database.Holds
import DocIndex.Proofs.Database.Batch
import DocIndex.Proofs.Database.Declare
import DocIndex.Proofs.Maintenance.World
import DocIndex.Proofs.Maintenance.Consistency
import DocIndex.Proofs.Maintenance.CatchUp
import DocIndex.Proofs.Maintenance.Freshness
import DocIndex.Proofs.Query.NewIndex
import DocIndex.Proofs.Query.Meaning
import DocIndex.Proofs.Sql.Placeholders
import DocIndex.Proofs.Query.Text
import DocIndex.Proofs.Query.Requested
import DocIndex.Proofs.Query.Alike
import DocIndex.Proofs.Query.Replan
import DocIndex.Proofs.Query.Compiled
import DocIndex.Proofs.Query.Bindings
import DocIndex.Proofs.Query.Literals
import DocIndex.Proofs.Query.Sets
import DocIndex.Proofs.Query.Scans
import DocIndex.Proofs.Query.Admission
import DocIndex.Proofs.Sql.Order
import DocIndex.Proofs.Query.Sorting
import DocIndex.Proofs.Query.Results
import DocIndex.Proofs.Document.RevisionIds
import DocIndex.Proofs.Document.Paging
import DocIndex.Proofs.Document.Histories
import DocIndex.Proofs.Storage.Migrations
import DocIndex.Proofs.Index.Bare
import DocIndex.Proofs.Maintenance.UpdateAll
import DocIndex.Proofs.Query.Run
import DocIndex.Proofs.Query.Pages
import DocIndex.Proofs.Query.Documents
import DocIndex.Proofs.Query.Find
import DocIndex.Proofs.Database.Orderly
import DocIndex.Proofs.Maintenance.Calls
import DocIndex.Proofs.Maintenance.Visits
import DocIndex.Proofs.Maintenance.Batches
import DocIndex.Proofs.Maintenance.Names
import DocIndex.Proofs.Query.IndexChoice
import DocIndex.Proofs.Query.Refusals
import DocIndex.Proofs.Index.Types
import DocIndex.Proofs.Maintenance.Passes
import DocIndex.Proofs.Query.Grammar
import DocIndex.Proofs.Query.Operators
import DocIndex.Proofs.Query.Denotation
import DocIndex.Proofs.Query.Rearranged
import DocIndex.Proofs.Query.ExplicitUpdate
import DocIndex.Proofs.Index.Expansion
import DocIndex.Proofs.Query.Integers
import DocIndex.Proofs.Database.Recorded
import DocIndex.Proofs.Maintenance.Redeclared
import DocIndex.Proofs.Maintenance.Restored
import DocIndex.Proofs.Query.Preference
import DocIndex.Proofs.Sql.Composition
import DocIndex.Proofs.FullText.Applicable
import DocIndex.Proofs.Maintenance.Tokenizers
import DocIndex.Proofs.Maintenance.Isolation
import DocIndex.Proofs.Sql.Identifiers
import DocIndex.Proofs.Index.Ledger
import DocIndex.Proofs.Query.Reading
import DocIndex.Proofs.Database.Checkpoint
import DocIndex.Proofs.Maintenance.Turns
import DocIndex.Proofs.Maintenance.Updaters
