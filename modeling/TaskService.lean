import TaskService.Lib.Dict
import TaskService.Lib.Except
import TaskService.Lib.Worklist
import TaskService.Lib.Program
import TaskService.Lib.Machine
import TaskService.Lib.Interleaving
import TaskService.Py.Text
import TaskService.Py.Json
import TaskService.Workflows.Models
import TaskService.Workflows.Definition
import TaskService.Workflows.Problems
import TaskService.Core.Errors
import TaskService.Workflows.Engine
import TaskService.Workflows.Serialization
import TaskService.Workflows.Grammar
import TaskService.Workflows.Equality
import TaskService.Workflows.RoundTrip
import TaskService.Workflows.Variants
import TaskService.Tasks.Models
import TaskService.Tags.Models
import TaskService.Core.Events
import TaskService.Store.Database
import TaskService.Store.Session
import TaskService.Core.Staging
import TaskService.Workflows.Repository
import TaskService.Tags.Repository
import TaskService.Tasks.Service
import TaskService.Tasks.Programs
import TaskService.Store.Transactions
import TaskService.Workflows.Reload
import TaskService.Workflows.Seed
import TaskService.Concurrency.World
import TaskService.Concurrency.Contracts
import TaskService.Concurrency.Sessions
import TaskService.Concurrency.UseCases
import TaskService.Concurrency.Stranding
import TaskService.Concurrency.Moves
import TaskService.Concurrency.Definitions
import TaskService.Outbox.Delivery
import TaskService.Outbox.Isolation
import TaskService.Outbox.Relays
import TaskService.Outbox.RetryWindow
import TaskService.Py.Folding
import TaskService.Tasks.Titles
import TaskService.Workflows.Storage
import TaskService.Tags.Names
import TaskService.Lib.Observation
import TaskService.Sessions.Notes
import TaskService.Sessions.Accounts
import TaskService.Sessions.Effects
import TaskService.Sessions.Worlds
import TaskService.Sessions.Versions
import TaskService.Sessions.Draws
import TaskService.Sessions.Limits
import TaskService.Store.Rows
import TaskService.Sessions.Replacements
import TaskService.Sessions.Streams
import TaskService.Sessions.Links
import TaskService.Sessions.Vocabulary
import TaskService.Sequential.Runs
import TaskService.Sequential.Tags
import TaskService.Sequential.TagEvents
import TaskService.Sequential.Log
import TaskService.Workflows.Decisions
import TaskService.Tasks.Fields
import TaskService.Lib.Collecting
import TaskService.Tasks.ActorRoles
import TaskService.Workflows.Reports
import TaskService.Lib.Following
import TaskService.Concurrency.LegalMoves
import TaskService.Lib.Paging
import TaskService.Tasks.Listing
import TaskService.Lib.Batches
import TaskService.Outbox.Draining
import TaskService.Lib.Pruning
import TaskService.Outbox.Purging
import TaskService.Lib.Search
import TaskService.Workflows.Reachability
import TaskService.Core.Envelope
import TaskService.Core.Compression
import TaskService.Core.AcceptEncoding
import TaskService.Sequential.Checks
import TaskService.Sequential.Duplicates
import TaskService.Tagging.Failures
import TaskService.Tagging.Commits
import TaskService.Tagging.Runs
import TaskService.Lib.Coupling
import TaskService.Outbox.Deployment
import TaskService.Outbox.Redelivery
import TaskService.Sequential.Serving
import TaskService.Lib.Traces
import TaskService.Sequential.Responses
import TaskService.Api.Documented
import TaskService.Lib.Joining
import TaskService.Tags.Responses
import TaskService.Sequential.TagDeletion
import TaskService.Core.Payloads
import TaskService.Outbox.Failures
import TaskService.Outbox.Wiring
import TaskService.Boards.Model
import TaskService.Boards.Abstraction
import TaskService.Boards.Writes
import TaskService.Boards.Calls
import TaskService.Boards.Refinement
import TaskService.Sessions.Lives
import TaskService.Sessions.Columns
import TaskService.Sessions.Titles
