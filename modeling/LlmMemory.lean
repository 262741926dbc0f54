import LlmMemory.Lib.Accesses
import LlmMemory.Lib.Alone
import LlmMemory.Lib.Batches
import LlmMemory.Lib.Cursors
import LlmMemory.Lib.Effects
import LlmMemory.Lib.Ghosts
import LlmMemory.Lib.Termination
import LlmMemory.Lib.Phrases
import LlmMemory.Lib.QueryStrings
import LlmMemory.Lib.Runs
import LlmMemory.Lib.Sections
import LlmMemory.Lib.TokenBucket
import LlmMemory.JsonRpc
import LlmMemory.Storage
import LlmMemory.Storage.Escaping
import LlmMemory.Storage.FullText
import LlmMemory.System.Budget
import LlmMemory.System.Coverage
import LlmMemory.System.Deletion
import LlmMemory.System.Inputs
import LlmMemory.System.Isolation
import LlmMemory.System.Lifetime
import LlmMemory.Coordinator.Requests
import LlmMemory.Coordinator.Collected
import LlmMemory.Coordinator.Synthesis
import LlmMemory.Server.Noninterference
import LlmMemory.Server.Export
import LlmMemory.Server.RateLimiter
import LlmMemory.Server.Transport
import LlmMemory.Server.Separation
import LlmMemory.Server.Requests
import LlmMemory.Server.Newcomers
import LlmMemory.Llm.Wire
import LlmMemory.Vegapunk.Advertised
import LlmMemory.Vegapunk.Writes
import LlmMemory.Vegapunk.LlmBudget
import LlmMemory.Vegapunk.Suppression
import LlmMemory.Auth.CodeFlow
import LlmMemory.Auth.Rotation
import LlmMemory.Auth.Revocation
import LlmMemory.Auth.KeyRotation
import LlmMemory.Auth.Provisioning
import LlmMemory.Auth.Lineage
import LlmMemory.WikiAuth.Accounts
import LlmMemory.WikiAuth.Binding
import LlmMemory.WikiAuth.Destinations
import LlmMemory.WikiAuth.Exchanges
import LlmMemory.WikiAuth.Redirect
import LlmMemory.WikiAuth.Router
import LlmMemory.WikiAuth.Sessions
import LlmMemory.WikiAuth.Tables
import LlmMemory.Vegapunk.Blank
import LlmMemory.Vegapunk.CatalogueNames
import LlmMemory.Vegapunk.Extraction
import LlmMemory.Vegapunk.Guard
import LlmMemory.Vegapunk.Merging
import LlmMemory.Vegapunk.Ownership
import LlmMemory.Vegapunk.Prompt
import LlmMemory.Vegapunk.Rewriting
import LlmMemory.Vegapunk.Serializer
import LlmMemory.Vegapunk.Transport
import LlmMemory.Vegapunk.Waiting
import LlmMemory.Vegapunk.Schemas
import LlmMemory.Vegapunk.Router
import LlmMemory.Vegapunk.Tenancy
