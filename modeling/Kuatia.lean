import Kuatia.Interleaving.Pool
import Kuatia.Interleaving.History
import Kuatia.Collections.HashMap
import Kuatia.Collections.Loops
import Kuatia.Money
import Kuatia.Types.Canonical
import Kuatia.Types.Hex
import Kuatia.Collections.Decimal
import Kuatia.Types.Text
import Kuatia.Amount
import Kuatia.AmountLaws
import Kuatia.AmountGrammar
import Kuatia.Storage.EventKey
import Kuatia.Core.PostingResolution
import Kuatia.Core.Validate
import Kuatia.Storage.MemStore
import Kuatia.Ledger.System
import Kuatia.Utxo.History
import Kuatia.Core.ValidateLaws
import Kuatia.Storage.MemStoreLaws
import Kuatia.Storage.TransferIndex
import Kuatia.Ledger.Promises
import Kuatia.Ledger.Steps
import Kuatia.Ledger.Guarantees
import Kuatia.Ledger.Runs
import Kuatia.Ledger.Instants
import Kuatia.Ledger.DoubleSpend
import Kuatia.Ledger.Overdraft
import Kuatia.Storage.Sample
import Kuatia.Ledger.Sample
import Kuatia.Ledger.Conservation
import Kuatia.Ledger.Alone
import Kuatia.Ledger.Submissions
import Kuatia.Ledger.Balances
import Kuatia.Ledger.Reversal
import Kuatia.Core.ResolutionLaws
import Kuatia.Ledger.Resolving
import Kuatia.Ledger.Loading
import Kuatia.Ledger.Acceptance
import Kuatia.Collections.Covering
import Kuatia.Core.Coverage
import Kuatia.Core.FewestPostings
import Kuatia.Ledger.Affording
import Kuatia.Ledger.Crowded
import Kuatia.Ledger.Closing
import Kuatia.Ledger.Pins
import Kuatia.Ledger.Freezing
import Kuatia.Ledger.Transitions
import Kuatia.Core.NetFlow
import Kuatia.Ledger.CommitEffect
import Kuatia.Ledger.Agreement
import Kuatia.Inflight.Projection
import Kuatia.Inflight.Payouts
import Kuatia.Inflight.Operations
import Kuatia.Saga.RunMovements
import Kuatia.Service.System
import Kuatia.Service.Runs
import Kuatia.Inflight.Sample
import Kuatia.Inflight.Atomicity
import Kuatia.Ledger.Drawing
import Kuatia.Ledger.Accounts
import Kuatia.Ledger.AuditTrail
import Kuatia.Ledger.EventLog
import Kuatia.Service.Drawing
import Kuatia.Inflight.Orderly
import Kuatia.Interleaving.Phases
import Kuatia.Inflight.Opening
import Kuatia.Inflight.Holding
import Kuatia.Inflight.InBalance
import Kuatia.Ledger.CachedBalance
import Kuatia.Ledger.Turnover
import Kuatia.Storage.Calls
import Kuatia.Storage.EventCursor
import Kuatia.Sql.Table
import Kuatia.SqlStore.Row
import Kuatia.SqlStore.Postings
import Kuatia.SqlStore.PostingCalls
import Kuatia.SqlStore.Store
import Kuatia.SqlStore.Commit
import Kuatia.SqlStore.CommitAgrees
import Kuatia.SqlStore.Sample
import Kuatia.SqlStore.Simulation
import Kuatia.Sql.Ordering
import Kuatia.SqlStore.EventFeed
import Kuatia.Sql.Joining
import Kuatia.Sql.Paging
import Kuatia.SqlStore.Transfer
import Kuatia.SqlStore.TransferPages
import Kuatia.SqlStore.TransferReads
import Kuatia.Types.Orders
import Kuatia.Storage.Listing
import Kuatia.SqlStore.PostingReads
import Kuatia.Collections.SelfDelimiting
import Kuatia.Types.CanonicalLaws
import Kuatia.Collections.Permutation
import Kuatia.Types.AccountCode
import Kuatia.Types.AccountCodeLaws
import Kuatia.Types.AccountCodeReading
import Kuatia.Types.AccountCodeTypos
import Kuatia.Sql.InsertSelect
import Kuatia.SqlStore.PostingMigration
import Kuatia.SqlStore.AccountMigration
import Kuatia.Core.Specification
import Kuatia.Core.BookAdmission
import Kuatia.Core.RequiredState
import Kuatia.Ledger.DistinctPostings
import Kuatia.Core.Redirecting
import Kuatia.Ledger.Rerouting
import Kuatia.Ledger.Owners
import Kuatia.Ledger.Delivering
import Kuatia.Ledger.Fitting
import Kuatia.Ledger.Newcomers
import Kuatia.Ledger.Creating
import Kuatia.Ledger.Validating
import Kuatia.Inflight.Accepting
import Kuatia.Inflight.Status
import Kuatia.Inflight.Settling
import Kuatia.Inflight.Draining
import Kuatia.Inflight.Completing
import Kuatia.Collections.Stamps
import Kuatia.Storage.IdGenerator
import Kuatia.Saga.Unwinding
import Kuatia.SqlStore.ReadCommitted
import Kuatia.SqlStore.CommittedHistory
import Kuatia.SqlStore.OpenTransactions
import Kuatia.SqlStore.Resubmission
import Kuatia.Ledger.Projecting
import Kuatia.Ledger.Timing
import Kuatia.Ledger.CachePoints
import Kuatia.Ledger.CutOff
import Kuatia.Ledger.Retiring
import Kuatia.Ledger.Applying
import Kuatia.Inflight.Sweeping
import Kuatia.Inflight.Settlements
import Kuatia.Inflight.Emptying
import Kuatia.Inflight.Confirming
import Kuatia.Inflight.Parking
import Kuatia.Inflight.Outcomes
import Kuatia.SqlStore.AccountLocks
import Kuatia.SqlStore.Serializing
import Kuatia.SqlStore.Guarantees
import Kuatia.Interleaving.Transactions
import Kuatia.SqlStore.AccountWrites
import Kuatia.SqlStore.VersionChain
import Kuatia.SqlStore.Migrate
import Kuatia.Bookkeeping.Journal
import Kuatia.Service.Bookkeeping
import Kuatia.Service.Statements
import Kuatia.SqlStore.AccountsAgree
import Kuatia.SqlStore.LedgerAgrees
