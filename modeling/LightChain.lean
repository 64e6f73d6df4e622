import LightChain.AttestationPool.Votes
import LightChain.Blockchain.AttPreState
import LightChain.Committees.PayloadTimeliness
import LightChain.Config.SigningDomain
import LightChain.DataColumns.Available
import LightChain.DataColumns.Custody
import LightChain.DataColumns.FetchResult
import LightChain.DataColumns.Selection
import LightChain.DepositSnapshot.Accepted
import LightChain.DepositSnapshot.Contract
import LightChain.DiffTree.Migration
import LightChain.DiffTree.Skipping
import LightChain.Electra.Consolidations
import LightChain.Electra.DepositAccounts
import LightChain.Epoch.Downtime
import LightChain.Epoch.ExitQueue
import LightChain.Epoch.Quorum
import LightChain.ForkChoice.Ancestors
import LightChain.ForkChoice.Canonical
import LightChain.ForkChoice.Checkpoints
import LightChain.ForkChoice.FailedInsert
import LightChain.ForkChoice.Optimistic
import LightChain.ForkChoice.Realization
import LightChain.ForkChoice.ReceivedBlocks
import LightChain.Justification.Unrealized
import LightChain.LightClient.OptimisticUpdates
import LightChain.MultiValue.Refinement
import LightChain.Slasher.Params
import LightChain.Slasher.Records
import LightChain.Slashings.Evidence
import LightChain.SlotTime.Deadlines
import LightChain.SlotTime.Galois
import LightChain.SlotTime.Ticker
import LightChain.StateNative.PubkeyIndex
import LightChain.Stategen.CanonicalHistory
import LightChain.Stategen.MigrateToCold
import LightChain.Sync.PendingExact
import LightChain.Validator.Convert
import LightChain.Validator.Filesystem.Import
import LightChain.Validator.KV.Batching
import LightChain.Validator.KV.ImportFilter
import LightChain.Withdrawals.Sweep
