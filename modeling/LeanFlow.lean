import LeanFlow.Activity.Reversal
import LeanFlow.Bridge.Lifecycle
import LeanFlow.Cache.Reuse
import LeanFlow.Campaign.Accounts
import LeanFlow.Goals.Discover
import LeanFlow.Goals.Restated
import LeanFlow.Goals.Ready
import LeanFlow.Inbox.Delivery
import LeanFlow.Jobs.Roles
import LeanFlow.Jobs.Tokens
import LeanFlow.Leases.Exclusion
import LeanFlow.Libraries.Explained
import LeanFlow.Libraries.Rollback
import LeanFlow.Native.Published
import LeanFlow.Paging.Pages
import LeanFlow.Patches.Hunks
import LeanFlow.Patches.RoundTrip
import LeanFlow.Profiles.Meaning
import LeanFlow.Receipts.Recorded
import LeanFlow.Recovery.Returns
import LeanFlow.Runs.Following
import LeanFlow.Runs.Integrity
import LeanFlow.Source.Commands
import LeanFlow.Source.Extraction
import LeanFlow.Source.LeanDeclarations
import LeanFlow.Startup.Lineage
import LeanFlow.Status.Ownership
import LeanFlow.Storage.Cleanup
import LeanFlow.Transactions.Cleanup
import LeanFlow.Transactions.Edited
import LeanFlow.Transactions.PlanCrashes
import LeanFlow.Transactions.Snapshots
import LeanFlow.Transactions.Submissions
import LeanFlow.Usage.Totals
import LeanFlow.Workspace.Mapped
