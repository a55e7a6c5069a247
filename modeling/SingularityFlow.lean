import SingularityFlow.LocalMode.Jcs
import SingularityFlow.WorldModel.CanonicalJson
import SingularityFlow.WorldModel.ContentIds
import SingularityFlow.LocalMode.ArchiveRoundTrip
import SingularityFlow.Approval.Completion
import SingularityFlow.Approval.Capacity
import SingularityFlow.Sgos.Dispatch
import SingularityFlow.Sgos.StatusOrder
import SingularityFlow.Sgos.Outcome
import SingularityFlow.Sgos.Keys
import SingularityFlow.Sgos.ProgramGraph
import SingularityFlow.Sgos.ControlSuccessor
import SingularityFlow.Sgos.OperationalReads
import SingularityFlow.Intervals.Integrity
import SingularityFlow.Story.Rounds
import SingularityFlow.Story.RepairBudget
import SingularityFlow.Story.RouteSelectors
import SingularityFlow.Story.Refusals
import SingularityFlow.Story.SoftMoves
import SingularityFlow.Story.Retention
import SingularityFlow.Yaml.LineOperations
import SingularityFlow.Ledger.Verify
import SingularityFlow.Ledger.AppendRuns
import SingularityFlow.Ledger.PublishingCommits
import SingularityFlow.Ledger.StoryPointers
import SingularityFlow.Ledger.IntentFiles
import SingularityFlow.Git.RefTree
import SingularityFlow.Git.NameStatus
import SingularityFlow.Transport.Retries
import SingularityFlow.Transport.JournalStack
import SingularityFlow.Locks.Exclusion
import SingularityFlow.Leases.Protection
import SingularityFlow.Leases.Exclusion
import SingularityFlow.Verification.Intent
import SingularityFlow.Verification.Occurrences
import SingularityFlow.Verification.Inspections
import SingularityFlow.Verification.ContractSlots
import SingularityFlow.Scope.Reading
import SingularityFlow.Initiative.Inputs
import SingularityFlow.Initiative.Justification
import SingularityFlow.Initiative.Chain
import SingularityFlow.Initiative.Overrides
import SingularityFlow.Initiative.Standing
import SingularityFlow.Initiative.BreakdownEdits
import SingularityFlow.Initiative.MergeSequence
import SingularityFlow.Markdown.Structure
import SingularityFlow.Markdown.Comments
import SingularityFlow.Markdown.Fences
import SingularityFlow.Evidence.ObligationAnalysis
import SingularityFlow.Evidence.Shape
import SingularityFlow.Story.PhaseUpstream
import SingularityFlow.Story.Retention
import SingularityFlow.Prompt.Budget
import SingularityFlow.Sgos.WorkingSetComposed
