import InvertedFile.Budget.Ledger
import InvertedFile.Budget.Settings
import InvertedFile.InvertedList.Records
import InvertedFile.Workspace.Perform
import InvertedFile.Proofs.Action
import InvertedFile.Proofs.Interleave.Movement
import InvertedFile.Proofs.Layout.Capacity
import InvertedFile.Proofs.Layout.Checked
import InvertedFile.Proofs.InvertedList.Append
import InvertedFile.Proofs.Budget
import InvertedFile.Proofs.InvertedList.Copy
import InvertedFile.Proofs.Index.Batch
import InvertedFile.Proofs.Index.Extend
import InvertedFile.Proofs.Index.Loading
import InvertedFile.Proofs.Index.Saving
import InvertedFile.Proofs.InvertedList.RoundTrip
import InvertedFile.Proofs.Workspace.Extension
import InvertedFile.Proofs.Index.Alike
import InvertedFile.Proofs.Index.Changes
import InvertedFile.Proofs.Index.Spelling
import InvertedFile.Proofs.Index.Params
import InvertedFile.Proofs.Index.RoundTrip
import InvertedFile.Proofs.Workspace.Persistence
import InvertedFile.Proofs.Interleave.Bijection
import InvertedFile.Proofs.Interleave.Packing
import InvertedFile.Proofs.Interleave.Unpacking
import InvertedFile.Proofs.Interleave.FixedWidth
import InvertedFile.Proofs.Interleave.Scheduling
import InvertedFile.Proofs.Store.Canonical
import InvertedFile.Proofs.Workspace.Snapshot
import InvertedFile.Proofs.Workspace.Accounting
import InvertedFile.Proofs.InvertedList.Truncation
import InvertedFile.Proofs.Index.Truncation
import InvertedFile.Proofs.Workspace.Truncation
import InvertedFile.Proofs.Faults
import InvertedFile.Proofs.InvertedList.Atomicity
import InvertedFile.Proofs.InvertedList.Accessors
import InvertedFile.Proofs.InvertedList.Safety
import InvertedFile.Proofs.Workspace.Safety
import InvertedFile.Proofs.InvertedList.Format
import InvertedFile.Proofs.Index.Format
import InvertedFile.Proofs.Index.Interruption
import InvertedFile.Proofs.Workspace.Interruption
import InvertedFile.Proofs.Index.Batching
import InvertedFile.Proofs.Workspace.Batching
import InvertedFile.Proofs.Workspace.Capacities
import InvertedFile.Proofs.Index.Creation
import InvertedFile.Proofs.Index.Numbering
import InvertedFile.Proofs.Workspace.Chronicle
import InvertedFile.Proofs.Workspace.Accessors
import InvertedFile.Proofs.Workspace.Sentinel
import InvertedFile.Proofs.Index.Lockstep
import InvertedFile.Proofs.Workspace.Answers
import InvertedFile.Proofs.Index.Freed
import InvertedFile.Proofs.Index.Scheduling
import InvertedFile.Proofs.Workspace.Uses
import InvertedFile.Proofs.Workspace.Renewal
import InvertedFile.Proofs.Workspace.Scheduling
import InvertedFile.Proofs.InvertedList.Admission
import InvertedFile.Proofs.Index.Admission
import InvertedFile.Proofs.Workspace.Admission
import InvertedFile.Proofs.Runs
import InvertedFile.Proofs.Index.Width
