import SourceRepair.Disk.Machine
import SourceRepair.Main
import SourceRepair.Proofs.Path
import SourceRepair.Proofs.Disk.Files
import SourceRepair.Proofs.Disk.Scope
import SourceRepair.Proofs.Disk.Run
import SourceRepair.Proofs.Disk.Staged
import SourceRepair.Proofs.Backup.Record
import SourceRepair.Proofs.Backup.Names
import SourceRepair.Proofs.Backup.Archive
import SourceRepair.Proofs.Recovery.Execute
import SourceRepair.Proofs.Disk.Moves
import SourceRepair.Proofs.Backup.Moves
import SourceRepair.Proofs.Layer.Run
import SourceRepair.Proofs.Pipeline.Course
import SourceRepair.Proofs.Pipeline.Preview
import SourceRepair.Proofs.Pipeline.Safety
import SourceRepair.Proofs.Disk.Calm
import SourceRepair.Proofs.Backup.Calm
import SourceRepair.Proofs.Pipeline.Backups
import SourceRepair.Proofs.Pipeline.Calm
import SourceRepair.Proofs.Backup.Retention
import SourceRepair.Proofs.Pipeline.Rollback
import SourceRepair.Proofs.Recovery.Breaker
import SourceRepair.Proofs.Script.Scopes
import SourceRepair.Proofs.Script.Family
import SourceRepair.Proofs.Script.Trail
import SourceRepair.Proofs.Guards.Outline
import SourceRepair.Proofs.Guards.Children
import SourceRepair.Proofs.Guards.Shields
import SourceRepair.Proofs.Guards.Chains
import SourceRepair.Proofs.Guards.Found
import SourceRepair.Proofs.Guards.Kept
import SourceRepair.Proofs.Guards.Scoped
import SourceRepair.Proofs.Fallback.Diagnostics
import SourceRepair.Proofs.Guards.Again
import SourceRepair.Proofs.Guards.Printed
import SourceRepair.Proofs.Recovery.Handle
import SourceRepair.Proofs.Recovery.Course
import SourceRepair.Proofs.Recovery.Steps
import SourceRepair.Proofs.Recovery.Accounts
import SourceRepair.Proofs.Components
import SourceRepair.Proofs.Backup.Survival
import SourceRepair.Proofs.Backup.Keys
import SourceRepair.Proofs.Disk.Enclosing
import SourceRepair.Proofs.Disk.Within
import SourceRepair.Proofs.Disk.Parent
import SourceRepair.Proofs.Backup.Within
import SourceRepair.Proofs.Backup.Atomic
import SourceRepair.Proofs.Backup.Restoring
import SourceRepair.Proofs.Backup.Series
import SourceRepair.Proofs.Session.Reply
import SourceRepair.Proofs.Session.Order
import SourceRepair.Proofs.Pipeline.Response
import SourceRepair.Proofs.Learning.Compiled
import SourceRepair.Proofs.Repair.Recorded
import SourceRepair.Proofs.Layer.Located
import SourceRepair.Proofs.Text.Offset
import SourceRepair.Proofs.Text.Line
import SourceRepair.Proofs.Repair.Constructs
import SourceRepair.Proofs.Repair.Given
import SourceRepair.Proofs.Learning.Directive
import SourceRepair.Proofs.Learning.DiagnosticRuns
import SourceRepair.Proofs.Learning.Tally
import SourceRepair.Proofs.Edit.Order
import SourceRepair.Proofs.Edit.Marks
import SourceRepair.Proofs.Edit.Printed
import SourceRepair.Proofs.Edit.Nested
import SourceRepair.Proofs.Guards.Seated
import SourceRepair.Proofs.Guards.Spliced
import SourceRepair.Proofs.Text.Removal
import SourceRepair.Proofs.Edit.Patches
import SourceRepair.Proofs.Script.Walk
import SourceRepair.Proofs.Conflicts.Basic
import SourceRepair.Proofs.Conflicts.Statements
import SourceRepair.Proofs.Conflicts.Calls
import SourceRepair.Proofs.Conflicts.Properties
import SourceRepair.Proofs.Conflicts.Links
import SourceRepair.Proofs.Conflicts.Nested
import SourceRepair.Proofs.Repair.Diagnostics
import SourceRepair.Proofs.Repair.Declarations
import SourceRepair.Proofs.Repair.Imports
import SourceRepair.Proofs.Repair.Directive
import SourceRepair.Proofs.Repair.ImportLines
import SourceRepair.Proofs.Pattern.Leads
import SourceRepair.Proofs.Pattern.Replacing
import SourceRepair.Proofs.Pattern.Words
import SourceRepair.Proofs.Text.Entity
import SourceRepair.Proofs.Learning.Dialect
import SourceRepair.Proofs.Learning.Wrapper
import SourceRepair.Proofs.Fallback.Hydration
import SourceRepair.Proofs.Script.Coverage
import SourceRepair.Proofs.Repair.Keys
import SourceRepair.Proofs.Repair.ProjectConfig
import SourceRepair.Proofs.Filter
import SourceRepair.Proofs.Glob
import SourceRepair.Proofs.Layer.Selection
import SourceRepair.Proofs.Recovery.Backoff
import SourceRepair.Proofs.Repair.ObsoleteFlags
import SourceRepair.Proofs.Script.Checks
