import PathIgnore.Session
import PathIgnore.Checker.Description
import PathIgnore.Watch
import PathIgnore.Pattern.Language
import PathIgnore.Rule.Coverage
import PathIgnore.Proofs.Text.Cutting
import PathIgnore.Proofs.NativePath.Names
import PathIgnore.Proofs.NativePath.Steps
import PathIgnore.Proofs.TreePath.Native
import PathIgnore.Proofs.TreePath.Reachable
import PathIgnore.Proofs.TreePath.WayUp
import PathIgnore.Proofs.TreePath.PrefixOrder
import PathIgnore.Proofs.Pattern.Spelling
import PathIgnore.Proofs.Pattern.Widening
import PathIgnore.Proofs.Pattern.Components
import PathIgnore.Proofs.Pattern.Directories
import PathIgnore.Proofs.Pattern.Decoding
import PathIgnore.Proofs.Rule.Grammar
import PathIgnore.Proofs.Rule.PlainEnds
import PathIgnore.Proofs.Rule.Inheritance
import PathIgnore.Proofs.Rule.Quoted
import PathIgnore.Proofs.Rule.Anywhere
import PathIgnore.Proofs.Rule.OwnText
import PathIgnore.Proofs.Rule.NormalLine
import PathIgnore.Proofs.Rule.Sameness
import PathIgnore.Proofs.Rules.Override
import PathIgnore.Proofs.Rules.Conventions
import PathIgnore.Proofs.Store.FirstLoads
import PathIgnore.Proofs.Checker.Locating
import PathIgnore.Proofs.Checker.Exactness
import PathIgnore.Proofs.Checker.Beneath
import PathIgnore.Proofs.Checker.Footprint
import PathIgnore.Proofs.Checker.Rebase
import PathIgnore.Proofs.Checker.Relocation
import PathIgnore.Proofs.Checker.LookUps
import PathIgnore.Proofs.Checker.Visits
import PathIgnore.Proofs.Checker.Emitted
import PathIgnore.Proofs.Session.Frozen
import PathIgnore.Proofs.Session.Order
import PathIgnore.Proofs.Disk.Entries
import PathIgnore.Proofs.Disk.Paths
import PathIgnore.Proofs.Disk.Changes
import PathIgnore.Proofs.MemoryTree.Building
import PathIgnore.Proofs.MemoryTree.Directories
import PathIgnore.Proofs.MemoryTree.RuleFiles
import PathIgnore.Proofs.WorkTree.Reading
import PathIgnore.Proofs.WorkTree.Copy
import PathIgnore.Proofs.WorkTree.Agreement
