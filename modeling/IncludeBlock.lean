import IncludeBlock.Main
import IncludeBlock.Proofs.Files
import IncludeBlock.Proofs.Coverage.Relation
import IncludeBlock.Proofs.Cover.Choice
import IncludeBlock.Proofs.Cover.Sweep
import IncludeBlock.Proofs.Cover.Reduction
import IncludeBlock.Proofs.Expansion.Memo
import IncludeBlock.Proofs.Organize.Arrangement
import IncludeBlock.Proofs.Organize.Survey
import IncludeBlock.Proofs.Organize.Provision
import IncludeBlock.Proofs.Expansion.Reachability
import IncludeBlock.Proofs.Organize.Rewrite
import IncludeBlock.Proofs.Expansion.Answers
import IncludeBlock.Proofs.Coverage.Canonical
import IncludeBlock.Proofs.Organize.Removal
import IncludeBlock.Proofs.Snapshot.RoundTrip
import IncludeBlock.Proofs.Cover.GivenUp
import IncludeBlock.Proofs.Cover.Depth
import IncludeBlock.Proofs.Cover.Replacement
import IncludeBlock.Proofs.Organize.Conservation
import IncludeBlock.Proofs.Cover.Standing
import IncludeBlock.Proofs.Organize.Sequence
import IncludeBlock.Proofs.Organize.Stability
import IncludeBlock.Proofs.Organize.Independence
import IncludeBlock.Proofs.Snapshot.Versions
import IncludeBlock.Proofs.Disk.LinkFree
import IncludeBlock.Proofs.Disk.Search
import IncludeBlock.Proofs.Resolution.Meaning
import IncludeBlock.Proofs.Organize.Directives
import IncludeBlock.Proofs.Resolution.Spelling
import IncludeBlock.Proofs.Organize.Addition
import IncludeBlock.Proofs.Organize.Document
import IncludeBlock.Proofs.Organize.Counterparts
import IncludeBlock.Proofs.Text.Directives
import IncludeBlock.Proofs.Disk.Ways
import IncludeBlock.Proofs.Scan.Sources
import IncludeBlock.Proofs.Snapshot.Relation
import IncludeBlock.Proofs.Scan.Worklist
import IncludeBlock.Proofs.Scan.LeastGraph
import IncludeBlock.Proofs.Resolution.Search
import IncludeBlock.Proofs.Resolution.Relative
import IncludeBlock.Proofs.Disk.Components
import IncludeBlock.Proofs.Ordering.Again
import IncludeBlock.Proofs.Ordering.Groups
import IncludeBlock.Proofs.Ordering.Arrival
import IncludeBlock.Proofs.Coverage.Removal
import IncludeBlock.Proofs.Snapshot.AfterEdits
import IncludeBlock.Proofs.Organize.KeptLines
import IncludeBlock.Proofs.Expansion.Remembered
import IncludeBlock.Proofs.Organize.PublicHeaders
