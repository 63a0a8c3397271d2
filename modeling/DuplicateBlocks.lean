import DuplicateBlocks.Main
import DuplicateBlocks.Proofs.Grouping.Clusters
import DuplicateBlocks.Proofs.Grouping.Ceiling
import DuplicateBlocks.Proofs.Grouping.Map
import DuplicateBlocks.Proofs.Bucket
import DuplicateBlocks.Proofs.Harvest
import DuplicateBlocks.Proofs.Scan.Detection
import DuplicateBlocks.Proofs.Grouping.Restriction
import DuplicateBlocks.Proofs.Grouping.Greedy
import DuplicateBlocks.Proofs.Scan.Restriction
import DuplicateBlocks.Proofs.Code.Roster
import DuplicateBlocks.Proofs.Code.Renaming
import DuplicateBlocks.Proofs.Code.Equivalence
import DuplicateBlocks.Proofs.Code.Normalization
import DuplicateBlocks.Proofs.Scan.Renaming
import DuplicateBlocks.Proofs.Scan.Verdict
import DuplicateBlocks.Proofs.Scan.Copies
import DuplicateBlocks.Proofs.Grouping.Accounts
import DuplicateBlocks.Proofs.Scan.Accounts
import DuplicateBlocks.Proofs.Discovery.Ids
import DuplicateBlocks.Proofs.Discovery.Outcomes
import DuplicateBlocks.Proofs.Discovery.Origins
import DuplicateBlocks.Proofs.Discovery.Accounts
import DuplicateBlocks.Proofs.Discovery.Exclusion
import DuplicateBlocks.Proofs.Discovery.Wanted
import DuplicateBlocks.Proofs.Discovery.Containment
import DuplicateBlocks.Proofs.Command.Items
import DuplicateBlocks.Proofs.Command.Precedence
import DuplicateBlocks.Proofs.Scan.Separate
import DuplicateBlocks.Proofs.Discovery.FileLimit
import DuplicateBlocks.Proofs.Scan.LineEnds
import DuplicateBlocks.Proofs.Number
import DuplicateBlocks.Proofs.Command.Exactness
import DuplicateBlocks.Proofs.Scan.Sites
import DuplicateBlocks.Proofs.Code.Aliases
import DuplicateBlocks.Proofs.Code.Layout
import DuplicateBlocks.Proofs.Code.Idempotence
import DuplicateBlocks.Proofs.Scan.Extraction
import DuplicateBlocks.Proofs.Difference
import DuplicateBlocks.Proofs.Threshold
import DuplicateBlocks.Proofs.Discovery.Reading
import DuplicateBlocks.Proofs.Exclusion
import DuplicateBlocks.Proofs.Settings
import DuplicateBlocks.Proofs.Exclusion.Positions
import DuplicateBlocks.Proofs.Exclusion.Growth
import DuplicateBlocks.Proofs.Exclusion.Names
import DuplicateBlocks.Proofs.Command.Order
import DuplicateBlocks.Proofs.Discovery.HandNamed
import DuplicateBlocks.Proofs.Scan.Substance
import DuplicateBlocks.Proofs.Report
import DuplicateBlocks.Proofs.Code.Bytes
import DuplicateBlocks.Proofs.Path.NormalForm
import DuplicateBlocks.Proofs.Requests
