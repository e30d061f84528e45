import Exfat.Model.Fsck
import Exfat.Model.Mkfs
import Exfat.Model.Tools
import Exfat.Proofs.ReadOnly
import Exfat.Proofs.Handles
import Exfat.Proofs.Inspection
import Exfat.Proofs.NewMount
import Exfat.Proofs.NewVolume
import Exfat.Proofs.Address
import Exfat.Proofs.Boot
import Exfat.Proofs.BptreeInsert
import Exfat.Proofs.ClusterHeap
import Exfat.Proofs.Create
import Exfat.Proofs.Delete
import Exfat.Proofs.FileStore
import Exfat.Proofs.Flush
import Exfat.Proofs.Format
import Exfat.Proofs.Fragments
import Exfat.Proofs.FreeSlot
import Exfat.Proofs.Label
import Exfat.Proofs.Legal
import Exfat.Proofs.Names
import Exfat.Proofs.Options
import Exfat.Proofs.Recovery
import Exfat.Proofs.References
import Exfat.Proofs.Misled
import Exfat.Proofs.Restore
import Exfat.Proofs.Scan
import Exfat.Proofs.ScanLog
import Exfat.Proofs.Seek
import Exfat.Proofs.Sets
import Exfat.Proofs.Stray
import Exfat.Proofs.Subdir
import Exfat.Proofs.Upcase
import Exfat.Proofs.Usage
import Exfat.Proofs.Refusal
