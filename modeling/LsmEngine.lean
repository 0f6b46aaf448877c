import LsmEngine.Theorems.Blocks
import LsmEngine.Theorems.Compaction
import LsmEngine.Theorems.Directory
import LsmEngine.Theorems.Durability
import LsmEngine.Theorems.Files
import LsmEngine.Theorems.Linear
import LsmEngine.Theorems.Logs
import LsmEngine.Theorems.Machine
import LsmEngine.Theorems.Maintenance
import LsmEngine.Theorems.ManifestEdits
import LsmEngine.Theorems.ManifestFile
import LsmEngine.Theorems.Merge
import LsmEngine.Theorems.Orphans
import LsmEngine.Theorems.Reads
import LsmEngine.Theorems.Recovery
import LsmEngine.Theorems.Refinement
import LsmEngine.Theorems.Sequence
import LsmEngine.Theorems.Spoilt
import LsmEngine.Theorems.SsTable
import LsmEngine.Theorems.SsTableFile
import LsmEngine.Theorems.TableFormat
import LsmEngine.Theorems.Threshold
import LsmEngine.Theorems.Tickets
import LsmEngine.Theorems.Upkeep
import LsmEngine.Theorems.Wal
import LsmEngine.Theorems.WalFrames
import LsmEngine.Theorems.WalName
import LsmEngine.Theorems.Worker
import LsmEngine.Theorems.Writes
