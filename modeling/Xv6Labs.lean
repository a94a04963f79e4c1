import Xv6Labs.Proofs.RegistryRuns
import Xv6Labs.Proofs.ExecImage
import Xv6Labs.Proofs.Copyinstr
import Xv6Labs.Proofs.Repeat
import Xv6Labs.Proofs.ExitSpace
import Xv6Labs.Proofs.ExitFiles
import Xv6Labs.Proofs.ForkBytes
import Xv6Labs.Proofs.HeapApart
import Xv6Labs.Proofs.LogSpace
import Xv6Labs.Proofs.LogSize
import Xv6Labs.Proofs.RxRing
import Xv6Labs.Proofs.Sends
import Xv6Labs.Proofs.Kills
import Xv6Labs.Proofs.BufferRoom
import Xv6Labs.Proofs.Conserved
import Xv6Labs.Proofs.InodeTable
import Xv6Labs.Proofs.Checksum
import Xv6Labs.Proofs.Datagrams
import Xv6Labs.Proofs.Disclosure
import Xv6Labs.Proofs.SendBounds
import Xv6Labs.Proofs.FaultUndo
import Xv6Labs.Proofs.LogBudget
import Xv6Labs.Proofs.PipeRead
import Xv6Labs.Proofs.Grep
import Xv6Labs.Proofs.BufferList
import Xv6Labs.Proofs.Paths
import Xv6Labs.Proofs.Printf
import Xv6Labs.Proofs.SleepLock
import Xv6Labs.Proofs.Isolation
