import Sbckernel.Proofs.AvlStack
import Sbckernel.Proofs.BrTree
import Sbckernel.Proofs.BrwPage
import Sbckernel.Proofs.BuddyConfluence
import Sbckernel.Proofs.Dcache
import Sbckernel.Proofs.Dquot
import Sbckernel.Proofs.Ext2DirMap
import Sbckernel.Proofs.Ext2Ialloc
import Sbckernel.Proofs.FatAccess
import Sbckernel.Proofs.ForkWake
import Sbckernel.Proofs.Itimer
import Sbckernel.Proofs.KernelSemaphore
import Sbckernel.Proofs.Keys
import Sbckernel.Proofs.KmallocPages
import Sbckernel.Proofs.MsgCapacity
import Sbckernel.Proofs.PageMap
import Sbckernel.Proofs.Pipes
import Sbckernel.Proofs.LockOverlap
import Sbckernel.Proofs.Raid5Layout
import Sbckernel.Proofs.RoundTrip
import Sbckernel.Proofs.SemUndo
import Sbckernel.Proofs.ShmAccounting
import Sbckernel.Proofs.SwapSlots
import Sbckernel.Proofs.SynCookies
import Sbckernel.Proofs.TcpConn
import Sbckernel.Proofs.TcpOptions
import Sbckernel.Proofs.TcpRcv
import Sbckernel.Proofs.TcpWindow
import Sbckernel.Proofs.TimerWrap
import Sbckernel.Proofs.Timers
import Sbckernel.Proofs.UnixRights
import Sbckernel.Proofs.VerifyArea
