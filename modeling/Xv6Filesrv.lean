import Xv6Filesrv.StateWp
import Xv6Filesrv.KernelPages
import Xv6Filesrv.KernelPageTable
import Xv6Filesrv.KernelUvm
import Xv6Filesrv.KernelUserPages
import Xv6Filesrv.KernelExec
import Xv6Filesrv.KernelShm
import Xv6Filesrv.KernelMemInv
import Xv6Filesrv.KernelShmInv
import Xv6Filesrv.KernelProcInv
import Xv6Filesrv.KernelProc
import Xv6Filesrv.KernelPrograms
import Xv6Filesrv.KernelSpaces
import Xv6Filesrv.KernelSteps
import Xv6Filesrv.KernelTable
import Xv6Filesrv.KernelSystem
import Xv6Filesrv.KernelBoot
import Xv6Filesrv.KernelShmRuns
import Xv6Filesrv.KernelSleep
import Xv6Filesrv.KernelPids
import Xv6Filesrv.KernelMutex
import Xv6Filesrv.Arrivals
import Xv6Filesrv.Decimal
import Xv6Filesrv.ServerResp
import Xv6Filesrv.Programs
import Xv6Filesrv.ServerPaths
import Xv6Filesrv.ServerRle
import Xv6Filesrv.ServerOps
import Xv6Filesrv.ServerDiscipline
import Xv6Filesrv.ServerLocks
import Xv6Filesrv.ServerLockSteps
import Xv6Filesrv.ServerLockRuns
import Xv6Filesrv.ServerExclusion
import Xv6Filesrv.KernelMsg
import Xv6Filesrv.KernelMsgRuns
import Xv6Filesrv.KernelSignals
import Xv6Filesrv.KernelTree
import Xv6Filesrv.KernelWait
import Xv6Filesrv.KernelLookups
import Xv6Filesrv.KernelBytes
import Xv6Filesrv.KernelReaping
import Xv6Filesrv.Custody
import Xv6Filesrv.KernelFreeze
import Xv6Filesrv.KernelFreezeRuns
import Xv6Filesrv.KernelFrozen
import Xv6Filesrv.KernelLog
import Xv6Filesrv.KernelLogInv
import Xv6Filesrv.KernelLogRuns
import Xv6Filesrv.KernelLogCrash
import Xv6Filesrv.LinkedRing
import Xv6Filesrv.KernelBio
import Xv6Filesrv.KernelBioInv
import Xv6Filesrv.KernelBioRuns
import Xv6Filesrv.KernelBioCache
import Xv6Filesrv.RingBuffer
import Xv6Filesrv.KernelPipe
import Xv6Filesrv.KernelPipeRuns
import Xv6Filesrv.KernelPipeSleep
import Xv6Filesrv.KernelShmIds
import Xv6Filesrv.ProgramRuns
import Xv6Filesrv.ServerBalance
import Xv6Filesrv.ServerRegistry
import Xv6Filesrv.ServerAccess
import Xv6Filesrv.ServerConfinement
import Xv6Filesrv.ServerTalk
import Xv6Filesrv.ServerAnswers
import Xv6Filesrv.ServerReplies
import Xv6Filesrv.FileTree
import Xv6Filesrv.ServerAudit
import Xv6Filesrv.ServerCodec
import Xv6Filesrv.ServerCopies
import Xv6Filesrv.ServerFailures
import Xv6Filesrv.ServerLeftovers
import Xv6Filesrv.KernelRecv
import Xv6Filesrv.KernelShmUndo
import Xv6Filesrv.KernelForkn
import Xv6Filesrv.KernelForknLoop
import Xv6Filesrv.KernelForknResult
import Xv6Filesrv.Buffers
import Xv6Filesrv.ServerRleBounds
import Xv6Filesrv.ServerTransfers
import Xv6Filesrv.ServerLogTail
import Xv6Filesrv.KernelReady
import Xv6Filesrv.KernelForkUndo
import Xv6Filesrv.KernelQuiet
import Xv6Filesrv.KernelShmSize
