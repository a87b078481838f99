import Pbos.Kfxx.FallibleRBTree
import Pbos.Kf.RBTreeAgree
import Pbos.Mm.MmapRuns
import Pbos.Mm.KimaMove
import Pbos.Kfxx.ListRuns
import Pbos.Dm.Device
import Pbos.Ps.KmodRuns
import Pbos.Ps.Sched
import Pbos.Ps.Mutex
import Pbos.Ps.RwMutex
import Pbos.Syscall.Pbcore
import Pbos.Mm.FrameRuns
import Pbos.Mm.GlobalRuns
import Pbos.Kfxx.DynArrayShrinkCalls
import Pbos.Mm.ProbeCover
import Pbos.Mm.ProbeLocks
import Pbos.Hal.VmallocFound
import Pbos.Mm.MmapRange
import Pbos.Mm.KimaEnds
import Pbos.Mm.KimaNull
import Pbos.Kfxx.RBTreeIter
import Pbos.Hal.Initcar
import Pbos.Fs.Nodes
import Pbos.Hal.Acpi
import Pbos.Hal.Vpm
import Pbos.Kfxx.StringView
