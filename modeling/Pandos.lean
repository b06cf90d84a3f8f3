import Pandos.Lib.Simulation
import Pandos.Descent
import Pandos.Semaphores
import Pandos.Progress
import Pandos.Levels
import Pandos.Completions
import Pandos.Passup
import Pandos.AslMap
import Pandos.Context
import Pandos.CpuTime
import Pandos.ReadyQueue
import Pandos.Siblings
import Pandos.ProcQueues
import Pandos.PcbPool
import Pandos.Drain
import Pandos.Input
import Pandos.Refill
import Pandos.Phase3.Coherence
import Pandos.Phase3.PageFault
import Pandos.Phase3.Recycling
import Pandos.Phase3.Termination
import Pandos.Phase3.Contents
import Pandos.Phase3.MissingPage
import Pandos.Phase3.Replacement
import Pandos.Phase3.SuppStack
import Pandos.Phase3.FlashErrors
import Pandos.Phase3.FlashUse
import Pandos.Phase3.Atomic
import Pandos.Phase3.LockQueue
import Pandos.Mutex
import Pandos.Halting
import Pandos.TimeSlices
import Pandos.Phase3.VirtualMemory
import Pandos.Phase3.Refills
import Pandos.Phase3.Startup
