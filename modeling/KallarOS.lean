import KallarOS.AtaAddressing
import KallarOS.AtaCompletion
import KallarOS.AtaPolling
import KallarOS.AtaTransfers
import KallarOS.HeapBacking
import KallarOS.HeapFits
import KallarOS.HeapFrames
import KallarOS.HeapFreeing
import KallarOS.HeapRequests
import KallarOS.HeapRuns
import KallarOS.HeapStale
import KallarOS.HeapThreads
import KallarOS.InterruptRuns
import KallarOS.LoaderRuns
import KallarOS.PagingAccounts
import KallarOS.PagingExhaustion
import KallarOS.PagingGrowth
import KallarOS.PagingRoundTrip
import KallarOS.PagingRuns
import KallarOS.PmmExact
import KallarOS.PmmInvariant
import KallarOS.PmmRuns
import KallarOS.PmmSearch
import KallarOS.SchedAtomic
import KallarOS.SchedDispatch
import KallarOS.SchedHandover
import KallarOS.SchedIdle
import KallarOS.SchedInterrupts
import KallarOS.SchedQuanta
import KallarOS.SchedReady
import KallarOS.SchedReaping
import KallarOS.SchedRuns
import KallarOS.SchedSemaphore
import KallarOS.SchedTimer
import KallarOS.StdioNumerals
import KallarOS.StdioStrings
import KallarOS.TaskPreemption
import KallarOS.TaskRuns
import KallarOS.TestsRuns
import KallarOS.VgaTerminal
