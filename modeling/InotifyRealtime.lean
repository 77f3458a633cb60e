import InotifyRealtime.EventStream
import InotifyRealtime.DirectoryTreeSound
import InotifyRealtime.DirectoryThreadSound
import InotifyRealtime.LifecycleRuns
import InotifyRealtime.Shutdown
import InotifyRealtime.DispatchPath
import InotifyRealtime.Moves
import InotifyRealtime.Restarts
import InotifyRealtime.DecodeLeaks
import InotifyRealtime.ErrorCount
import InotifyRealtime.WaitSignalKill
import InotifyRealtime.InitializeLeaks
import InotifyRealtime.CoreStops
import InotifyRealtime.WalkPaths
import InotifyRealtime.Vanishing
import InotifyRealtime.WatchersApart
import InotifyRealtime.MaskText
import InotifyRealtime.QueueBound
import InotifyRealtime.FailingReads
import InotifyRealtime.StoppedWalk
import InotifyRealtime.Delivery
import InotifyRealtime.ShutdownEnds
import InotifyRealtime.ReportText
import InotifyRealtime.CoreCalls
import InotifyRealtime.Monitoring
import InotifyRealtime.WatchLimit
import InotifyRealtime.Overflow
