import JackFofs.Queue.Basic
import JackFofs.Lib.Partition
import JackFofs.Lib.Seg
import JackFofs.Queue.Lists
import JackFofs.Queue.Spec
import JackFofs.Ctrl.Basic
import JackFofs.Ctrl.Spec
import JackFofs.Lib.Run
import JackFofs.Queue.Ring
import JackFofs.Seq.System
import JackFofs.Seq.Conservation
import JackFofs.Seq.Events
import JackFofs.Seq.FrameClock
import JackFofs.Seq.Stranding
import JackFofs.Queue.Admission
import JackFofs.Seq.Transport
import JackFofs.Conc.FreeList
import JackFofs.Conc.Pool
import JackFofs.Conc.Machine
import JackFofs.Conc.Lists
import JackFofs.Conc.Invariant
import JackFofs.Conc.Slots
import JackFofs.Conc.Plan
import JackFofs.Conc.Solo
import JackFofs.Conc.Contention
import JackFofs.Seq.Effect
import JackFofs.Seq.Banks
import JackFofs.Seq.Recovery
import JackFofs.Seq.Jumps
import JackFofs.Client.Clock
import JackFofs.Client.Reads
import JackFofs.Conc.Account
import JackFofs.Conc.Cache
import JackFofs.Conc.Excess
import JackFofs.Conc.Timeline
import JackFofs.Conc.Overtaken
import JackFofs.Queue.Emptied
import JackFofs.Lib.RoundRobin
import JackFofs.Seq.Fairness
import JackFofs.Base.Conversion
import JackFofs.Lib.Memory
import JackFofs.Shmem.Layout
import JackFofs.Lib.Grid
import JackFofs.Offline.Process
import JackFofs.Queue.Checker
import JackFofs.Client.Handles
import JackFofs.Conc.HighWater
import JackFofs.Conc.Bounds
import JackFofs.Lib.Refinement
import JackFofs.Conc.Refine
import JackFofs.Lib.Potential
import JackFofs.Conc.Progress
import JackFofs.Lib.Mailbox
import JackFofs.Conc.Delivery
import JackFofs.Client.Lead
import JackFofs.Seq.RingSize
import JackFofs.Lib.Ownership
import JackFofs.Resources.System
import JackFofs.Resources.Offline
import JackFofs.Resources.Clients
import JackFofs.Resources.Manager
import JackFofs.Resources.Api
import JackFofs.Lib.Superposition
import JackFofs.Lib.Wheel
import JackFofs.Seq.Parallel
import JackFofs.Offline.Online
