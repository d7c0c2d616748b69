import EmbassySupervisor.Lib.DependencyOrder
import EmbassySupervisor.Lib.Kahn
import EmbassySupervisor.Lib.LabelledRun
import EmbassySupervisor.Lib.Interleaving
import EmbassySupervisor.Lib.Numbering
import EmbassySupervisor.Lib.Preemption
import EmbassySupervisor.Lib.TokenTree
import EmbassySupervisor.Node.TaskHandle
import EmbassySupervisor.Node.Graph
import EmbassySupervisor.Node.World
import EmbassySupervisor.Node.TaskEvent
import EmbassySupervisor.Wave.StopWave
import EmbassySupervisor.Wave.StopOrder
import EmbassySupervisor.Wave.StartWave
import EmbassySupervisor.Wave.StartOrder
import EmbassySupervisor.Verb.OneNode
import EmbassySupervisor.Verb.Selection
import EmbassySupervisor.Verb.Call
import EmbassySupervisor.Verb.Begin
import EmbassySupervisor.Verb.ScaleBlind
import EmbassySupervisor.Verb.ShapeFold
import EmbassySupervisor.Verb.Closure
import EmbassySupervisor.Verb.Deactivate
import EmbassySupervisor.Verb.Activate
import EmbassySupervisor.Verb.Bind
import EmbassySupervisor.Verb.Restart
import EmbassySupervisor.Verb.Latch
import EmbassySupervisor.Verb.System
import EmbassySupervisor.Verb.ShapeSys
import EmbassySupervisor.Verb.Instances
import EmbassySupervisor.Verb.BoundLaw
import EmbassySupervisor.Verb.BindDriver
import EmbassySupervisor.Verb.GateWait
import EmbassySupervisor.Verb.GateFault
import EmbassySupervisor.Budget.Budget
import EmbassySupervisor.Lib.Apportion
import EmbassySupervisor.Budget.FairShare
import EmbassySupervisor.Budget.Ramp
import EmbassySupervisor.Budget.RampRate
import EmbassySupervisor.Budget.Rebalance
import EmbassySupervisor.Shell.Memory
import EmbassySupervisor.Shell.Shell
import EmbassySupervisor.Shell.Conserve
import EmbassySupervisor.Shell.Fresh
import EmbassySupervisor.Shell.ExitRace
import EmbassySupervisor.Shell.Handshake
import EmbassySupervisor.Shell.RaceStage
import EmbassySupervisor.Shell.Race
import EmbassySupervisor.Shell.Residence
import EmbassySupervisor.Shell.Respawn
import EmbassySupervisor.Shell.Resume
import EmbassySupervisor.Pool.Driver
import EmbassySupervisor.Pool.Turn
import EmbassySupervisor.Pool.Bounds
import EmbassySupervisor.Pool.Mailbox
import EmbassySupervisor.Pool.Settle
import EmbassySupervisor.Pool.Cooldown
import EmbassySupervisor.Verb.StopFault
import EmbassySupervisor.Verb.Absent
import EmbassySupervisor.Macro.Fragment
import EmbassySupervisor.Macro.VerbWalk
import EmbassySupervisor.Macro.VerbReports
import EmbassySupervisor.Macro.CfgScope
import EmbassySupervisor.Macro.Derived
import EmbassySupervisor.Macro.DataflowAttr
import EmbassySupervisor.Macro.Scan
import EmbassySupervisor.Macro.Bundle
import EmbassySupervisor.Macro.Items
import EmbassySupervisor.Macro.Clauses
import EmbassySupervisor.Macro.ItemParse
import EmbassySupervisor.Macro.Markers
import EmbassySupervisor.Macro.SlotPlan
import EmbassySupervisor.Macro.SlotNumbers
import EmbassySupervisor.Macro.Contributors
import EmbassySupervisor.Macro.Shape
import EmbassySupervisor.Macro.Sort
import EmbassySupervisor.Macro.SlotTables
import EmbassySupervisor.Trace.Hooks
import EmbassySupervisor.Trace.Nested
import EmbassySupervisor.Monitor.Strikes
import EmbassySupervisor.Monitor.Silence
import EmbassySupervisor.Verb.RestartBudget
import EmbassySupervisor.Verb.NoPanic
import EmbassySupervisor.Verb.Overflow
import EmbassySupervisor.Wave.StartFault
import EmbassySupervisor.Node.Wedge
import EmbassySupervisor.Node.Fence
import EmbassySupervisor.Verb.LiveInstance
import EmbassySupervisor.DataDeps.Leased
import EmbassySupervisor.Budget.GrantWait
import EmbassySupervisor.DataDeps.Backed
import EmbassySupervisor.DataDeps.Unwatched
import EmbassySupervisor.DataDeps.VetoGate
import EmbassySupervisor.Lib.FirstSeen
import EmbassySupervisor.Lint.Dataflow
import EmbassySupervisor.Lint.OrderFree
import EmbassySupervisor.Macro.ShapeSound
import EmbassySupervisor.Trace.Slots
import EmbassySupervisor.Trace.GraphChain
import EmbassySupervisor.Lib.LossyQueue
import EmbassySupervisor.Monitor.Lifecycle
import EmbassySupervisor.Pool.WaveBound
import EmbassySupervisor.Firmware.Scratch
