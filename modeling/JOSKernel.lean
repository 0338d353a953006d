import JOSKernel.General.Positional
import JOSKernel.Lib.FormatAppend
import JOSKernel.Lib.Snprintf
import JOSKernel.Lib.StringMemory
import JOSKernel.Lib.NumberText
import JOSKernel.Lib.FormatText
import JOSKernel.General.Display
import JOSKernel.Kern.ConsoleOutput
import JOSKernel.Kern.Printf
import JOSKernel.Lib.Readline
import JOSKernel.General.CircularQueue
import JOSKernel.Kern.ConsoleInput
import JOSKernel.Boot.Main
import JOSKernel.General.BoundedLoop
import JOSKernel.Boot.ReadSegment
import JOSKernel.General.SparseSearch
import JOSKernel.Kern.StabBinsearch
import JOSKernel.Kern.Kdebug
import JOSKernel.Kern.StabOverrun
import JOSKernel.Kern.StabReads
import JOSKernel.Kern.KdebugReads
import JOSKernel.Kern.KdebugArgs
import JOSKernel.General.PressLog
import JOSKernel.Kern.Keyboard
import JOSKernel.Kern.ConsolePorts
import JOSKernel.Kern.StringOutput
import JOSKernel.Kern.Monitor
import JOSKernel.Lib.ErrorText
import JOSKernel.Lib.FormatWalk
import JOSKernel.Lib.NumberFields
import JOSKernel.Lib.StringFields
import JOSKernel.Lib.LiteralFields
import JOSKernel.General.ThreeWay
import JOSKernel.General.Words
import JOSKernel.Lib.StringCompare
import JOSKernel.Lib.PortableMemory
import JOSKernel.Lib.StrtolForms
import JOSKernel.Lib.LineErase
import JOSKernel.Kern.ConsoleInit
import JOSKernel.Kern.CommandLine
import JOSKernel.General.Interaction
import JOSKernel.General.LossyQueue
import JOSKernel.Kern.MonitorLoop
import JOSKernel.Kern.MonitorCommands
import JOSKernel.Kern.ConsoleLoss
import JOSKernel.Kern.ConsoleAnswers
import JOSKernel.Kern.MonitorSystem
import JOSKernel.Boot.Paging
import JOSKernel.Boot.Processor
import JOSKernel.Boot.Entry
import JOSKernel.Boot.Handover
import JOSKernel.General.CallStack
import JOSKernel.Kern.TestBacktrace
import JOSKernel.Kern.SerialLine
import JOSKernel.Kern.Init
import JOSKernel.Boot.KernelSession
import JOSKernel.General.Polling
import JOSKernel.Boot.DiskPorts
import JOSKernel.Boot.Segments
import JOSKernel.Boot.BootProcessor
import JOSKernel.Boot.BootBlock
import JOSKernel.Boot.PowerOn
