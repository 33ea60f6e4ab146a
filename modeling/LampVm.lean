import LampVm.Contract
import LampVm.Transition
import LampVm.ByteOrder
import LampVm.Machine
import LampVm.Memory
import LampVm.Interrupt
import LampVm.Alu
import LampVm.Io
import LampVm.Instruction
import LampVm.Create
import LampVm.Branch
import LampVm.Ram
import LampVm.Frame
import LampVm.InstructionRule
import LampVm.Invariant
import LampVm.Safety
import LampVm.MmioCache
import LampVm.Bounds
import LampVm.Access
import LampVm.Framebuffer
import LampVm.Handler
import LampVm.Pending
import LampVm.DiskProtocol
import LampVm.DiskParams
import LampVm.DiskStatusPort
import LampVm.DiskDma
import LampVm.FdTable
import LampVm.Sched
import LampVm.Kernel
import LampVm.Slotwise
import LampVm.InterruptContext
import LampVm.Reentry
import LampVm.Syscall
import LampVm.KernelClock
import LampVm.DivMod
import LampVm.Waitpid
import LampVm.SchedMoves
import LampVm.SleepDeadline
import LampVm.Quantum
import LampVm.RoundRobin
import LampVm.PumpRotation
import LampVm.WaitQueue
import LampVm.TaskExit
import LampVm.Reaping
import LampVm.TaskIds
import LampVm.WaitpidError
import LampVm.StackLayout
import LampVm.Lifo
import LampVm.Periodic
import LampVm.ForwardCopy
import LampVm.Terminal
import LampVm.TimerWorker
import LampVm.TimerThread
import LampVm.ByteString
import LampVm.Loader
import LampVm.BootInfo
import LampVm.FdInvariant
import LampVm.OpenFiles
import LampVm.Ring
import LampVm.Serial
import LampVm.SerialQueue
import LampVm.Isolation
import LampVm.RegisterFields
import LampVm.ClockRegisters
import LampVm.Binary32
import LampVm.LogicOps
import LampVm.FloatToInt
import LampVm.BlockMove
import LampVm.BiosElf
import LampVm.ElfLoading
import LampVm.Decoding
import LampVm.StackLifo
import LampVm.ArithFlags
import LampVm.Console
import LampVm.LineDiscipline
import LampVm.ConsoleWait
import LampVm.LineEnd
import LampVm.ConsoleFb
import LampVm.ConsoleGrid
import LampVm.EraseEcho
import LampVm.FileSyscall
import LampVm.Dispatch
import LampVm.Readiness
import LampVm.SelectPoll
import LampVm.ReadChunks
import LampVm.ReadFailure
import LampVm.SyscallConvention
import LampVm.RealtimeClock
import LampVm.Timeouts
import LampVm.TimeErrors
import LampVm.GuestCode
import LampVm.IrqStub
import LampVm.BiosDisk
import LampVm.SerialDriver
import LampVm.Footprint
import LampVm.PrivateTables
import LampVm.Trap
import LampVm.VmThread
import LampVm.InitShell
import LampVm.InitRead
import LampVm.GuestRaces
