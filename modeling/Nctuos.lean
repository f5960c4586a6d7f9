import Nctuos.Lib.Run
import Nctuos.Lib.Except
import Nctuos.Lib.FoldUpdate
import Nctuos.Lib.ArraySet
import Nctuos.Lib.Chain
import Nctuos.Lib.Threads
import Nctuos.Lib.Placement
import Nctuos.Lib.Turn
import Nctuos.Lib.Tlb
import Nctuos.Lib.RingBuf
import Nctuos.Lib.StringInstr
import Nctuos.Lib.StringCpu
import Nctuos.Lib.Fuel
import Nctuos.Lib.Yields
import Nctuos.Lib.CArray
import Nctuos.Lib.Words
import Nctuos.Lib.X86
import Nctuos.Lib.Overlay
import Nctuos.Lib.Numeral
import Nctuos.Lib.Critical
import Nctuos.Lib.Holdings
import Nctuos.Layout
import Nctuos.Task
import Nctuos.Spinlock
import Nctuos.Smp
import Nctuos.Sched
import Nctuos.SchedStep
import Nctuos.RunQueue
import Nctuos.CurrentTask
import Nctuos.Boot
import Nctuos.Selection
import Nctuos.Sleep
import Nctuos.Exit
import Nctuos.RoundRobin
import Nctuos.DispatchRace
import Nctuos.Frames
import Nctuos.TrapEntry
import Nctuos.Mem
import Nctuos.MpConfig
import Nctuos.Alloc
import Nctuos.BootAlloc
import Nctuos.PageTable
import Nctuos.PageMap
import Nctuos.CheckFreeList
import Nctuos.PageRefs
import Nctuos.PageOps
import Nctuos.DoubleFree
import Nctuos.RefCount
import Nctuos.Unmap
import Nctuos.Tlb
import Nctuos.TaskImage
import Nctuos.DirectMap
import Nctuos.KernPgdir
import Nctuos.TaskFree
import Nctuos.MemStep
import Nctuos.Balance
import Nctuos.TaskPages
import Nctuos.BootMem
import Nctuos.PageOwners
import Nctuos.Progress
import Nctuos.Waiting
import Nctuos.OutOfMemory
import Nctuos.MapRegion
import Nctuos.UserStack
import Nctuos.KernelImage
import Nctuos.DirsAgree
import Nctuos.NullPage
import Nctuos.CpuTable
import Nctuos.ApBoot
import Nctuos.TrapTable
import Nctuos.Descriptors
import Nctuos.SavedFrame
import Nctuos.Interrupts
import Nctuos.Keyboard
import Nctuos.Console
import Nctuos.LibString
import Nctuos.MemMove
import Nctuos.Screen
import Nctuos.ScreenText
import Nctuos.ScreenLock
import Nctuos.AllocLock
import Nctuos.PrintFmt
import Nctuos.PrintPieces
import Nctuos.PrintField
import Nctuos.PrintNum
import Nctuos.StringField
import Nctuos.PrintBuf
import Nctuos.StrFuns
import Nctuos.RunCmd
import Nctuos.Readline
import Nctuos.LineEditor
import Nctuos.EditorSim
import Nctuos.ShellRun
import Nctuos.BootLoader
import Nctuos.UniSched
import Nctuos.SelfTest
import Nctuos.SelfTestRun
