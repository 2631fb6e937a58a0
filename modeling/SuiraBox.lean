import SuiraBox.Library.Words
import SuiraBox.Library.Runs
import SuiraBox.Library.ByteMem
import SuiraBox.Library.Strings
import SuiraBox.Library.Forest
import SuiraBox.Library.X64
import SuiraBox.Library.Trace
import SuiraBox.Library.Loops
import SuiraBox.Library.Rollback
import SuiraBox.Library.Rotation
import SuiraBox.Library.PortIo
import SuiraBox.Library.Devices
import SuiraBox.Library.Checksum
import SuiraBox.Library.PcTimer
import SuiraBox.Library.HexText
import SuiraBox.Mm.Pmm
import SuiraBox.Mm.PageSets
import SuiraBox.Mm.PmmHost
import SuiraBox.Mm.AddressSpace
import SuiraBox.Mm.Ownership
import SuiraBox.Mm.PageTree
import SuiraBox.Mm.UserMap
import SuiraBox.Mm.Vmm
import SuiraBox.Mm.VmmBoot
import SuiraBox.Mm.VmmStore
import SuiraBox.Sched.Scheduler
import SuiraBox.Sched.Selection
import SuiraBox.Sched.CurrentTask
import SuiraBox.Sched.TableInvariant
import SuiraBox.Sched.RoundRobin
import SuiraBox.Arch.SyscallStub
import SuiraBox.Arch.TimerIrq
import SuiraBox.Arch.ContextSwitch
import SuiraBox.Arch.Exceptions
import SuiraBox.Arch.TimerInit
import SuiraBox.Boot.Multiboot
import SuiraBox.Boot.Modules
import SuiraBox.Boot.Framebuffer
import SuiraBox.Boot.ImportTrace
import SuiraBox.Boot.FinderTrace
import SuiraBox.Boot.ModuleNames
import SuiraBox.Boot.ModuleReport
import SuiraBox.Exec.FreshPages
import SuiraBox.Exec.Elf
import SuiraBox.Exec.Process
import SuiraBox.Exec.Isolation
import SuiraBox.Exec.Image
import SuiraBox.Exec.Loading
import SuiraBox.Exec.ProcessTable
import SuiraBox.Exec.LoaderTrace
import SuiraBox.Exec.Room
import SuiraBox.Exec.Acceptance
import SuiraBox.Exec.LinkAddress
import SuiraBox.Exec.EntryPoint
import SuiraBox.Exec.Lifetime
import SuiraBox.Exec.Records
import SuiraBox.Fs.Fat32
import SuiraBox.Fs.ShortNames
import SuiraBox.Fs.FileRead
import SuiraBox.Fs.SectorReads
import SuiraBox.Fs.Directory
import SuiraBox.Fs.Mounting
import SuiraBox.Fs.OnDrive
import SuiraBox.Display.Drawing
import SuiraBox.Display.Colours
import SuiraBox.Display.Mapping
import SuiraBox.Block.AtaPio
import SuiraBox.Block.AtaDrive
import SuiraBox.Block.Vfs
import SuiraBox.Pci.Scan
import SuiraBox.Config.Record
import SuiraBox.Setup.Wizard
import SuiraBox.Arch.FirstProgram
import SuiraBox.Arch.Selftests
