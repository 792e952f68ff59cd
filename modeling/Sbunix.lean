import Sbunix.Boot.Messages
import Sbunix.Interrupt.Stub
import Sbunix.Interrupt.IdtGuard
import Sbunix.Interrupt.Keyboard
import Sbunix.Interrupt.Drain
import Sbunix.Device.PciScan
import Sbunix.Console.Stores
import Sbunix.Console.StatusRow
import Sbunix.Console.KeyPress
import Sbunix.Console.Numbers
import Sbunix.Console.Clock
import Sbunix.Console.Timekeeping
import Sbunix.Console.Formats
import Sbunix.Console.Rendering
import Sbunix.Libc.Standard
import Sbunix.Libc.MallocRuns
import Sbunix.Libc.BlockHeap
import Sbunix.Libc.EnvRuns
import Sbunix.Libc.StdioRuns
import Sbunix.Libc.Gets
import Sbunix.Libc.ReadErrors
import Sbunix.Libc.Readline
import Sbunix.Libc.ReadlineRuns
import Sbunix.Libc.FirstLine
import Sbunix.Sbush.ArgumentLimit
import Sbunix.Sbush.Release
import Sbunix.Sbush.AssignRuns
import Sbunix.Sbush.Prompt
import Sbunix.Sbush.ScriptRuns
import Sbunix.Sbush.ScriptAssigns
import Sbunix.Sbush.Interactive
import Sbunix.Sbush.Sessions
import Sbunix.Sbush.Execution
import Sbunix.Sbush.External
import Sbunix.Sbush.PipelineFlow
import Sbunix.Sbush.Dispatch
import Sbunix.Sbush.Jobs
import Sbunix.Boot.Gdt
import Sbunix.Boot.Kernel
import Sbunix.Bin.Cat
