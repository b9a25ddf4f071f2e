import GalapagOS.Lib.BitField
import GalapagOS.Lib.Memory
import GalapagOS.Lib.Buffer
import GalapagOS.Lib.Strings
import GalapagOS.Lib.CString
import GalapagOS.Lib.Lines
import GalapagOS.Lib.Ring
import GalapagOS.Lib.SinglyLinked
import GalapagOS.Lib.Forest
import GalapagOS.Lib.WordStack
import GalapagOS.Lib.Run
import GalapagOS.Lib.Mailbox
import GalapagOS.Lib.Oscillator
import GalapagOS.Lib.I8259
import GalapagOS.Lib.Cmos
import GalapagOS.LibC
import GalapagOS.LibC.Memcpy
import GalapagOS.LibC.Numbers
import GalapagOS.LibC.Printf
import GalapagOS.FileSystem.Common
import GalapagOS.FileSystem.Theorems
import GalapagOS.FileSystem.Names
import GalapagOS.FileSystem.Slices
import GalapagOS.Paging.Common
import GalapagOS.Paging.Theorems
import GalapagOS.Paging.Isolation
import GalapagOS.Terminal.Common
import GalapagOS.Terminal.Lines
import GalapagOS.Terminal.Editor
import GalapagOS.Terminal.Driver
import GalapagOS.Terminal.Room
import GalapagOS.Terminal.Bounds
import GalapagOS.Terminal.Reader
import GalapagOS.Terminal.Delivery
import GalapagOS.Terminal.Replay
import GalapagOS.Terminal.Cursor
import GalapagOS.Terminal.Position
import GalapagOS.Terminal.HardwareCursor
import GalapagOS.Terminal.Reference
import GalapagOS.Terminal.Scroll
import GalapagOS.Keyboard.Common
import GalapagOS.Keyboard.Rows
import GalapagOS.Keyboard.Journal
import GalapagOS.Keyboard.Theorems
import GalapagOS.Keyboard.Runs
import GalapagOS.Keyboard.Bounds
import GalapagOS.Keyboard.Recall
import GalapagOS.Schedule.Common
import GalapagOS.Schedule.Theorems
import GalapagOS.Schedule.Runs
import GalapagOS.Kernel.Common
import GalapagOS.Kernel.Files
import GalapagOS.Kernel.Rtc
import GalapagOS.Kernel.Descriptors
import GalapagOS.Kernel.Reads
import GalapagOS.Kernel.Buffers
import GalapagOS.Kernel.Positions
import GalapagOS.Kernel.Process
import GalapagOS.Kernel.CommandLine
import GalapagOS.Kernel.Frame
import GalapagOS.Kernel.Steps
import GalapagOS.Kernel.Boot
import GalapagOS.Kernel.Tree
import GalapagOS.Kernel.Directory
import GalapagOS.Kernel.Video
import GalapagOS.Kernel.Terminals
import GalapagOS.Kernel.Pages
import GalapagOS.Kernel.Screens
import GalapagOS.Kernel.Editing
import GalapagOS.Kernel.Admission
import GalapagOS.Kernel.Arguments
import GalapagOS.Kernel.Vidmap
import GalapagOS.Kernel.Output
import GalapagOS.Kernel.Waiting
import GalapagOS.Kernel.Isolation
import GalapagOS.Kernel.Listing
import GalapagOS.Machine.Common
import GalapagOS.Machine.Protocol
import GalapagOS.Machine.Invariant
import GalapagOS.Machine.Execute
import GalapagOS.Machine.Halt
import GalapagOS.Machine.Switch
import GalapagOS.Machine.Sound
import GalapagOS.Machine.Ownership
import GalapagOS.Machine.ExitStatus
import GalapagOS.Machine.Globals
import GalapagOS.Machine.FileCalls
import GalapagOS.Machine.Preemption
import GalapagOS.Linkage.SystemCall
import GalapagOS.Linkage.Timer
import GalapagOS.Linkage.Frames
import GalapagOS.Linkage.Call
import GalapagOS.Interrupts.Driver
import GalapagOS.Interrupts.Idt
import GalapagOS.Interrupts.Service
import GalapagOS.Interrupts.Clock
import GalapagOS.Grep.Common
import GalapagOS.Grep.Theorems
import GalapagOS.Programs.Common
import GalapagOS.Programs.Cat
import GalapagOS.Programs.Ls
import GalapagOS.Fish.Blink
import GalapagOS.Fish.BlinkList
import GalapagOS.Fish.Phase
import GalapagOS.Fish.Frames
