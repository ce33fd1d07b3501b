import TinyMultiCore.Buddy.Conservation
import TinyMultiCore.Buddy.Frames
import TinyMultiCore.Buddy.Halves
import TinyMultiCore.Buddy.Merging
import TinyMultiCore.File.AnyFat
import TinyMultiCore.File.EndOfFile
import TinyMultiCore.File.Names
import TinyMultiCore.Kernel.HeadLists
import TinyMultiCore.Kernel.Liba
import TinyMultiCore.Kernel.ListLock
import TinyMultiCore.Kernel.SpinReturn
import TinyMultiCore.Keyboard.Fifo
import TinyMultiCore.Print.Console
import TinyMultiCore.Process.ContextSwitch
import TinyMultiCore.Process.CopyUvm
import TinyMultiCore.Process.Fork
import TinyMultiCore.Process.ForkCaller
import TinyMultiCore.Process.FrameOwnership
import TinyMultiCore.Process.Isolation
import TinyMultiCore.Process.LoadersAgree
import TinyMultiCore.Process.LockHandOver
import TinyMultiCore.Process.PrivateDescriptors
import TinyMultiCore.Process.Progress
import TinyMultiCore.Process.RoundRobin
import TinyMultiCore.Process.Serial
import TinyMultiCore.Process.SwitchVm
import TinyMultiCore.Process.Translation
import TinyMultiCore.Process.Traps
import TinyMultiCore.Process.WaitForDead
import TinyMultiCore.Process.Waiting
import TinyMultiCore.Process.WakeUp
