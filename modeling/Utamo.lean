import Utamo.Memory.DirectMap
import Utamo.Heap.Clients
import Utamo.Heap.Transactions
import Utamo.Vmm.Runs
import Utamo.Pmm.NextFit
import Utamo.Pmm.Plan
import Utamo.AddressSpace.Protection
import Utamo.AddressSpace.Transfer
import Utamo.Sched.Order
import Utamo.Sched.Preemption
import Utamo.Elf.Load
import Utamo.Elf.Safety
import Utamo.Fat.Ownership
import Utamo.KernelSpace.Apertures
import Utamo.KernelSpace.Linear
import Utamo.Net.Checksum
import Utamo.Net.DnsAnswers
import Utamo.Net.RoundTrip
import Utamo.Process.Files
import Utamo.Vfs.Layout
import Utamo.Vfs.Newc
