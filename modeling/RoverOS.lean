import RoverOS.Library.Radix
import RoverOS.Dstack.Basic
import RoverOS.Paging.Basic
import RoverOS.Paging.Theorems.Walk
import RoverOS.Paging.Theorems.Link
import RoverOS.Paging.Theorems.MapPage
import RoverOS.Vmm.Basic
import RoverOS.Vmm.Theorems.Pool
import RoverOS.Vmm.Theorems.RoundTrip
import RoverOS.Paging.Theorems.Pages
import RoverOS.Vmm.Theorems.Frame
import RoverOS.Vmm.Theorems.Markers
import RoverOS.Vmm.Theorems.Share
import RoverOS.Mmap.Basic
import RoverOS.Pmm.Basic
import RoverOS.Library.Run
import RoverOS.Pmm.Theorems.Leaf
import RoverOS.Pmm.Theorems.Blocks
import RoverOS.Pmm.Theorems.Overlap
import RoverOS.Pmm.Theorems.Buddy
import RoverOS.Bootloader.Mmap
import RoverOS.Bootloader.Mem
import RoverOS.Bootloader.Theorems.Free
import RoverOS.Kmalloc.Interface
import RoverOS.Library.Buckets
import RoverOS.Hashtable.Basic
import RoverOS.Hashtable.Theorems.Find
import RoverOS.Kmalloc.Theorems.Interface
import RoverOS.Libc.String
import RoverOS.Hashtable.Theorems.Ops
import RoverOS.Hashtable.Theorems.Map
import RoverOS.Kheap.Basic
import RoverOS.Kheap.Theorems.Header
import RoverOS.Kheap.Theorems.Layout
import RoverOS.Library.Splice
import RoverOS.Kheap.Theorems.Chain
import RoverOS.Kheap.Theorems.Kmalloc
import RoverOS.Kheap.Theorems.Kfree
import RoverOS.Kheap.Theorems.Krealloc
import RoverOS.Kheap.Theorems.Live
import RoverOS.Kheap.Theorems.Sound
import RoverOS.Kheap.Theorems.Border
import RoverOS.Kheap.Theorems.Aligned
import RoverOS.Bootloader.Theorems.Bump
import RoverOS.Bootloader.Theorems.Tables
import RoverOS.Bootloader.Theorems.Refine
import RoverOS.Bootloader.Theorems.TestPath
import RoverOS.Bootloader.Handover
import RoverOS.Bootloader.Theorems.Recorded
import RoverOS.Pmm.Init
import RoverOS.Pmm.Theorems.Init
import RoverOS.Vmm.Theorems.Contiguous
import RoverOS.Vmm.Theorems.HandOut
import RoverOS.Hashtable.Theorems.Cases
import RoverOS.Hashtable.Theorems.Live
import RoverOS.Dstack.Theorems.Stack
import RoverOS.Strings.Basic
import RoverOS.Strings.Theorems.Agree
import RoverOS.Kcache.Basic
import RoverOS.Kcache.Theorems.Buffers
import RoverOS.Kernel.Basic
import RoverOS.Kernel.Theorems.Chain
import RoverOS.Kernel.Theorems.Reenter
import RoverOS.Kernel.Theorems.Markers
import RoverOS.Kernel.Theorems.Locks
import RoverOS.Ramdisk.Basic
import RoverOS.Ramdisk.Theorems.RoundTrip
import RoverOS.Vfs.Basic
import RoverOS.Vfs.Theorems.Cases
import RoverOS.Vfs.Theorems.Counts
import RoverOS.Vfs.Theorems.Stream
import RoverOS.Vfs.Theorems.Collide
import RoverOS.Vfs.Theorems.Lookup
import RoverOS.Vfs.Theorems.Names
import RoverOS.Vfs.Theorems.NameSpace
import RoverOS.Timer.Basic
import RoverOS.Timer.Schedule
import RoverOS.Timer.Theorems.Fires
import RoverOS.Bootloader.Elf
import RoverOS.Pmm.Theorems.Orders
import RoverOS.Pmm.Theorems.Select
import RoverOS.Pmm.Theorems.FreeRange
import RoverOS.Pmm.Theorems.Region
import RoverOS.Pmm.Theorems.Undo
import RoverOS.Pmm.Theorems.Full
import RoverOS.Pmm.Theorems.Address
import RoverOS.Kheap.Theorems.Search
import RoverOS.Kheap.Theorems.Boundary
import RoverOS.Kheap.Theorems.Kept
import RoverOS.Paging.Theorems.Refuse
import RoverOS.Hashtable.Theorems.Create
import RoverOS.Kcache.Theorems.Counts
import RoverOS.Vfs.Path
import RoverOS.Vfs.Theorems.Inside
import RoverOS.Vfs.Theorems.Resolve
import RoverOS.Library.Sweep
import RoverOS.Paging.Theorems.Levels
import RoverOS.Paging.Theorems.Range
import RoverOS.Vmm.Theorems.Permissions
import RoverOS.Vmm.Theorems.Leaves
import RoverOS.Vmm.Theorems.Linear
import RoverOS.Vmm.Theorems.PhysRange
import RoverOS.Vmm.Theorems.Grown
import RoverOS.Vmm.Theorems.Growth
import RoverOS.Bootloader.Theorems.Linear
import RoverOS.Timer.Theorems.Register
import RoverOS.Timer.Theorems.Queue
import RoverOS.Ramdisk.Theorems.Buffer
import RoverOS.Ramdisk.Theorems.Request
import RoverOS.Ramdisk.Reads
import RoverOS.Ramdisk.Theorems.Image
import RoverOS.Vfs.Theorems.Seek
import RoverOS.Vfs.Devices
import RoverOS.Vfs.Theorems.Unmount
import RoverOS.Dstack.Memory
import RoverOS.Dstack.Theorems.Resize
import RoverOS.Cpu.Interrupts
import RoverOS.Cpu.Theorems.Handlers
import RoverOS.Library.Numeral
import RoverOS.Library.Stack
import RoverOS.Library.Iterate
import RoverOS.Ksym.Basic
import RoverOS.Ksym.Theorems.Lookup
import RoverOS.Acpi.Tables
import RoverOS.Acpi.Theorems.Tables
import RoverOS.Kprint.Basic
import RoverOS.Kprint.Theorems.Hex
import RoverOS.Kprint.Theorems.Decimal
import RoverOS.Kprint.Theorems.Scanner
import RoverOS.Ioapic.Basic
import RoverOS.Ioapic.Theorems.Entries
import RoverOS.Cpu.Stubs
import RoverOS.Cpu.Theorems.Resume
import RoverOS.Acpi.Madt
import RoverOS.Acpi.Theorems.Search
import RoverOS.Acpi.Theorems.Walk
import RoverOS.Acpi.Theorems.Loops
import RoverOS.Acpi.Theorems.Enumerate
import RoverOS.Acpi.Theorems.Ends
import RoverOS.Acpi.Theorems.Count
import RoverOS.Library.Bits
import RoverOS.Mmap.Lookup
import RoverOS.Mmap.Theorems.Lookup
import RoverOS.Cpu.Gdt
import RoverOS.Cpu.Theorems.Gdt
import RoverOS.Lienzo.Basic
import RoverOS.Lienzo.Theorems.Window
import RoverOS.Task.Sleep
import RoverOS.Task.Theorems.Sleep
import RoverOS.Library.Trail
import RoverOS.Pci.Basic
import RoverOS.Pci.Theorems.Address
import RoverOS.Pci.Theorems.Scan
import RoverOS.Pci.Msi
import RoverOS.Pci.Theorems.Capabilities
import RoverOS.Bootloader.Requests
import RoverOS.Bootloader.Theorems.Tracked
import RoverOS.Bootloader.Theorems.Clearing
import RoverOS.Library.Pick
import RoverOS.Ksym.Init
import RoverOS.Ksym.Theorems.Init
import RoverOS.Bootloader.Theorems.Identity
import RoverOS.Aarch64.Mem
import RoverOS.Aarch64.Theorems.Mem
import RoverOS.Pmm.Theorems.Fill
import RoverOS.Kcache.Theorems.Words
import RoverOS.Kcache.Links
import RoverOS.Kcache.Theorems.Links
import RoverOS.Pmm.Access
import RoverOS.Pmm.Theorems.Access
import RoverOS.Pmm.Theorems.InRange
import RoverOS.Pmm.Theorems.Overrun
import RoverOS.Bootloader.Theorems.Complete
import RoverOS.Bootloader.Theorems.Chunks
import RoverOS.Bootloader.Theorems.Image
import RoverOS.Library.History
import RoverOS.Library.Ledger
import RoverOS.Kmalloc.Theorems.Blocks
import RoverOS.Hashtable.Theorems.Tokens
import RoverOS.Hashtable.Theorems.Release
import RoverOS.Hashtable.Theorems.Destroy
import RoverOS.Vmm.Theorems.Takeover
import RoverOS.Pmm.Theorems.Lifetime
import RoverOS.Kheap.Theorems.Conserved
import RoverOS.Mutex.Exclusion
import RoverOS.Fault.Trace
import RoverOS.Fault.Theorems.Trace
import RoverOS.Vmm.Theorems.Spaces
import RoverOS.Cpu.Theorems.Idt
import RoverOS.Com.Send
import RoverOS.Kprint.Theorems.Line
import RoverOS.Ramdisk.Theorems.Served
