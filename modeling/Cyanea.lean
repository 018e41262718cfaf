import Cyanea.Math.Joining
import Cyanea.Math.Segments
import Cyanea.Math.Run
import Cyanea.Word
import Cyanea.Memory.Memblock
import Cyanea.Memory.FillList
import Cyanea.Memory.IsolateList
import Cyanea.Memory.Operations
import Cyanea.Memory.Allocate
import Cyanea.Memory.Bounds
import Cyanea.Memory.Coverage
import Cyanea.Memory.Session
import Cyanea.Memory.Blocks
import Cyanea.Acpi.Subtables
import Cyanea.Acpi.Entries
import Cyanea.Acpi.Madt
import Cyanea.Acpi.Processors
import Cyanea.Framebuffer.Efifb
import Cyanea.Framebuffer.Terminal
import Cyanea.Apic.CpuNumbers
import Cyanea.Apic.IoApic
import Cyanea.Mm.PermanentMapping
import Cyanea.Boot.BitReader
import Cyanea.Boot.Blocks
import Cyanea.Boot.DeflateBuffer
import Cyanea.Boot.ExitBootServices
import Cyanea.Boot.Gzip
import Cyanea.Boot.GzipMember
import Cyanea.Boot.CodeLengths
import Cyanea.Boot.Matches
import Cyanea.Boot.BitStream
import Cyanea.Boot.SortedSymbols
import Cyanea.Efi.MemoryMap
import Cyanea.Efi.UpdateTable
import Cyanea.Efi.AllocatePages
import Cyanea.Init.Params
import Cyanea.Init.Words
import Cyanea.IoBuffer.Buffer
import Cyanea.IoBuffer.Directives
import Cyanea.IoBuffer.Read
import Cyanea.IoBuffer.RoundTrip
import Cyanea.IoBuffer.Write
import Cyanea.IoBuffer.Numbers
import Cyanea.IoBuffer.Precisions
import Cyanea.Mm.FixmapSession
import Cyanea.Mm.InitMapping
import Cyanea.Mm.EarlyFaults
import Cyanea.Mm.Slots
import Cyanea.Mm.CacheModes
import Cyanea.Consoles.Register
import Cyanea.Uart.Console8250
import Cyanea.Uklib.Comparing
import Cyanea.Uklib.Copying
import Cyanea.Uklib.Searching
import Cyanea.Asm.Machine
import Cyanea.Asm.Stack
import Cyanea.Entry.Code
import Cyanea.Entry.Entering
import Cyanea.Entry.Returning
import Cyanea.Setup.PerCpu
import Cyanea.Efi.Entry
