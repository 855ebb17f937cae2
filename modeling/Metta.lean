import Metta.Machine.Word
import Metta.Machine.Memory
import Metta.Machine.Tiling
import Metta.Machine.RunLength
import Metta.Machine.Outcome
import Metta.Machine.TwoLevel
import Metta.Machine.DLList
import Metta.HeapMod.Def
import Metta.HeapMod.Layout
import Metta.HeapMod.Inv
import Metta.HeapMod.Ops
import Metta.HeapMod.Allocate
import Metta.HeapMod.Run
import Metta.HeapMod.Merge
import Metta.HeapMod.Coalesce
import Metta.Machine.TicketGate
import Metta.Machine.Packed
import Metta.Machine.Trace
import Metta.HeapMod.Lock
import Metta.FramesMod.Def
import Metta.FramesMod.Find
import Metta.FramesMod.Take
import Metta.FramesMod.Run
import Metta.FramesMod.Ranges
import Metta.FramesMod.Boot
import Metta.FramesMod.Quota
import Metta.FramesMod.Free
import Metta.FramesMod.RegionList
import Metta.MmuMod.Def
import Metta.MmuMod.Table
import Metta.MmuMod.Refine
import Metta.Events.Def
import Metta.Events.Queue
import Metta.Events.WakeUp
import Metta.Events.Instance
import Metta.Events.Attach
import Metta.Machine.Chase
import Metta.Machine.Exits
import Metta.Events.Activations
import Metta.Events.Queues
import Metta.Events.Await
import Metta.Events.Mutex
import Metta.Machine.Stepper
import Metta.Machine.Cover
import Metta.Machine.Records
import Metta.Exceptions.Def
import Metta.Exceptions.Structured
import Metta.Exceptions.Simulation
import Metta.Exceptions.Chain
import Metta.Exceptions.Refine
import Metta.StretchAllocatorMod.Def
import Metta.StretchAllocatorMod.Partition
import Metta.StretchAllocatorMod.Exhaustion
import Metta.StretchAllocatorMod.Sids
import Metta.StretchAllocatorMod.NailedCreate
import Metta.MmuMod.Domains
import Metta.MmuMod.DomainRuns
import Metta.MmuMod.Rights
import Metta.MmuMod.Ranges
import Metta.MmuMod.UpdateRange
import Metta.MmuMod.Budget
import Metta.MmuMod.Mappings
import Metta.MmuMod.MappedRange
import Metta.Bootinfo.Def
import Metta.Bootinfo.Log
import Metta.Bootinfo.UseMemory
import Metta.FramesMod.InMemory
import Metta.Bootinfo.HighMem
import Metta.Bootinfo.Gaps
import Metta.Bootinfo.FirstGap
import Metta.RootDomain.Bootstrap
import Metta.RootDomain.Reservation
import Metta.Machine.Bytes
import Metta.BuildBoot.Def
import Metta.BuildBoot.Layout
import Metta.BuildBoot.Modules
import Metta.BuildBoot.RootNamespace
import Metta.BuildBoot.Walk
import Metta.Machine.Placement
import Metta.ModuleLoader.Elf
import Metta.ModuleLoader.Def
import Metta.ModuleLoader.Layout
import Metta.ModuleLoader.Runs
import Metta.ModuleLoader.Image
import Metta.ModuleLoader.Contents
import Metta.ModuleLoader.PositionIndependence
import Metta.ModuleLoader.Registry
import Metta.ModuleLoader.Symbols
import Metta.Machine.UnorderedMap
import Metta.Tables.Def
import Metta.Tables.Maps
import Metta.Machine.Split
import Metta.TypesystemMod.Def
import Metta.TypesystemMod.Registry
import Metta.TypesystemMod.Queries
import Metta.TypesystemMod.Subtypes
import Metta.TypesystemMod.Lookup
import Metta.TypesystemMod.Aliases
import Metta.Meddler.Ast
import Metta.Meddler.Emit
import Metta.Meddler.MethodTables
import Metta.Meddler.Fingerprint
import Metta.Machine.Attempt
import Metta.Meddler.Lexer
import Metta.Meddler.Parser
import Metta.Meddler.Syntax
import Metta.Meddler.Reading
import Metta.Meddler.Accepts
import Metta.Meddler.Lists
import Metta.Meddler.Declarations
import Metta.Meddler.Interface
import Metta.Meddler.Grammar
import Metta.Meddler.Scanning
import Metta.Meddler.Closure
import Metta.MettaFs.Devices
import Metta.MettaFs.LruList
import Metta.MettaFs.Bookkeeping
import Metta.MettaFs.StorageFile
import Metta.MettaFs.Requests
import Metta.MettaFs.Flushing
import Metta.MettaFs.Coherence
import Metta.MettaFs.Vfs
import Metta.MettaFs.Superblock
import Metta.MettaFs.Mkfs
import Metta.Machine.Multiway
import Metta.Machine.XorShift
import Metta.Machine.ShiftRegister
import Metta.Runtime.MersenneTwister
import Metta.MettaFs.BTree.Def
import Metta.MettaFs.BTree.Search
import Metta.MettaFs.BTree.Split
import Metta.MettaFs.BTree.Insert
import Metta.MettaFs.BTree.Runs
import Metta.Machine.Hierarchy
import Metta.ContextMod.Def
import Metta.ContextMod.Paths
import Metta.ContextMod.Removal
import Metta.Runtime.Compare
import Metta.Runtime.Cstring
import Metta.Runtime.MemUtils
import Metta.DefaultConsole.Def
import Metta.DefaultConsole.Window
import Metta.DefaultConsole.Port
import Metta.Debugger.Backtrace
import Metta.Machine.Interaction
import Metta.Ne2k.Def
import Metta.Ne2k.Transmit
import Metta.Ne2k.Card
import Metta.Ne2k.Receive
import Metta.Ne2k.Notify
import Metta.ParseDwarf.Leb128
import Metta.ParseDwarf.Lines
import Metta.ParseDwarf.LineLookup
import Metta.ParseDwarf.Aranges
import Metta.ParseDwarf.LineProgram
import Metta.ParseDwarf.LineMatrix
import Metta.ParseDwarf.Forms
import Metta.ParseDwarf.Abbrev
import Metta.ParseDwarf.Info
import Metta.ParseDwarf.DieTree
import Metta.ParseDwarf.DieSearch
import Metta.ParseDwarf.LineTable
import Metta.ParseDwarf.FindAddress
import Metta.ParseDwarf.AddressLookup
import Metta.ParseDwarf.Log
import Metta.Bootinfo.MemoryMap
