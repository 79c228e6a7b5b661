import FpgaOs.Lib.Machine
import FpgaOs.Lib.Octree
import FpgaOs.Alloc.Buddy
import FpgaOs.Alloc.Transient
import FpgaOs.Alloc.Numbering
import FpgaOs.Alloc.Logarithm
import FpgaOs.Alloc.Overlay
import FpgaOs.Alloc.Slots
import FpgaOs.Alloc.Grant
import FpgaOs.Alloc.Release
import FpgaOs.Alloc.Ledger
import FpgaOs.Alloc.Safety
import FpgaOs.Alloc.Refusal
import FpgaOs.Alloc.Exhaustion
import FpgaOs.Alloc.Capacity
import FpgaOs.Lib.BitField
import FpgaOs.Lib.Linked
import FpgaOs.Mapping.Bucket
import FpgaOs.Mapping.Pipeline
import FpgaOs.Mapping.Effect
import FpgaOs.Mapping.Chains
import FpgaOs.Mapping.Table
import FpgaOs.Mapping.Permission
import FpgaOs.Mapping.FailedSet
import FpgaOs.Mapping.RefusedGet
import FpgaOs.Mapping.KeyZero
import FpgaOs.Lib.Port
import FpgaOs.Lib.Window
import FpgaOs.Mapping.Stages
import FpgaOs.Mapping.Serial
import FpgaOs.Mapping.Pipelined
import FpgaOs.Mapping.Interleaving
import FpgaOs.Mapping.ReservationRing
import FpgaOs.Mapping.ChainAddress
import FpgaOs.Mapping.Progress
import FpgaOs.Lib.Query
import FpgaOs.Rdm.Format
import FpgaOs.Rdm.Stages
import FpgaOs.Rdm.Replies
import FpgaOs.Rdm.Future
import FpgaOs.Rdm.Served
import FpgaOs.Rdm.Drain
import FpgaOs.Rdm.Segment
import FpgaOs.Lib.Countdown
import FpgaOs.Rdm.Lengths
import FpgaOs.Rdm.AllocReply
import FpgaOs.Lib.Feed
import FpgaOs.Lib.Frame
import FpgaOs.Rdm.Framing
import FpgaOs.AppRdma.Parser
import FpgaOs.Net.SysnetRx
import FpgaOs.Paging.AllocMux
import FpgaOs.Paging.Coordinator
import FpgaOs.Icap.Controller
import FpgaOs.Icap.Signalling
import FpgaOs.Icap.FrameReads
import FpgaOs.Libnet.RxLibnet
import FpgaOs.Libnet.Delivery
import FpgaOs.Libnet.Backpressure
import FpgaOs.Lib.Burst
import FpgaOs.Rdm.Writes
import FpgaOs.Lib.Bump
import FpgaOs.Rdm.Addresses
import FpgaOs.Rdm.Requests
import FpgaOs.Rdm.Isolation
import FpgaOs.Lib.ByteMemory
import FpgaOs.Rdm.Memory
import FpgaOs.Rdm.Visible
import FpgaOs.Net.SysnetRx256
import FpgaOs.Lib.Inputs
import FpgaOs.Net.SysnetTx
import FpgaOs.Net.SysnetTx64
import FpgaOs.AxiRab.SynchFifo
import FpgaOs.AxiRab.AsyncFifo
import FpgaOs.AxiRab.GrayPointer
import FpgaOs.AxiRab.RData
import FpgaOs.AxiRab.Dropped
import FpgaOs.AxiRab.BResp
import FpgaOs.AxiRab.AddrCh
import FpgaOs.AxiRab.RabRead
import FpgaOs.Alloc.Chunk
import FpgaOs.Alloc.PermCheck
import FpgaOs.Memcached.HashTable
import FpgaOs.Memcached.Values
import FpgaOs.Lib.Loop
import FpgaOs.Mergesort.Merge
import FpgaOs.Mergesort.Checked
import FpgaOs.Mergesort.Dram
import FpgaOs.Lib.Process
import FpgaOs.AppRdma.HandleRead
import FpgaOs.AppRdma.HandleWrite
import FpgaOs.Net.SysnetRx64
import FpgaOs.Memcached.HeaderHandler
import FpgaOs.Memcached.HeaderInsertion
import FpgaOs.Libnet.AckQueue
import FpgaOs.RdmWorkload.Splitting
import FpgaOs.Lib.Moments
import FpgaOs.AppRdma.Service
import FpgaOs.Lib.SlotMap
import FpgaOs.Memcached.Lookup
import FpgaOs.Memcached.Concurrency
import FpgaOs.Memcached.Stages
import FpgaOs.Lib.Accesses
import FpgaOs.Memcached.Jobs
import FpgaOs.Lib.Links
import FpgaOs.Memcached.Flow
import FpgaOs.Memcached.Buckets
import FpgaOs.Memcached.Decisions
import FpgaOs.Memcached.Progress
import FpgaOs.Memcached.Served
import FpgaOs.Lib.Commuting
import FpgaOs.Lib.Bytes
import FpgaOs.Lib.Lookup3
import FpgaOs.Memcached.Hash
import FpgaOs.Memcached.InputLogic
import FpgaOs.Memcached.FrontEnd
import FpgaOs.Memcached.Dictionary
import FpgaOs.Memcached.WholeTable
import FpgaOs.Memcached.SetAside
import FpgaOs.Memcached.OutputLogic
import FpgaOs.Memcached.HashTableWithBuddy
