import LynxTrace.Filtering.BytecodeRoundTrip
import LynxTrace.Service.PacketStreamValidator
import LynxTrace.ProtoVm.MergeLaw
import LynxTrace.ProtoVm.Memory
import LynxTrace.ProtoVm.CursorSafety
import LynxTrace.ProtoVm.KeyedSelection
import LynxTrace.TraceProcessor.ClockRollback
import LynxTrace.TraceProcessor.SlowSorting
import LynxTrace.TraceProcessor.AddressMaps
import LynxTrace.TraceProcessor.SliceNesting
import LynxTrace.TraceProcessor.TokenizerDelivery
import LynxTrace.Core.TreeResults
import LynxTrace.Core.IntegerCast
import LynxTrace.Core.AdhocDataframe
import LynxTrace.Profiling.RingFifo
import LynxTrace.Profiling.HeapDelivery
import LynxTrace.Ui.QuerySlotRuns
import LynxTrace.Redaction.SchedRedaction
import LynxTrace.Ui.UnionQuery
import LynxTrace.Protozero.RingFraming
import LynxTrace.Protozero.TypedRepeated
import LynxTrace.Intrinsics.SlicePacker
import LynxTrace.Intrinsics.NearestAncestor
import LynxTrace.Intrinsics.SliceStacks
import LynxTrace.Intrinsics.CounterIntervals
import LynxTrace.Intrinsics.SliceMipmapWindows
import LynxTrace.Ui.QuerySlotPending
import LynxTrace.Ui.QueueDrain
import LynxTrace.TraceProcessor.GlobMatching
import LynxTrace.Ui.SourceMapLookup
import LynxTrace.Ui.TimelineWindow
import LynxTrace.Profiling.DumpAtMaxRuns
import LynxTrace.Redaction.CompactSchedRedaction
import LynxTrace.Ui.ProtoRingStreams
import LynxTrace.Text.Base64
import LynxTrace.Text.Base64RoundTrip
import LynxTrace.Ipc.BufferedFrameDeserializer
import LynxTrace.Ipc.FrameDelivery
import LynxTrace.TraceProcessor.FlowHistory
import LynxTrace.TraceProcessor.CompressorRuns
import LynxTrace.TraceProcessor.ThreadStateRuns
import LynxTrace.Kallsyms.HighestSymbol
import LynxTrace.Intrinsics.FlamegraphTotals
import LynxTrace.TraceProcessor.SegmentForestRuns
import LynxTrace.Core.MsdRadixSort
import LynxTrace.TraceProcessor.V8ProfileTrees
import LynxTrace.Containers.FlatHashMapRefinement
import LynxTrace.TraceProcessor.JitCodeResolution
import LynxTrace.Ui.Int64Varint
import LynxTrace.Core.BitVectorRuns
import LynxTrace.Containers.IntrusiveTreeRuns
