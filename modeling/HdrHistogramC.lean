import HdrHistogramC.BatchPercentile
import HdrHistogramC.EntryRoundTrip
import HdrHistogramC.RecordedIntervals
import HdrHistogramC.OldFormats
import HdrHistogramC.DecodeAggregation
import HdrHistogramC.PhaserQuiescence
import HdrHistogramC.ConcurrentRecording
import HdrHistogramC.RecordedIteration
import HdrHistogramC.OffsetTransparency
import HdrHistogramC.LinearIteration
import HdrHistogramC.LogIteration
import HdrHistogramC.PercentileIteration
import HdrHistogramC.RangeArithmetic
import HdrHistogramC.MeanAccumulator
import HdrHistogramC.BucketConfiguration
import HdrHistogramC.ZigZagCodec
import HdrHistogramC.CountLookup
import HdrHistogramC.HeaderRoundTrip
import HdrHistogramC.ReaderArrays
import HdrHistogramC.SampleBuffers
import HdrHistogramC.RecorderCompletion
import HdrHistogramC.LostBlocks
import HdrHistogramC.Moments
import HdrHistogramC.PercentileRanks
import HdrHistogramC.PlainRecording
import HdrHistogramC.HiccupLogs
