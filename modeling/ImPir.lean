import ImPir.CpuPir
import ImPir.Aes128
import ImPir.Prng
import ImPir.Striping
import ImPir.DpuKernel
import ImPir.DpuScan
import ImPir.HostAlignment
import ImPir.HostBatch
import ImPir.DpuReduce
import ImPir.PimRetrieval
import ImPir.BatchQueue
import ImPir.BatchDelivery
import ImPir.KeyCompletion
import ImPir.DpfNodes
import ImPir.AesBatch
import ImPir.KeyStream
import ImPir.PrngStream
import ImPir.PrngFailure
import ImPir.BatchAnswers
import ImPir.BatchProgress
import ImPir.BarrierMachine
import ImPir.DpuTasklets
import ImPir.AtomicObject
import ImPir.QueueLinearizable
import ImPir.QueueWakeups
import ImPir.AesOwnership
import ImPir.Ownership
import ImPir.Benchmarks
import ImPir.KeyFormat
import ImPir.CpuBatch
import ImPir.Slices
import ImPir.HostTransfers
import ImPir.Servers
import ImPir.CpuBench
import ImPir.PimBench
import ImPir.PrngReads
import ImPir.KeyLengths
