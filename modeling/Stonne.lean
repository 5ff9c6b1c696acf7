import Stonne.Tpu.Channels
import Stonne.Tpu.Gemm
import Stonne.Reduction.MemoryConnections
import Stonne.TileGenerator.StonneMapper
import Stonne.Distribution.DSNetworkTop
import Stonne.Tpu.PortGrouping
import Stonne.Maeri.Gate
import Stonne.Maeri.Inputs
import Stonne.Utility.Csr
import Stonne.Linker.Batches
import Stonne.Maeri.Reads
import Stonne.Maeri.Throttle
import Stonne.Sigma.SparseRun
import Stonne.SparseDense.Gemm
import Stonne.Reduction.FoldConfig
import Stonne.WriteLoops
import Stonne.TileGenerator.SparseDenseTile
import Stonne.Linker.Pruning
import Stonne.BusLineRun
import Stonne.Maeri.Schedule
import Stonne.TileLoading
import Stonne.Reduction.TreeTiles
