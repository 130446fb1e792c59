import CachelibArchive.Backend.Interface
import CachelibArchive.Backend.LevelDBBench
import CachelibArchive.Backend.Percentile
import CachelibArchive.Backend.RowCache
import CachelibArchive.Backend.Scan
import CachelibArchive.Backend.Sql
import CachelibArchive.Backend.TmdbFiles
import CachelibArchive.ClientServer.AtomicCalls
import CachelibArchive.ClientServer.Progress
import CachelibArchive.ClientServer.RegistryProgress
import CachelibArchive.ClientServer.TailLatency
import CachelibArchive.Control.Direction
import CachelibArchive.Control.LastLine
import CachelibArchive.Control.Registration
import CachelibArchive.Control.Round
import CachelibArchive.Tmdb.Buffers
import CachelibArchive.Tmdb.Comparison
import CachelibArchive.Tmdb.DataFile
import CachelibArchive.Tmdb.Delete
import CachelibArchive.Tmdb.FailedWrites
import CachelibArchive.Tmdb.Interrupted
import CachelibArchive.Tmdb.LoadRun
import CachelibArchive.Tmdb.Locks
import CachelibArchive.Tmdb.MapRun
import CachelibArchive.Tmdb.Replace
import CachelibArchive.Tmdb.Termination
