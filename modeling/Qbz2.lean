import Qbz2.Types
import Qbz2.Lib.Rotation
import Qbz2.Crc.Update
import Qbz2.BlockSort.Agree
import Qbz2.Decompress.FastTable
import Qbz2.Decompress.Abstract
import Qbz2.Compress.CodeLengths
import Qbz2.Lib.Heap
import Qbz2.Lib.CodeTree
import Qbz2.Decompress.InverseBwt
import Qbz2.Compress.CompleteCode
import Qbz2.RoundTrip.Codes
import Qbz2.RoundTrip.SideInfo
import Qbz2.RoundTrip.Values
import Qbz2.Compress.Division
import Qbz2.Compress.Granularity
import Qbz2.Compress.Room
import Qbz2.Compress.Overlay
import Qbz2.Compress.BitString
import Qbz2.Decompress.Chunks
import Qbz2.Compress.OneShot
import Qbz2.Compress.TableChoice
import Qbz2.RoundTrip.Output
import Qbz2.RoundTrip.Symbols
import Qbz2.RoundTrip.Stream
import Qbz2.Decompress.Portions
import Qbz2.Decompress.Integrity
import Qbz2.Decompress.Bounds
import Qbz2.Decompress.Reference
import Qbz2.Decompress.Modes
import Qbz2.File.Write
import Qbz2.File.Read
import Qbz2.File.Streams
import Qbz2.Totals
import Qbz2.RoundTrip.Interop
import Qbz2.Compress.Liveness
import Qbz2.File.Session
import Qbz2.Compress.OptimalLengths
import Qbz2.Reference.MainSort
