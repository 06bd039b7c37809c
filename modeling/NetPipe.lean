import NetPipe.TcpLiveness
import NetPipe.TcpExplicit
import NetPipe.TcpCached
import NetPipe.TcpEof
import NetPipe.DriverLimit
import NetPipe.AtoaData
import NetPipe.AtoaDriver
import NetPipe.PointToPoint
import NetPipe.Armci
import NetPipe.Integrity
import NetPipe.Mailbox
import NetPipe.Polling
import NetPipe.Ibv
import NetPipe.LfsrPeriod
import NetPipe.TcpSends
import NetPipe.IbSync
import NetPipe.MpMemcpy
import NetPipe.Extents
import NetPipe.Pool
import NetPipe.Gm
import NetPipe.TcpMemory
import NetPipe.TcpDriver
import NetPipe.ArmciSession
import NetPipe.MpiSession
import NetPipe.Lfsr32
import NetPipe.IntegrityData
import NetPipe.FenceSession
import NetPipe.Streamer
import NetPipe.Memcpy
import NetPipe.Lapi
import NetPipe.LapiData
import NetPipe.GmHeader
import NetPipe.GmLoop
