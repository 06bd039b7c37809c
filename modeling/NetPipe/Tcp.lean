/-
  The TCP module, `tcp.c`: control words in network order, the six-byte synchronisation string,
  and the send and receive loops over short writes and partial reads.

  The connection of `Setup` and `establish` is taken as given; `commfd` is the pair of byte
  streams of `NetPipe.Lib.Duplex`, and each call of `read` or `write` names the place it is made
  from (`Site`).

  All calls are made as the source makes them: a loop that repeats a short write, or not, a test of
  the answer for its sign, or none at all.  Which of these differences matter is for the modules
  that follow to say.  Sessions between two such processes are `NetPipe.TcpSession` and those that
  build on it; one process against a stream that may end, or a write that may be short, is in
  `NetPipe.TcpEof`, `NetPipe.TcpWire` and `NetPipe.TcpSends`.
-/
import NetPipe.Lib.Duplex
import NetPipe.Buffers

namespace NetPipe.Tcp

open Memory Process Duplex

/-- The places the module reads and writes the socket from. -/
inductive Site where
  /-- `SendRepeat` and `RecvRepeat`. -/
  | rpt
  /-- `SendTime` and `RecvTime`. -/
  | time
  /-- `Sync`. -/
  | sync
  /-- `SendData` and `RecvData`. -/
  | data
  deriving DecidableEq, Repr

/-- Programs over the socket. -/
abbrev TcpProg (α : Type) := Prog Site Event α

/-- The TCP module has no protocol data the modelled functions use. -/
abbrev Host := Netpipe Unit

/-- `Init`: whoever does not transmit receives. -/
def init (h : Host) : Host := { h with args.rcv := !h.args.tr }

/-! ## Control words -/

/-- What `readFully` returns once its loop is left with `bytesRead`. -/
def readFully.finish (len : Nat) (bytesRead : Int) (buf : List UInt8) :
    TcpProg (Int × List UInt8) :=
  .ret (if bytesRead ≤ 0 then bytesRead else len, buf)

/-- The loop of `readFully`; `off` is how far `buf` has been advanced. -/
def readFully.loop (site : Site) (len bytesLeft off : Nat) (bytesRead : Int) (buf : List UInt8) :
    TcpProg (Int × List UInt8) :=
  if _h : 0 < bytesLeft then
    .io (.read site bytesLeft) fun
      | none => finish len (-1) buf
      | some bs =>
        if _h' : 0 < bs.length then do
          let buf ← Proc.ofOption (storeAt buf off bs)
          loop site len (bytesLeft - bs.length) (off + bs.length) bs.length buf
        else finish len 0 buf
  else finish len bytesRead buf
termination_by bytesLeft

/-- `readFully(fd, obuf, len)`: the value returned and the buffer afterwards. -/
def readFully (site : Site) (obuf : List UInt8) (len : Nat) : TcpProg (Int × List UInt8) :=
  readFully.loop site len len 0 0 obuf

/-- `SendRepeat(p, rpt)`. -/
def sendRepeat (h : Host) (rpt : UInt32) : TcpProg Host :=
  let nrpt := htonl h.order rpt
  .io (.write .rpt (toBytes h.order nrpt)) fun
    | none => .exit 304 "NetPIPE: write failed in SendRepeat: errno=%d\n"
    | some _ => .ret h

/-- `RecvRepeat(p, rpt)`.  The local `nrpt` is not initialised; it is only used once `readFully`
    has filled it. -/
def recvRepeat (h : Host) : TcpProg (UInt32 × Host) := do
  let (bytesRead, nrpt) ← readFully .rpt (List.replicate 4 0) 4
  if bytesRead < 0 then .exit 305 "NetPIPE: read failed in RecvRepeat: errno=%d\n"
  else if bytesRead ≠ 4 then .exit 306 "NetPIPE: partial read in RecvRepeat of %d bytes\n"
  else .ret (ntohl h.order (ofBytes h.order nrpt), h)

section time

-- `T` is the `double` of the source; `toTicks t` is `(uint32_t)(t * 1.e8)` and `ofTicks w` is
-- `(double)w / 1.0e8`
variable {T : Type} (toTicks : T → UInt32) (ofTicks : UInt32 → T)

/-- `SendTime(p, t)`. -/
def sendTime (h : Host) (t : T) : TcpProg Host :=
  let ltime := toTicks t
  let ntime := htonl h.order ltime
  .io (.write .time (toBytes h.order ntime)) fun
    | none => .exit 301 "NetPIPE: write failed in SendTime: errno=%d\n"
    | some _ => .ret h

/-- `RecvTime(p, t)`, with `ntime` uninitialised as in `RecvRepeat`. -/
def recvTime (h : Host) : TcpProg (T × Host) := do
  let (bytesRead, ntime) ← readFully .time (List.replicate 4 0) 4
  if bytesRead < 0 then .exit 302 "NetPIPE: read failed in RecvTime: errno=%d\n"
  else if bytesRead ≠ 4 then .exit 303 "NetPIPE: partial read in RecvTime of %d bytes\n"
  else
    let ltime := ntohl h.order (ofBytes h.order ntime)
    .ret (ofTicks ltime, h)

end time

/-! ## Synchronisation -/

/-- "SyncMe". -/
def syncMe : List UInt8 := [0x53, 0x79, 0x6E, 0x63, 0x4D, 0x65]

/-- `strncmp(s, t, n) ≠ 0`: a difference among the first `n` characters, up to the end of the
    strings. -/
def strncmp : (n : Nat) → (s t : List UInt8) → Bool
  | 0, _, _ => false
  | n + 1, a :: s, b :: t => if a ≠ b then true else if a = 0 then false else strncmp n s t
  | _ + 1, s, t => s.length ≠ t.length

/-- `Sync(p)`. -/
def sync (h : Host) : TcpProg Host :=
  .io (.write .sync syncMe) fun
    | none => .exit 3 "NetPIPE: error writing or reading synchronization string"
    | some _ => do
      -- six blanks and the terminating null
      let (bytesRead, response) ← readFully .sync (List.replicate 6 0x20 ++ [0]) 6
      if bytesRead < 0 then
        .exit 3 "NetPIPE: error writing or reading synchronization string"
      else if strncmp 6 syncMe response then
        .exit 3 "NetPIPE: Synchronization string incorrect! |%s|\n"
      else .ret h

/-- `PrepareToReceive(p)`: sockets have no way to pre-post a buffer. -/
def prepareToReceive (h : Host) : TcpProg Host := .ret h

/-- `AfterAlignmentInit(p)`. -/
def afterAlignmentInit (h : Host) : TcpProg Host := .ret h

/-! ## Data -/

/-- What `SendData` does once its loop is left with `bytesWritten`. -/
def sendData.finish (h : Host) (bytesWritten : Int) : TcpProg Host :=
  if bytesWritten = -1 then .exit 401 "NetPIPE: write: error encountered, errno=%d\n"
  else .ret h

/-- The loop of `SendData`; `off` is how far `q` has been advanced. -/
def sendData.loop (h : Host) (bytesLeft off : Nat) (bytesWritten : Int) : TcpProg Host :=
  if _h : 0 < bytesLeft then do
    let q ← Proc.ofOption (h.heap.load (h.args.sPtr.add off) bytesLeft)
    .io (.write .data q) fun
      | none => finish h (-1)
      | some n =>
        if _h' : 0 < n then loop h (bytesLeft - n) (off + n) n else finish h 0
  else finish h bytesWritten
termination_by bytesLeft

/-- `SendData(p)`. -/
def sendData (h : Host) : TcpProg Host := sendData.loop h h.args.bufflen.toNat 0 0

/-- What `RecvData` does once its loop is left.  The end of the stream is reported and the
    function returns; only an error ends the process. -/
def recvData.finish (h : Host) (bytesLeft : Nat) (bytesRead : Int) : TcpProg Host :=
  if 0 < bytesLeft ∧ bytesRead = 0 then
    .emit (.printf "NetPIPE: \"end of file\" encountered on reading from socket\n") (.ret h)
  else if bytesRead = -1 then .exit 401 "NetPIPE: read: error encountered, errno=%d\n"
  else .ret h

/-- The loop of `RecvData`; `off` is how far `q` has been advanced. -/
def recvData.loop (h : Host) (bytesLeft off : Nat) (bytesRead : Int) : TcpProg Host :=
  if _h : 0 < bytesLeft then
    .io (.read .data bytesLeft) fun
      | none => finish h bytesLeft (-1)
      | some bs =>
        if _h' : 0 < bs.length then do
          let heap ← Proc.ofOption (h.heap.store (h.args.rPtr.add off) bs)
          loop { h with heap } (bytesLeft - bs.length) (off + bs.length) bs.length
        else finish h bytesLeft 0
  else finish h bytesLeft bytesRead
termination_by bytesLeft

/-- `RecvData(p)`. -/
def recvData (h : Host) : TcpProg Host := recvData.loop h h.args.bufflen.toNat 0 0

/-- `netpipe.c` linked with `tcp.c`. -/
def tcp : Module (StreamOp Site) StreamOp.Res Unit where
  sendRepeat := sendRepeat
  recvRepeat := recvRepeat
  myMalloc := myMalloc
  initBufferData := initBufferData
  afterAlignmentInit := afterAlignmentInit
  prepareToReceive := prepareToReceive
  sync := sync
  sendData := sendData
  recvData := recvData
  checkBufferData := checkBufferData
  freeBuff := freeBuff

theorem tcp_generic : tcp.Generic := ⟨rfl, rfl, rfl, rfl, rfl⟩

end NetPipe.Tcp
