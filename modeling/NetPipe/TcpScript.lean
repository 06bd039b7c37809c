/-
  The TCP functions against scripts: what each of them puts, gets and leaves behind.

  One lemma per function of `tcp.c`, on either side of the connection: with the function's bytes at
  the front of the script, it is enough to go on behind them.  Nothing is said of how many calls of
  `read` and `write` it takes.  Where the function loops the lemma is the rule of
  `NetPipe.TcpLoops`, with the rest of the message as the invariant (`Getting`).

  A script has no errors and no end of the stream, so the branches for these are never entered;
  what they do is in `NetPipe.TcpWire` and `NetPipe.TcpEof`.
-/
import NetPipe.Lib.Script
import NetPipe.TcpLoops

namespace NetPipe.Tcp

open Memory Process Duplex

/-- Acts of a TCP process. -/
abbrev TcpAct := Act Pos Site Event

/-- The bytes of one message, put by the call `st`. -/
def putMsg (st : Stamp Pos Site) (bs : List UInt8) : List TcpAct := (stamped st bs).map .put

/-- The bytes of one message, put and got by the calls with the same stamp. -/
def gotMsg (st : Stamp Pos Site) (bs : List UInt8) : List TcpAct := (stamped st bs).map (.got st)

@[simp] theorem putMsg_nil (st : Stamp Pos Site) : putMsg st [] = [] := rfl
@[simp] theorem gotMsg_nil (st : Stamp Pos Site) : gotMsg st [] = [] := rfl
@[simp] theorem puts_putMsg (st : Stamp Pos Site) (bs : List UInt8) :
    puts (putMsg st bs) = stamped st bs := puts_map_put _
@[simp] theorem gots_putMsg (st : Stamp Pos Site) (bs : List UInt8) :
    gots (putMsg st bs) = [] := gots_map_put _
@[simp] theorem puts_gotMsg (st : Stamp Pos Site) (bs : List UInt8) :
    puts (gotMsg st bs) = [] := puts_map_got _ _
@[simp] theorem gots_gotMsg (st : Stamp Pos Site) (bs : List UInt8) :
    gots (gotMsg st bs) = stamped st bs := gots_map_got _ _

@[simp] theorem mem_putMsg {a : TcpAct} {st : Stamp Pos Site} {bs : List UInt8} :
    a ∈ putMsg st bs ↔ ∃ b ∈ bs, a = .put ⟨b, st⟩ := by
  simp [putMsg, stamped, eq_comm]

@[simp] theorem mem_gotMsg {a : TcpAct} {st : Stamp Pos Site} {bs : List UInt8} :
    a ∈ gotMsg st bs ↔ ∃ b ∈ bs, a = .got st ⟨b, st⟩ := by
  simp [gotMsg, stamped, eq_comm]

/-- Only the writes of `SendData` may be short: a control write queues all its bytes. -/
def Controlled (D : Discipline Site) : Prop := ∀ site, D.short site → site = .data

section calls

variable {D : Discipline Site} {waits : Stamp Pos Site → Prop}

theorem sane_scriptHandler : Sane (scriptHandler D advance waits) where
  alloc_length := by
    rintro n bs (⟨bs', hbs, hlen⟩ | ⟨-, h⟩)
    · injection hbs with hbs
      rw [hbs]
      exact hlen
    · cases h
  alloc_fail := by
    rintro n (⟨bs', hbs, -⟩ | ⟨h, -⟩) c msg s
    · cases hbs
    · exact h

variable {p : Pos} {rest : List TcpAct}

/-- A control write: the message is put, all of it. -/
theorem script_write {site : Site} (hD : Controlled D) (hsite : site ≠ .data) {bs : List UInt8}
    {α : Type} {k : Option Nat → TcpProg α} {Q : α → Pos × List TcpAct → Prop}
    (hQ : wp (scriptHandler D advance waits) (k (some bs.length)) Q (p, rest)) :
    wp (scriptHandler D advance waits) (.io (.write site bs) k) Q
      (p, putMsg ⟨p, site⟩ bs ++ rest) :=
  ⟨rest, rfl, hQ, fun hshort => absurd (hD site hshort) hsite⟩

/-- What a call has yet to get of `bs`, once it has `got`.  What was got is the beginning of `bs`
    and the rest is next in the script, so a read of any size takes the one to the other. -/
def Getting (p : Pos) (site : Site) (bs : List UInt8) (rest : List TcpAct) (got : List UInt8)
    (st : Pos × List TcpAct) : Prop :=
  got = bs.take got.length ∧ st = (p, gotMsg ⟨p, site⟩ (bs.drop got.length) ++ rest)

/-- One read on script: it gets the next bytes of the message. -/
theorem Getting.read {site : Site} {bs got : List UInt8} {st : Pos × List TcpAct}
    {err eof : Pos × List TcpAct → Prop} (h : Getting p site bs rest got st)
    (hlt : got.length < bs.length) :
    (scriptHandler D advance waits).io (.read site (bs.length - got.length)) st
      (Reads err eof (bs.length - got.length) fun xs st =>
        Getting p site bs rest (got ++ xs) st) := by
  obtain ⟨hgot, rfl⟩ := h
  have hlen : (bs.drop got.length).length = bs.length - got.length := List.length_drop
  refine Or.inr ⟨by omega, stamped ⟨p, site⟩ (bs.drop got.length), rest,
    by rw [stamped_length, hlen], rfl, ?_⟩
  intro j h0 hj
  rw [stamped_take, stamped_drop, stamped_bytes]
  have hj' : ((bs.drop got.length).take j).length = j := by
    rw [List.length_take]
    omega
  refine .of_ne_nil (List.ne_nil_of_length_pos (by omega)) (by omega) ⟨?_, ?_⟩
  · rw [List.length_append, hj', List.take_add, ← hgot]
  · rw [List.length_append, hj', List.drop_drop]
    rfl

/-- `readFully` of a whole message into a buffer with room for it. -/
theorem script_readFully {site : Site} {buf post bs : List UInt8} {len : Nat}
    {Q : Int × List UInt8 → Pos × List TcpAct → Prop}
    (hbuf : buf.length = len) (hbs : bs.length = len) (hlen : 0 < len)
    (hQ : Q (len, bs ++ post) (p, rest)) :
    wp (scriptHandler D advance waits) (readFully site (buf ++ post) len) Q
      (p, gotMsg ⟨p, site⟩ bs ++ rest) := by
  subst hbs
  refine wp_readFully (I := Getting p site bs rest) hbuf (fun got st hI hlt => hI.read hlt)
    (fun got st hI hgot => ?_) hlen ⟨rfl, rfl⟩
  obtain ⟨hgot', rfl⟩ := hI
  rw [hgot, List.take_length] at hgot'
  rw [hgot', List.drop_length]
  exact hQ

/-- `SendRepeat` puts the value in network order. -/
theorem script_sendRepeat (hD : Controlled D) {h : Host} {rpt : UInt32}
    {Q : Host → Pos × List TcpAct → Prop} (hQ : Q h (p, rest)) :
    wp (scriptHandler D advance waits) (sendRepeat h rpt) Q
      (p, putMsg ⟨p, .rpt⟩ (toBytes .big rpt) ++ rest) := by
  rw [← toBytes_htonl h.order]
  exact script_write hD (by decide) hQ

/-- `RecvRepeat` gets a value in network order. -/
theorem script_recvRepeat {h : Host} {rpt : UInt32} {Q : UInt32 × Host → Pos × List TcpAct → Prop}
    (hQ : Q (rpt, h) (p, rest)) :
    wp (scriptHandler D advance waits) (recvRepeat h) Q
      (p, gotMsg ⟨p, .rpt⟩ (toBytes .big rpt) ++ rest) := by
  unfold recvRepeat
  rw [← List.append_nil (List.replicate 4 0)]
  refine wp_bind (script_readFully List.length_replicate (toBytes_length ..) (by decide) ?_)
  simp only [List.append_nil, Nat.cast_ofNat, Int.reduceLT, if_false, ne_eq, not_true_eq_false,
    ntohl_ofBytes]
  exact hQ

/-- `strncmp` finds no difference with the string itself. -/
theorem strncmp_syncMe (post : List UInt8) : strncmp 6 syncMe (syncMe ++ post) = false := by
  simp [syncMe, strncmp]

/-- `Sync` puts the synchronisation string and gets it. -/
theorem script_sync (hD : Controlled D) {h : Host} {Q : Host → Pos × List TcpAct → Prop}
    (hQ : Q h (p, rest)) :
    wp (scriptHandler D advance waits) (sync h) Q
      (p, putMsg ⟨p, .sync⟩ syncMe ++ (gotMsg ⟨p, .sync⟩ syncMe ++ rest)) := by
  refine script_write hD (by decide) ?_
  refine wp_bind (script_readFully (List.length_replicate (n := 6)) (by decide) (by decide) ?_)
  simp only [Nat.cast_ofNat, Int.reduceLT, if_false, strncmp_syncMe, Bool.false_eq_true]
  exact hQ

/-- `SendData` puts the send buffer. -/
theorem script_sendData {h : Host} {n : Nat} {s : List UInt8} (hh : Sends h n s)
    {Q : Host → Pos × List TcpAct → Prop} (hQ : Q h (p, rest)) :
    wp (scriptHandler D advance waits) (sendData h) Q (p, putMsg ⟨p, .data⟩ s ++ rest) := by
  have hlen := hh.length
  refine wp_sendData hh (I := fun off st => st = (p, putMsg ⟨p, .data⟩ (s.drop off) ++ rest))
    ?_ ?_ rfl
  · rintro off st rfl hoff
    have hlen' : (s.drop off).length = n - off := by rw [List.length_drop, hlen]
    refine ⟨rest, rfl, ?_, ?_⟩
    · have hnil : s.drop (off + (s.drop off).length) = [] := List.drop_eq_nil_of_le (by omega)
      refine .of_pos (by omega) (by omega) ?_
      rw [hnil]
      rfl
    · intro _ j h0 hj
      refine .of_pos h0 (by omega) ?_
      rw [← List.drop_drop]
      rfl
  · rintro st rfl
    rwa [List.drop_eq_nil_of_le (by omega)]

/-- `RecvData` fills the receive buffer with the bytes got. -/
theorem script_recvData {n : Nat} {R : Host → List UInt8 → Prop} (hR : Receives n R) {h : Host}
    {r bs : List UInt8} (hh : R h r) (hbs : bs.length = n) {Q : Host → Pos × List TcpAct → Prop}
    (hQ : ∀ h', R h' bs → Q h' (p, rest)) :
    wp (scriptHandler D advance waits) (recvData h) Q (p, gotMsg ⟨p, .data⟩ bs ++ rest) := by
  subst hbs
  refine wp_recvData hR (I := Getting p .data bs rest) (fun got st hI hlt => hI.read hlt)
    (fun got h' st hI hh' => ?_) hh ⟨rfl, rfl⟩
  obtain ⟨hgot, rfl⟩ := hI
  have hlen := hR.length hh'
  rw [hlen, List.take_length] at hgot
  rw [hlen, List.drop_length]
  exact hQ h' (hgot ▸ hh')

end calls

end NetPipe.Tcp
