import ShardListener.Egress.Sender
import ShardListener.Objects.Frame

-- A sender to one downstream address with both of its protocols, and what reaches the other end.

namespace Egress

-- What the sender uses of the object formats, whose code is not part of the repository. `none` is
-- an error.
structure Objects where
  stripBlock         : Bytes → Option Bytes
  stripSubtree       : Bytes → Option Bytes
  encodeBEEFDelivery : Bytes32 → Bytes → Bytes

-- Any other protocol is accepted by `New` and refused by every send.
inductive Proto
  | udp | tcp | unknown
deriving DecidableEq

-- The arguments of `Send`, `SendBlock`, `SendSubtreeData`, `SendBeef` and `SendRaw`.
inductive Message
  | tx (raw : Bytes) (f : Frame)
  | block (raw : Bytes) (f : BlockFrame)
  | subtreeData (raw : Bytes) (f : SubtreeDataFrame)
  | beef (raw : Bytes) (f : BEEFFrame)
  | plain (buf : Bytes)

-- The errors that a send returns: "egress: TCP dial %q: %w", that of `SetWriteDeadline` as it is,
-- "egress: TCP write: %w", "egress: strip block: %w", "egress: strip subtree: %w", "egress: unknown
-- protocol %q".
inductive Failure
  | udp (err : SendError)
  | tcpDial (err : Errno)
  | tcpDeadline (err : Errno)
  | tcpWrite (err : Errno)
  | stripBlock
  | stripSubtree
  | unknownProtocol
deriving DecidableEq

-- The bytes that are put on the wire. Without its header a BEEF frame leaves as a delivery record,
-- which says how long it is.
def Message.buffer (obj : Objects) (stripHeader : Bool) : Message → Except Failure Bytes
  | tx raw f          => .ok (if stripHeader then f.payload else raw)
  | block raw _       =>
    if stripHeader then (obj.stripBlock raw).elim (.error .stripBlock) .ok else .ok raw
  | subtreeData raw _ =>
    if stripHeader then (obj.stripSubtree raw).elim (.error .stripSubtree) .ok else .ok raw
  | beef raw f        =>
    .ok (if stripHeader then obj.encodeBEEFDelivery f.topicID f.payload else raw)
  | plain buf         => .ok buf

-- What the network answers in one call, as far as it is asked. A write on a TCP connection that
-- fails has put the first bytes of the buffer on the connection.
structure Answers where
  now      : Time
  dialUDP  : Option Errno := none
  writeUDP : Option Errno := none
  dialTCP  : Option Errno := none
  deadline : Option Errno := none
  writeTCP : Option (Nat × Errno) := none

-- `tcpConn` holds what has been written to the open connection. The rest of the record is what the
-- other end can get to see: the datagrams, and the connections that were closed.
structure Unicast where
  proto       : Proto
  stripHeader : Bool
  udp         : Sender := {}
  tcpConn     : Option Bytes := none
  datagrams   : List Bytes := []
  closed      : List Bytes := []

namespace Unicast

-- `New`, given whether `SplitHostPort` accepts the address. UDP is dialed at once, and a failure is
-- only logged.
def new (validAddr : Bool) (start : Time) (dial : Option Errno) (proto : Proto)
    (stripHeader : Bool) : Option Unicast :=
  match proto with
  | .udp =>
    if validAddr then some { proto, stripHeader, udp := (Sender.dialUDP start dial {}).sender }
    else none
  | _    => some { proto, stripHeader }

def closeTCP (s : Unicast) : Unicast :=
  match s.tcpConn with
  | none    => s
  | some bs => { s with tcpConn := none, closed := s.closed ++ [bs] }

def sendUDP (a : Answers) (s : Unicast) (buf : Bytes) : Unicast × Option Failure :=
  let r := s.udp.sendUDP a.now a.dialUDP a.writeUDP
  ({ s with
      udp       := r.sender
      datagrams := if r.err.isNone then s.datagrams ++ [buf] else s.datagrams },
    r.err.map .udp)

-- What `sendTCP` does once there is a connection, with `bs` on it.
def writeTCP (a : Answers) (s : Unicast) (bs buf : Bytes) : Unicast × Option Failure :=
  match a.deadline, a.writeTCP with
  | some e, _           => ({ s with tcpConn := some bs }.closeTCP, some (.tcpDeadline e))
  | none,   none        => ({ s with tcpConn := some (bs ++ buf) }, none)
  | none,   some (n, e) =>
    ({ s with tcpConn := some (bs ++ buf.take n) }.closeTCP, some (.tcpWrite e))

def sendTCP (a : Answers) (s : Unicast) (buf : Bytes) : Unicast × Option Failure :=
  match s.tcpConn, a.dialTCP with
  | some bs, _      => s.writeTCP a bs buf
  | none,    some e => (s, some (.tcpDial e))
  | none,    none   => s.writeTCP a [] buf

def send (obj : Objects) (a : Answers) (s : Unicast) (m : Message) : Unicast × Option Failure :=
  match m.buffer obj s.stripHeader with
  | .error e => (s, some e)
  | .ok buf  =>
    match s.proto with
    | .udp     => s.sendUDP a buf
    | .tcp     => s.sendTCP a buf
    | .unknown => (s, some .unknownProtocol)

-- `Close`. The next send opens a connection again.
def close (s : Unicast) : Unicast :=
  if s.udp.udpConn then { s with udp := s.udp.closeUDP } else s.closeTCP

inductive Op
  | send (a : Answers) (m : Message)
  | close

def step (obj : Objects) (s : Unicast) : Op → Unicast
  | .send a m => (s.send obj a m).1
  | .close    => s.close

-- The connections, the open one last.
def streams (s : Unicast) : List Bytes :=
  s.closed ++ s.tcpConn.toList

end Unicast

-- The senders to the delivery hosts of a receiver.
structure MultiSender where
  senders : List Unicast

namespace MultiSender

-- `NewMulti`, with what `New` makes of each address that is not blank. It is all of them or none,
-- and at least one.
def newMulti (senders : List (Option Unicast)) : Option MultiSender :=
  match senders.mapM id with
  | none    => none
  | some [] => none
  | some ss => some ⟨ss⟩

-- Every sender gets its turn, and the errors are joined.
def fanout (fn : Nat → Unicast → Unicast × Option Failure) (m : MultiSender) :
    MultiSender × List Failure :=
  let rs := m.senders.mapIdx fn
  ({ senders := rs.map (·.1) }, rs.filterMap (·.2))

def send (obj : Objects) (as : Nat → Answers) (m : MultiSender) (msg : Message) :
    MultiSender × List Failure :=
  m.fanout fun i s => s.send obj (as i) msg

def close (m : MultiSender) : MultiSender :=
  (m.fanout fun _ s => (s.close, none)).1

end MultiSender
end Egress
