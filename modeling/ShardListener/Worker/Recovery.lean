import ShardListener.Nack.Theorems.Retry
import ShardListener.Nack.Walk
import ShardListener.Worker.System

-- A worker, its tracker and the retry endpoints.

namespace Nack

-- What arrives on the NACK socket up to the deadline, when the endpoint does not bring the frame: a
-- MISS, an ACK for a unicast that does not come, or no answer. What nobody can read may come
-- before.
inductive Declines : Time → Bool → List (Time × Bytes) → Prop
  | miss {deadline now : Time} {ack : Bool} {raw : Bytes} {resp : Response}
    {ds : List (Time × Bytes)}
    (h : now ≤ deadline) (hr : ¬isRetransmit raw) (hd : decodeResponse raw = some resp)
    (hm : resp.msgType = MsgType.miss) : Declines deadline ack ((now, raw) :: ds)
  | junk {deadline now : Time} {ack : Bool} {raw : Bytes} {ds : List (Time × Bytes)}
    (h : now ≤ deadline)
    (hr : ¬isRetransmit raw) (hd : decodeResponse raw = none) (hds : Declines deadline ack ds) :
    Declines deadline ack ((now, raw) :: ds)
  | ack {deadline now : Time} {ack : Bool} {raw : Bytes} {resp : Response}
    {ds : List (Time × Bytes)}
    (h : now ≤ deadline) (hr : ¬isRetransmit raw) (hd : decodeResponse raw = some resp)
    (hm : resp.msgType = MsgType.ack) (hu : resp.flags &&& respFlagUnicastSent ≠ 0)
    (hds : Declines (now + unicastDrainWindow) true ds) : Declines deadline ack ((now, raw) :: ds)
  | silence {deadline : Time} {ack : Bool} : Declines deadline ack []
  | late {deadline now : Time} {ack : Bool} {raw : Bytes} {ds : List (Time × Bytes)}
    (h : deadline < now) :
    Declines deadline ack ((now, raw) :: ds)

-- When it has the frame, that comes in time, and an ACK for it may come before.
inductive Delivers (frame : Bytes) : Time → List (Time × Bytes) → Prop
  | data {deadline now : Time} {ds : List (Time × Bytes)} (h : now ≤ deadline) :
    Delivers frame deadline ((now, frame) :: ds)
  | junk {deadline now : Time} {raw : Bytes} {ds : List (Time × Bytes)} (h : now ≤ deadline)
    (hr : ¬isRetransmit raw) (hd : decodeResponse raw = none) (hds : Delivers frame deadline ds) :
    Delivers frame deadline ((now, raw) :: ds)
  | ack {deadline now : Time} {raw : Bytes} {resp : Response} {ds : List (Time × Bytes)}
    (h : now ≤ deadline)
    (hr : ¬isRetransmit raw) (hd : decodeResponse raw = some resp) (hm : resp.msgType = MsgType.ack)
    (hu : resp.flags &&& respFlagUnicastSent ≠ 0)
    (hds : Delivers frame (now + unicastDrainWindow) ds) :
    Delivers frame deadline ((now, raw) :: ds)

end Nack

namespace Node

open Worker Nack

-- The entry that is pending for a SeqNum of a flow.
def entry (hk : HashKey) (seq : SeqNum) (n : Node) : Option GapEntry :=
  n.worker.tracker.bind (·.entry hk seq)

def inFlight (n : Node) : List GapEntry :=
  (n.worker.tracker.map Tracker.inFlight).getD []

-- From one NACK for a gap to the next: some events, a sweep, the events while the NACK is under
-- way, and the end of it. `answer` is what arrives on the socket, if the endpoint of this place in
-- the snapshot is asked.
structure Attempt where
  before  : List Event
  now     : Time
  room    : HashKey → SeqNum → Bool
  during  : List Event
  env     : Env
  instant : Instant
  sentAt  : Time
  answer  : Nat → List (Time × Bytes)

section

variable (wire : Wire) (cfg : Settings) (num : Nat)

def swept (n : Node) (a : Attempt) : Node :=
  (Run.exec (react wire cfg) n a.before).react wire cfg (.tracker (.sweep a.now a.room))

-- When the answer comes.
def asked (n : Node) (a : Attempt) : Node :=
  Run.exec (react wire cfg) (n.swept wire cfg a) a.during

-- The copy of an entry is sent to the endpoint that it names, of `num` in the snapshot.
def concluded (n : Node) (a : Attempt) (e : GapEntry) : Node :=
  let reinject := some fun raw (n : Node) => n.reinject wire cfg a.env raw
  let r := sendNACK reinject e (a.answer (e.snapshotIdx num)) n (.sent a.sentAt num)
  r.2.react wire cfg (.tracker (.complete a.instant e r.1))

-- It is the copy in flight that is like the entry.
def attempt (hk : HashKey) (seq : SeqNum) (n : Node) (a : Attempt) : Node :=
  match (n.swept wire cfg a).entry hk seq with
  | none   => n.asked wire cfg a
  | some e =>
    if e ∈ (n.swept wire cfg a).inFlight then (n.asked wire cfg a).concluded wire cfg num a e
    else n.asked wire cfg a

end
end Node
