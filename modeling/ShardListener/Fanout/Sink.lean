import ShardListener.Extensions.Dict
import ShardListener.Worker.State

namespace Fanout

open Worker (Egress Filter)

-- A downstream subscriber. Of its sink and its observers it holds only whether they are there and
-- what they can do. `ownIngressIP` is zero if it is not set.
structure Consumer where
  shards        : List GroupIdx := []
  filt          : Option Filter := none
  ownIngressIP  : IP := 0
  bundleCapable : Bool := false
  -- The sink is a `BundleSink`.
  bundleSink    : Bool := false
  ingressObs    : Bool := false
  topicSet      : List Bytes32 := []
  allTopics     : Bool := false
  beefVersions  : List Nat := []
  beefObs       : Bool := false

inductive FilterReason
  | topic | version
deriving DecidableEq

-- What a turn of a delivery loop did: the calls on the sink with what it returned (`none` for nil),
-- or the observer that was told.
inductive Outcome (ε : Type)
  | sent (calls : List (Egress × Option ε))
  | ingress (wire members : Nat)
  | beefFiltered (reason : FilterReason) (wire : Nat)

structure Entry (ρ ε : Type) where
  consumer : ρ
  outcome  : Outcome ε

-- What a fan-out sink works with: the codecs and engines of shard-common, `seqhash.Hash`, and the
-- consumers behind the pointers `ρ`. What a consumer's sink returns may depend on all that was sent
-- before, in earlier turns and in this one.
structure Env (ρ ε : Type) where
  wire         : Wire
  engine       : Engine
  beefEngine   : Option Engine
  hash         : IP → GroupIdx → Bytes32 → HashKey
  consumer     : ρ → Consumer
  reply        : List (Entry ρ ε) → List (Egress × Option ε) → ρ → Egress → Option ε
  isNotElected : ε → Bool

inductive SendError (ε : Type)
  | beefEngineUnset
  | sink (e : ε)

-- The consumer table and its reverse index, with the record of what the sink has done.
structure Sink (ρ ε : Type) where
  consumers : List ρ := []
  byShard   : Dict GroupIdx (List ρ) := ∅
  allShards : List ρ := []
  egressSeq : Dict HashKey SeqNum := ∅
  log       : List (Entry ρ ε) := []

variable {ρ ε : Type} (env : Env ρ ε)

-- One turn of the loop of `Apply`.
def index (t : Dict GroupIdx (List ρ) × List ρ) (c : ρ) : Dict GroupIdx (List ρ) × List ρ :=
  let shards := (env.consumer c).shards
  if shards = [] then (t.1, t.2 ++ [c])
  else (shards.foldl (fun m sh => m.insert sh ((m.lookup sh).getD [] ++ [c])) t.1, t.2)

def Sink.apply (s : Sink ρ ε) (consumers : List ρ) : Sink ρ ε :=
  let t := consumers.foldl (index env) (∅, [])
  { s with consumers := consumers, byShard := t.1, allShards := t.2 }

-- A member of a bundle on its own: its wire bytes and the frame.
structure EncodedMember where
  raw : Bytes
  f   : Frame

-- One turn of the loop of `decoalesce`. A member that cannot be encoded uses up its SeqNum. The
-- counters are `uint64` in the source and never wrap around here: that takes 2^64 members of one
-- HashKey.
def restamp (b : Bundle) (t : List EncodedMember × Dict HashKey SeqNum) (mf : Frame) :
    List EncodedMember × Dict HashKey SeqNum :=
  let seq := (t.2.lookup b.hashKey).getD 0 + 1
  let mf  := { mf with seqNum := seq }
  let egressSeq := t.2.insert b.hashKey seq
  match env.wire.encode mf with
  | none     => (t.1, egressSeq)
  | some raw => (t.1 ++ [⟨raw, mf⟩], egressSeq)

def Sink.decoalesce (s : Sink ρ ε) (b : Bundle) : List EncodedMember × Sink ρ ε :=
  let t := (env.wire.decoalesce b).foldl (restamp env b) ([], s.egressSeq)
  (t.1, { s with egressSeq := t.2 })

-- The state of a delivery loop. `members` is used for bundles only.
structure Pass (ρ ε : Type) where
  sink     : Sink ρ ε
  firstErr : Option ε := none
  members  : Option (List EncodedMember) := none

-- A call on the sink of a consumer. The first error that is not one of election is kept.
def attempt (log : List (Entry ρ ε)) (c : ρ) (q : List (Egress × Option ε) × Option ε)
    (k : Egress) : List (Egress × Option ε) × Option ε :=
  let err := env.reply log q.1 c k
  let firstErr :=
    match err with
    | none   => q.2
    | some e => if q.2.isNone ∧ ¬env.isNotElected e then some e else q.2
  (q.1 ++ [(k, err)], firstErr)

namespace Pass

def note (p : Pass ρ ε) (c : ρ) (outcome : Outcome ε) : Pass ρ ε :=
  { p with sink := { p.sink with log := p.sink.log ++ [⟨c, outcome⟩] } }

def calls (p : Pass ρ ε) (c : ρ) (ks : List Egress) : Pass ρ ε :=
  let q := ks.foldl (attempt env p.sink.log c) ([], p.firstErr)
  { p.note c (.sent q.1) with firstErr := q.2 }

end Pass

def denied (filt : Option Filter) (groupIdx : GroupIdx) (f : Frame) : Bool :=
  filt.any fun filt => (filt.deny groupIdx f).isSome

def isOwnTraffic (c : Consumer) (groupIdx : GroupIdx) (f : Frame) : Bool :=
  if c.ownIngressIP = 0 ∨ f.version ≠ FrameVer.v2 then false
  else f.hashKey = env.hash c.ownIngressIP groupIdx f.subtreeID

def isOwnBundle (c : Consumer) (groupIdx : GroupIdx) (b : Bundle) : Bool :=
  if c.ownIngressIP = 0 then false else b.hashKey = env.hash c.ownIngressIP groupIdx b.subtreeID

-- The identity of a BEEF flow does not contain the topic.
def isOwnBeef (c : Consumer) (groupIdx : GroupIdx) (f : BEEFFrame) : Bool :=
  if c.ownIngressIP = 0 ∨ f.hashKey = 0 then false
  else f.hashKey = env.hash c.ownIngressIP groupIdx .zero

def deliverFrame (groupIdx : GroupIdx) (raw : Bytes) (f : Frame) (p : Pass ρ ε) (c : ρ) :
    Pass ρ ε :=
  let con := env.consumer c
  if denied con.filt groupIdx f then p
  else if isOwnTraffic env con groupIdx f then
    if con.ingressObs then p.note c (.ingress raw.length 1) else p
  else p.calls env c [.send raw f]

-- What the filter is asked about for a bundle.
def probe (b : Bundle) : Frame :=
  ⟨FrameVer.v2, .zero, b.hashKey, 0, b.subtreeID, []⟩

-- The members, split off for the first consumer that needs them.
def Pass.decoalesced (p : Pass ρ ε) (b : Bundle) : List EncodedMember × Pass ρ ε :=
  match p.members with
  | some members => (members, p)
  | none         =>
    let d := p.sink.decoalesce env b
    (d.1, { p with sink := d.2, members := some d.1 })

def deliverBundle (groupIdx : GroupIdx) (raw : Bytes) (b : Bundle) (p : Pass ρ ε) (c : ρ) :
    Pass ρ ε :=
  let con := env.consumer c
  if denied con.filt groupIdx (probe b) then p
  else if isOwnBundle env con groupIdx b then
    if con.ingressObs then p.note c (.ingress raw.length b.members.length) else p
  else if con.bundleCapable ∧ con.bundleSink then p.calls env c [.sendBundle raw b]
  else
    let d := p.decoalesced env b
    d.2.calls env c (d.1.map fun m => .send m.raw m.f)

-- The topic under which a consumer gets a BEEF frame.
def matchedTopic (c : Consumer) (f : BEEFFrame) : Option Bytes32 :=
  if c.allTopics then some f.topicID
  else (env.wire.beefDeliverableTopicIDs f).find? (· ∈ c.topicSet)

-- The version is that of the object in the payload, which may be a submission record.
def versionRejected (c : Consumer) (f : BEEFFrame) : Bool :=
  if c.beefVersions = [] then false
  else
    let object := (env.wire.splitBEEFPayload f.payload).getD f.payload
    (env.wire.beefVersionWord object).all (· ∉ c.beefVersions)

def deliverBeef (groupIdx : GroupIdx) (raw : Bytes) (f : BEEFFrame) (p : Pass ρ ε) (c : ρ) :
    Pass ρ ε :=
  let con := env.consumer c
  match matchedTopic env con f with
  | none         => if con.beefObs then p.note c (.beefFiltered .topic raw.length) else p
  | some matched =>
    if versionRejected env con f then
      if con.beefObs then p.note c (.beefFiltered .version raw.length) else p
    else if isOwnBeef env con groupIdx f then
      if con.ingressObs then p.note c (.ingress raw.length 1) else p
    else p.calls env c [.sendBeef raw { f with topicID := matched }]

-- The two loops of a delivery: the bucket of the group, and the consumers without a restriction.
def Sink.route (s : Sink ρ ε) (groupIdx : GroupIdx) (deliver : Pass ρ ε → ρ → Pass ρ ε) :
    Pass ρ ε :=
  s.allShards.foldl deliver (((s.byShard.lookup groupIdx).getD []).foldl deliver { sink := s })

namespace Sink

def send (s : Sink ρ ε) (raw : Bytes) (f : Frame) : Sink ρ ε × Option (SendError ε) :=
  let groupIdx := env.engine.groupIndex f.txID
  let p := s.route groupIdx (deliverFrame env groupIdx raw f)
  (p.sink, p.firstErr.map .sink)

def sendBundle (s : Sink ρ ε) (raw : Bytes) (b : Bundle) : Sink ρ ε × Option (SendError ε) :=
  let p := s.route b.groupIdx (deliverBundle env b.groupIdx raw b)
  (p.sink, p.firstErr.map .sink)

-- Without a plane engine there is no group.
def sendBeef (s : Sink ρ ε) (raw : Bytes) (f : BEEFFrame) : Sink ρ ε × Option (SendError ε) :=
  match env.beefEngine with
  | none        => (s, some .beefEngineUnset)
  | some engine =>
    let groupIdx := engine.groupIndex f.topicID
    let p := s.route groupIdx (deliverBeef env groupIdx raw f)
    (p.sink, p.firstErr.map .sink)

end Sink
end Fanout
