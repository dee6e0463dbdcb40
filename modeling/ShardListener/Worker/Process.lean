import ShardListener.Worker.Deliver

namespace Worker

variable (wire : Wire) (cfg : Settings) (env : Env)

-- Members of a bundle leave with a SeqNum of their own, counted by the HashKey of the bundle.
def sendMember (b : Bundle) (w : Worker) (mf : Frame) : Worker :=
  let seq := (w.egressSeq.lookup b.hashKey).getD 0 + 1
  let w   := { w with egressSeq := w.egressSeq.insert b.hashKey seq }
  let mf  := { mf with seqNum := seq }
  match wire.encode mf with
  | none     => w
  | some raw =>
    let w := if cfg.bundleAware then w else w.emit (.send raw mf)
    if cfg.mcastEgr then w.emit (.mcast raw mf b.groupIdx) else w

-- The delivery of a bundle that passed the dedup stages: whole to a sink that takes bundles, split
-- for the others. A re-bucketed child has no datagram and is encoded first.
def sendBundle (w : Worker) (b : Bundle) (raw : Option Bytes) : Worker :=
  let w :=
    if cfg.bundleAware then
      match raw.or (wire.encodeBundle b) with
      | none     => w
      | some raw => w.emit (.sendBundle raw b)
    else w
  if cfg.bundleAware = false ∨ cfg.mcastEgr then
    (wire.decoalesce b).foldl (sendMember wire cfg b) w
  else w

-- `binary.BigEndian.PutUint64`.
def bigEndian (n : Nat) : Bytes :=
  (List.range 8).map fun k => UInt8.ofNat (n / 256 ^ (7 - k))

-- The synthetic id a bundle is claimed under: HashKey ∥ SeqNum ∥ zeros.
def bundleID (b : Bundle) : Bytes32 where
  bytes     := bigEndian b.hashKey ++ bigEndian b.seqNum ++ List.replicate 16 0
  length_eq := by simp [bigEndian]

-- What the filter is asked about for a bundle: it reads the SubtreeID only.
def bundleProbe (b : Bundle) : Frame :=
  ⟨FrameVer.v2, .zero, 0, 0, b.subtreeID, []⟩

-- `track` is false for the children of a re-bucketed bundle, whose parent is tracked instead.
def deliverBundle (w : Worker) (b : Bundle) (raw : Option Bytes) (track : Bool) : Worker :=
  let observe (w : Worker) :=
    if track then w.observeFrom cfg env b.groupIdx b.subtreeID b.hashKey b.seqNum else w
  match cfg.filt.deny b.groupIdx (bundleProbe b) with
  | some reason => w.drop reason
  | none        =>
    let c := if b.seqNum = 0 then (true, w) else w.claim cfg env (bundleID b)
    if c.1 = false then observe c.2
    else
      let d := c.2.suppress env ⟨b.groupIdx, b.subtreeID, b.seqNum⟩
      if d.1 then observe d.2 else (observe d.2).sendBundle wire cfg b raw

-- A bundle of another generation is re-bucketed to the local one first.
def processBundle (w : Worker) (raw : Bytes) : Worker :=
  match wire.decodeBundle raw with
  | none   => w.drop .bundleDecodeError
  | some b =>
    let w := w.count (.received .brc142)
    if b.shardBits ≠ 0 ∧ b.shardBits ≠ cfg.engine.shardBits then
      let children := wire.rebucket w.rebucketed b
      let w := { w with rebucketed := w.rebucketed ++ [b] }.count .bundleRebucketed
      let w := if cfg.relay then w else w.count .rebucketUnguarded
      let w := children.foldl (fun w child => w.deliverBundle wire cfg env child none false) w
      w.observeFrom cfg env b.groupIdx b.subtreeID b.hashKey b.seqNum
    else w.deliverBundle wire cfg env b (some raw) true

-- Block control frames are the only ones whose rejection is reported to the caller.
def processBlockFrame (w : Worker) (raw : Bytes) : Bool × Worker :=
  match wire.decodeBlock raw with
  | none   => (false, w.drop .decodeError)
  | some f =>
    let w := w.count (.received .brc131)
    match blockGate wire cfg f with
    | some reason => (false, w.drop reason)
    | none        => (true, w.sendBlock wire cfg env raw f)

def processSubtreeDataFrame (w : Worker) (raw : Bytes) : Worker :=
  match wire.decodeSubtreeData raw with
  | none   => w.drop .decodeError
  | some f => (w.count (.received .brc132)).sendSubtreeData cfg env raw f

-- Anchor frames bypass the filter and go to the unicast egress only.
def processAnchorFrame (w : Worker) (raw : Bytes) : Worker :=
  match wire.decodeAnchor raw with
  | none   => w.drop .decodeError
  | some f =>
    let c := (w.count (.received .brc134)).claim cfg env f.txID
    let w := if c.1 then c.2.emit (.send raw f) else c.2
    w.observeFrom cfg env Group.anchorFlow .zero f.hashKey f.seqNum

def processBeefFrame (w : Worker) (raw : Bytes) : Worker :=
  match wire.decodeBEEF raw with
  | none   => w.drop .decodeError
  | some f => w.deliverBeef wire cfg env raw f

-- The checks on a stamped transaction frame under `verifyPayloadHash`.
def verifyFrame (w : Worker) (f : Frame) : Option Worker :=
  if cfg.verifyPayloadHash ∧ f.version = FrameVer.v2 then
    match wire.payloadTxID f.payload with
    | none    => some (w.drop .payloadNotOneTx)
    | some id => if id ≠ f.txID then some (w.count .invalidPayload) else none
  else none

-- The dedup stages of a transaction frame: whether it goes on. BRC-12 frames skip them.
def dedupFrame (w : Worker) (f : Frame) (groupIdx : GroupIdx) : Bool × Worker :=
  if f.version = FrameVer.v2 then
    let c := w.claim cfg env f.txID
    if c.1 = false then c
    else
      let d := c.2.suppress env ⟨groupIdx, f.subtreeID, f.seqNum⟩
      (!d.1, d.2)
  else (true, w)

-- A transaction frame from the filter on.
def deliverTx (w : Worker) (raw : Bytes) (f : Frame) : Worker :=
  let groupIdx := cfg.engine.groupIndex f.txID
  match cfg.filt.deny groupIdx f with
  | some reason => w.drop reason
  | none        =>
    let d := w.dedupFrame cfg env f groupIdx
    let w := if d.1 then d.2.forward cfg raw f groupIdx else d.2
    if f.version = FrameVer.v2 then
      w.observeFrom cfg env groupIdx f.subtreeID f.hashKey f.seqNum
    else w

def processTxFrame (w : Worker) (raw : Bytes) : Worker :=
  match wire.decode raw with
  | none   => w.drop .decodeError
  | some f =>
    let w := w.count (.received (if f.version = FrameVer.v2 then .brc124 else .brc12))
    match w.verifyFrame wire cfg f with
    | some w => w
    | none   => w.deliverTx cfg env raw f

def fragGroupIdx (ff : FragFrame) : GroupIdx :=
  if ff.origFrameVer = FrameVer.v4 ∨ ff.origFrameVer = FrameVer.v6 then Group.blockBroadcast
  else if ff.origFrameVer = FrameVer.v5 then Group.subtreeDataAnnounce
  else if ff.origFrameVer = FrameVer.v9 then
    match cfg.beefEngine with
    | some engine => engine.groupIndex ff.subtreeID
    | none        => 0x1000
  else cfg.engine.groupIndex ff.txID

-- The SubtreeID slot of a BEEF fragment holds its TopicID and is not the flow's.
def trackFragment (w : Worker) (ff : FragFrame) : Worker :=
  let subtreeID := if ff.origFrameVer = FrameVer.v9 then .zero else ff.subtreeID
  w.observeFrom cfg env (fragGroupIdx cfg ff) subtreeID ff.hashKey ff.seqNum

-- The request for the fragments of an incomplete object.
def gapRequest (q : Reassembly.Incomplete) : Nack.Request where
  owner     := cfg.id
  hashKey   := q.hashKey
  groupIdx  := q.groupIdx
  subtreeID := q.subtreeID
  seqs      := q.missing

-- The callbacks of the worker's reassembly buffer, as `main` wires them. Without a tracker there is
-- no repair wait.
def hooks (tracked : Bool) : Reassembly.Hooks Worker where
  metric m w                := w.count (.reassembly m)
  onComplete _ f w          := w.deliverReassembled wire cfg env f
  onCompleteBlock _ f w     := w.deliverReassembledBlock wire cfg env f
  onCompleteSubtree _ f w   := w.deliverReassembledSubtreeData wire cfg env f
  onCompleteBEEF _ _ w      := w
  onCompleteBEEFFrame       :=
    some fun _ buf f w => w.deliverReassembledBeefFrame wire cfg env buf f
  onIncomplete i q w        :=
    { w with
      tracker := w.tracker.map (·.requestGapsFrom cfg.nack i env.room (gapRequest cfg q)) }
  repairPending             :=
    if tracked then some fun w hashKey missing => w.tracker.any (·.pending hashKey missing)
    else none
  groupIdxFn ff             := if tracked then fragGroupIdx cfg ff else 0

end Worker

-- A worker with its reassembly buffer.
structure Node where
  buffer : Option Reassembly.Buffer
  worker : Worker

namespace Node

open Worker

variable (wire : Wire) (cfg : Settings) (env : Env)

-- A fragment goes to the buffer first and to the tracker second.
def processFragment (n : Node) (raw : Bytes) : Node :=
  match n.buffer with
  | none   => { n with worker := n.worker.drop .noReassemblyBuffer }
  | some b =>
    match wire.decodeFragment raw with
    | none    => { n with worker := n.worker.drop .fragDecodeError }
    | some ff =>
      let h := hooks wire cfg env n.worker.tracker.isSome
      let p :=
        Reassembly.Buffer.observe wire.toFormats cfg.reassembly h env.instant (b, n.worker) ff
      { buffer := some p.1, worker := p.2.trackFragment cfg env ff }

-- Lifts the handling of a class that does not touch the buffer and is accepted by construction.
def handle (n : Node) (w : Worker) : Bool × Node :=
  (true, { n with worker := w })

-- Routes one datagram and reports whether it was accepted.
def processFrame (n : Node) (raw : Bytes) : Bool × Node :=
  if wire.isBlockFrame raw then
    let r := n.worker.processBlockFrame wire cfg env raw
    (r.1, { n with worker := r.2 })
  else if wire.isSubtreeDataFrame raw then
    n.handle (n.worker.processSubtreeDataFrame wire cfg env raw)
  else if wire.isAnchorFrame raw then n.handle (n.worker.processAnchorFrame wire cfg env raw)
  else if wire.isFragment raw then (true, n.processFragment wire cfg env raw)
  else if wire.isBundle raw then n.handle (n.worker.processBundle wire cfg env raw)
  else if wire.isBEEFFrame raw then n.handle (n.worker.processBeefFrame wire cfg env raw)
  else n.handle (n.worker.processTxFrame wire cfg env raw)

-- A frame recovered over the unicast return channel has no live source.
def reinject (n : Node) (raw : Bytes) : Bool × Node :=
  n.processFrame wire cfg { env with source := none } raw

-- The periodic sweep of the buffer.
def tick (n : Node) : Node :=
  match n.buffer with
  | none   => n
  | some b =>
    let h := hooks wire cfg env n.worker.tracker.isSome
    let p := Reassembly.Buffer.tick cfg.reassembly h env.instant (b, n.worker)
    { buffer := some p.1, worker := p.2 }

end Node
