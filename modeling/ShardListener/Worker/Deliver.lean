import ShardListener.Worker.State

namespace Worker

variable (wire : Wire) (cfg : Settings) (env : Env)

def count (w : Worker) (m : Metric) : Worker :=
  { w with metrics := w.metrics ++ [m] }

def drop (w : Worker) (reason : DropReason) : Worker :=
  w.count (.dropped reason)

def emit (w : Worker) (e : Egress) : Worker :=
  { w with egress := w.egress ++ [e] }

def arrival (groupIdx : GroupIdx) (subtreeID : Bytes32) (hashKey : HashKey) (seqNum : SeqNum) :
    Nack.Arrival where
  owner     := cfg.id
  groupIdx  := groupIdx
  subtreeID := subtreeID
  hashKey   := hashKey
  seqNum    := seqNum
  source    := env.source

-- Gap tracking. The tracker itself ignores a zero SeqNum, as the callers do.
def observeFrom (w : Worker) (groupIdx : GroupIdx) (subtreeID : Bytes32) (hashKey : HashKey)
    (seqNum : SeqNum) : Worker :=
  let a := arrival cfg env groupIdx subtreeID hashKey seqNum
  { w with tracker := w.tracker.map (·.observeFrom cfg.nack env.instant a) }

-- The cross-listener dedup: whether this listener forwards the frame. It does on an error.
def claim (w : Worker) (key : Bytes32) : Bool × Worker :=
  if cfg.txDedup then
    match env.claim key with
    | .claimed => (true, w)
    | .error   => (true, w.count .txDedupError)
    | .taken   => (false, w.count .txDeduped)
  else (true, w)

-- The local dedup of stamped frames: whether the frame is suppressed.
def suppress (w : Worker) (key : Dedup.Key) : Bool × Worker :=
  match w.dedupSet with
  | none   => (false, w)
  | some s =>
    if key.seqNum = 0 then (false, w)
    else
      let r := s.seenAndAdd env.instant.now key
      let w := { w with dedupSet := some r.2 }
      (r.1, if r.1 then w.count .deduped else w)

-- The unicast egress and the multicast one.
def forward (w : Worker) (raw : Bytes) (f : Frame) (groupIdx : GroupIdx) : Worker :=
  let w := w.emit (.send raw f)
  if cfg.mcastEgr then w.emit (.mcast raw f groupIdx) else w

-- The block-control gate: why a block control frame is dropped.
def blockGate (f : BlockFrame) : Option DropReason :=
  if cfg.requireBlockPoW = false then none
  else if f.msgType = wire.blockMsgAnnounce then
    if f.payload.length < blockHeaderSize ∨ ¬wire.checkHeader (f.payload.take blockHeaderSize) then
      some .blockPow
    else none
  else if f.msgType = wire.blockMsgCoinbase then some .coinbaseLegacy
  else none

def blockFlowIdx (msgType : UInt8) : GroupIdx :=
  if msgType = wire.blockMsgCoinbase then Group.coinbaseFlow else Group.blockBroadcast

-- The header of an announced block, as a BRC-135 frame of this emitter.
def emitBlockHeader (w : Worker) (f : BlockFrame) : Worker :=
  if f.msgType ≠ wire.blockMsgAnnounce then w
  else if f.payload.length < blockHeaderSize then w
  else
    let w := { w with headerSeqNum := w.headerSeqNum + 1 }
    match wire.encodeBlockHeader f.contentID cfg.headerHashKey w.headerSeqNum
      (f.payload.take blockHeaderSize) with
    | none     => w
    | some buf => cfg.headerLanes.foldl (fun w lane => w.emit (.header lane buf)) w

def sendBlock (w : Worker) (raw : Bytes) (f : BlockFrame) : Worker :=
  let w := w.emit (.sendBlock raw f)
  let w := if cfg.headerLanes = [] then w else w.emitBlockHeader wire cfg f
  w.observeFrom cfg env (blockFlowIdx wire f.msgType) .zero f.hashKey f.seqNum

def sendSubtreeData (w : Worker) (raw : Bytes) (f : SubtreeDataFrame) : Worker :=
  let w := w.emit (.sendSubtreeData raw f)
  w.observeFrom cfg env Group.subtreeDataAnnounce f.subtreeID f.hashKey f.seqNum

-- Why the topic and version elections drop a BEEF frame. The version is that of the object inside
-- of the payload, which may be a submission record.
def beefElection (f : BEEFFrame) : Option DropReason :=
  if cfg.beefTopics ≠ [] ∧ (wire.beefDeliverableTopicIDs f).all (· ∉ cfg.beefTopics) then
    some .topicFilter
  else if cfg.beefVersions ≠ [] then
    match wire.beefVersionWord ((wire.splitBEEFPayload f.payload).getD f.payload) with
    | none      => some .beefVersionFilter
    | some word => if word ∈ cfg.beefVersions then none else some .beefVersionFilter
  else none

-- BEEF frames are observed without a worker, and under a zero SubtreeID.
def observeBeef (w : Worker) (groupIdx : GroupIdx) (f : BEEFFrame) : Worker :=
  let a := arrival cfg env groupIdx .zero f.hashKey f.seqNum
  { w with tracker := w.tracker.map (·.observe cfg.nack env.instant a) }

def deliverBeef (w : Worker) (raw : Bytes) (f : BEEFFrame) : Worker :=
  match cfg.beefEngine with
  | none        => w.drop .beefDisabled
  | some engine =>
    let w := w.count (.received .brc148)
    if cfg.beefVerifyContent ∧ wire.sha256d f.payload ≠ f.contentID then w.count .invalidPayload
    else
      let groupIdx := engine.groupIndex f.topicID
      match beefElection wire cfg f with
      | some reason => w.drop reason
      | none        =>
        let c := w.claim cfg env (wire.pairKey f.contentID f.topicID)
        if c.1 = false then c.2.observeBeef cfg env groupIdx f
        else
          let d := c.2.suppress env ⟨groupIdx, f.topicID, f.seqNum⟩
          if d.1 then d.2.observeBeef cfg env groupIdx f
          else (d.2.emit (.sendBeef raw f)).observeBeef cfg env groupIdx f

-- The callbacks of the reassembly buffer.

def deliverReassembled (w : Worker) (f : Frame) : Worker :=
  let groupIdx := cfg.engine.groupIndex f.txID
  let w := w.count .reassemblyCompleted
  match cfg.filt.deny groupIdx f with
  | some reason => w.drop reason
  | none        =>
    let c := (w.count (.received .brc130)).claim cfg env f.txID
    if c.1 = false then c.2.observeFrom cfg env groupIdx f.subtreeID f.hashKey f.seqNum
    else match wire.encode f with
      | none     => c.2
      | some raw =>
        (c.2.forward cfg raw f groupIdx).observeFrom cfg env groupIdx f.subtreeID f.hashKey f.seqNum

def deliverReassembledBlock (w : Worker) (f : BlockFrame) : Worker :=
  let w := w.count .reassemblyCompleted
  match wire.encodeBlock f with
  | none     => w
  | some raw =>
    let w := w.count (.received .brc131Reassembled)
    match blockGate wire cfg f with
    | some reason => w.drop reason
    | none        => w.sendBlock wire cfg env raw f

def deliverReassembledSubtreeData (w : Worker) (f : SubtreeDataFrame) : Worker :=
  let w := w.count .reassemblyCompleted
  match wire.encodeSubtreeData f with
  | none     => w
  | some raw => (w.count (.received .brc132Reassembled)).sendSubtreeData cfg env raw f

def deliverReassembledBeefFrame (w : Worker) (buf : Bytes) (f : BEEFFrame) : Worker :=
  match wire.encodeBEEF f buf with
  | none     => w.drop .beefReencodeError
  | some raw => (w.count .reassemblyCompleted).deliverBeef wire cfg env raw f

def deliverReassembledBeef (w : Worker) (f : BEEFFrame) : Worker :=
  w.deliverReassembledBeefFrame wire cfg env
    (List.replicate (wire.headerSize + f.payload.length) 0) f

end Worker
