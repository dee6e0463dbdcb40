import ShardListener.Dedup.Set
import ShardListener.Nack.Operations
import ShardListener.Reassembly.Buffer
import ShardListener.Worker.Wire

namespace Worker

-- The reasons under which dropped frames are counted.
inductive DropReason
  | noReassemblyBuffer | fragDecodeError | decodeError | payloadNotOneTx | shardFilter
  | subtreeExclude | subtreeIncludeMiss | bundleDecodeError | blockPow | coinbaseLegacy
  | beefDisabled | topicFilter | beefVersionFilter | beefReencodeError
deriving DecidableEq

-- The labels under which received frames are counted.
inductive Class
  | brc12 | brc124 | brc130 | brc131 | brc131Reassembled | brc132 | brc132Reassembled | brc134
  | brc142 | brc148
deriving DecidableEq

-- The calls on the metrics recorder that say what becomes of a frame. Those that count the results
-- of the egress writes are left out.
inductive Metric
  | received (c : Class)
  | dropped (reason : DropReason)
  | invalidPayload
  | deduped
  | txDeduped
  | txDedupError
  | reassemblyCompleted
  | reassembly (m : Reassembly.Metric)
  | bundleRebucketed
  | rebucketUnguarded
deriving DecidableEq

inductive HeaderLane
  | unicast | mcast | fanout
deriving DecidableEq

-- The calls on the egress sinks, with the wire bytes and the parsed frame.
inductive Egress
  | send (raw : Bytes) (f : Frame)
  | sendBlock (raw : Bytes) (f : BlockFrame)
  | sendSubtreeData (raw : Bytes) (f : SubtreeDataFrame)
  | sendBeef (raw : Bytes) (f : BEEFFrame)
  | sendBundle (raw : Bytes) (b : Bundle)
  | mcast (raw : Bytes) (f : Frame) (groupIdx : GroupIdx)
  | header (lane : HeaderLane) (raw : Bytes)
deriving DecidableEq

-- The include and exclude sets (`none` for nil), and the contents of the subtree group registry.
structure Filter where
  shardInclude   : Option (List GroupIdx) := none
  subtreeInclude : Option (List Bytes32) := none
  subtreeExclude : Option (List Bytes32) := none
  groupReg       : Option (Bytes32 → Bool) := none

-- Whether a frame is denied, and why.
def Filter.deny (filt : Filter) (groupIdx : GroupIdx) (f : Frame) : Option DropReason :=
  if filt.shardInclude.any (groupIdx ∉ ·) then some .shardFilter
  else if filt.subtreeExclude.any (f.subtreeID ∈ ·) then some .subtreeExclude
  else if filt.subtreeInclude.isSome ∨ filt.groupReg.isSome then
    if filt.subtreeInclude.any (f.subtreeID ∈ ·) ∨ filt.groupReg.any (· f.subtreeID) then none
    else some .subtreeIncludeMiss
  else none

namespace Filter

-- `filter.New`: an empty list is no restriction.
def new (shardInclude : List GroupIdx) (subtreeInclude subtreeExclude : List Bytes32)
    (groupReg : Option (Bytes32 → Bool)) : Filter where
  shardInclude   := if shardInclude = [] then none else some shardInclude
  subtreeInclude := if subtreeInclude = [] then none else some subtreeInclude
  subtreeExclude := if subtreeExclude = [] then none else some subtreeExclude
  groupReg       := groupReg

def allow (filt : Filter) (groupIdx : GroupIdx) (f : Frame) : Bool :=
  (filt.deny groupIdx f).isNone

end Filter

-- The settings of a worker. What is nil in the source when it is not configured is `none`, `false`
-- or empty here.
structure Settings where
  id                : Int
  engine            : Engine
  filt              : Filter := {}
  nack              : Nack.Config
  reassembly        : Reassembly.Config
  verifyPayloadHash : Bool := false
  requireBlockPoW   : Bool := false
  txDedup           : Bool := false
  mcastEgr          : Bool := false
  -- The egress sink is a `BundleSink`.
  bundleAware       : Bool := false
  relay             : Bool := false
  headerLanes       : List HeaderLane := []
  headerHashKey     : HashKey := 0
  beefEngine        : Option Engine := none
  beefTopics        : List Bytes32 := []
  beefVersions      : List Nat := []
  beefVerifyContent : Bool := false

-- The answer of the cross-listener store to a claim.
inductive Claim
  | claimed | taken | error
deriving DecidableEq

-- What one call gets from outside: the clock, the source of the datagram (nil for one that is
-- re-injected), the answers of the cross-listener store, and the room on the NACK queue.
structure Env where
  instant : Instant
  source  : Option IP
  claim   : Bytes32 → Claim
  room    : Nat

end Worker

-- The state of a worker, with the calls it has made on the sinks and on the recorder. `rebucketed`
-- is the history of the re-bucketer. The counters `egressSeq` and `headerSeqNum` are `uint64` in
-- the source; here they do not wrap around, which takes 2^64 members or headers.
structure Worker where
  tracker      : Option Nack.Tracker := none
  dedupSet     : Option Dedup.Set := none
  egressSeq    : Dict HashKey SeqNum := ∅
  headerSeqNum : SeqNum := 0
  rebucketed   : List Bundle := []
  egress       : List Worker.Egress := []
  metrics      : List Worker.Metric := []
