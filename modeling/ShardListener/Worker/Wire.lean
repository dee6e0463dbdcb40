import ShardListener.Objects.Frame

-- A BRC-142 bundle: the frames of one (group, subtree) in one datagram.
structure Bundle where
  shardBits : Nat
  groupIdx  : GroupIdx
  subtreeID : Bytes32
  hashKey   : HashKey
  seqNum    : SeqNum
  members   : List Bytes
deriving DecidableEq

-- The shard engine of one generation.
structure Engine where
  groupIndex : Bytes32 → GroupIdx
  shardBits  : Nat

-- What the worker uses of the shard-common library, whose code is not part of the repository: the
-- tests for the frame classes, the codecs (`none` is an error), and the bundle and BEEF functions.
structure Wire extends Formats where
  isBlockFrame            : Bytes → Bool
  isSubtreeDataFrame      : Bytes → Bool
  isAnchorFrame           : Bytes → Bool
  isFragment              : Bytes → Bool
  isBundle                : Bytes → Bool
  isBEEFFrame             : Bytes → Bool
  decodeBlock             : Bytes → Option BlockFrame
  decodeSubtreeData       : Bytes → Option SubtreeDataFrame
  decodeAnchor            : Bytes → Option Frame
  decodeFragment          : Bytes → Option FragFrame
  decodeBundle            : Bytes → Option Bundle
  decodeBEEF              : Bytes → Option BEEFFrame
  -- Frames of the versions 1 and 2.
  decode                  : Bytes → Option Frame
  -- The encoders write into a buffer with room for the header and the payload.
  encode                  : Frame → Option Bytes
  encodeBlock             : BlockFrame → Option Bytes
  encodeSubtreeData       : SubtreeDataFrame → Option Bytes
  encodeBEEF              : BEEFFrame → Bytes → Option Bytes
  encodeBundle            : Bundle → Option Bytes
  encodeBlockHeader       : Bytes32 → HashKey → SeqNum → Bytes → Option Bytes
  decoalesce              : Bundle → List Frame
  -- The children of a bundle, given the bundles that have been re-bucketed before it.
  rebucket                : List Bundle → Bundle → List Bundle
  blockMsgAnnounce        : UInt8
  blockMsgCoinbase        : UInt8
  -- Proof of work of an 80-byte header, against the configured floor.
  checkHeader             : Bytes → Bool
  beefDeliverableTopicIDs : BEEFFrame → List Bytes32
  splitBEEFPayload        : Bytes → Option Bytes
  beefVersionWord         : Bytes → Option Nat

-- The reserved group indices.
namespace Group

def blockBroadcast : GroupIdx :=
  0xFFFE

def subtreeDataAnnounce : GroupIdx :=
  0xFFFB

def anchorFlow : GroupIdx :=
  0xFFF9

def coinbaseFlow : GroupIdx :=
  0xFFF8

end Group

-- The size of a block header (`frame.BlockHeaderSize`, `pow.HeaderSize`).
def blockHeaderSize : Nat :=
  80

-- A wire on which no frame is recognised, for the examples.
def Wire.blank : Wire where
  headerSize              := 92
  sha256 p                := .fill (p.getLastD 0)
  txSize p                := some p.length
  txID p                  := some (.fill (p.headD 0))
  beefRecordMaxEnvelope   := 64
  isBlockFrame _          := false
  isSubtreeDataFrame _    := false
  isAnchorFrame _         := false
  isFragment _            := false
  isBundle _              := false
  isBEEFFrame _           := false
  decodeBlock _           := none
  decodeSubtreeData _     := none
  decodeAnchor _          := none
  decodeFragment _        := none
  decodeBundle _          := none
  decodeBEEF _            := none
  decode _                := none
  encode _                := none
  encodeBlock _           := none
  encodeSubtreeData _     := none
  encodeBEEF _ _          := none
  encodeBundle _          := none
  encodeBlockHeader _ _ _ _ := none
  decoalesce _            := []
  rebucket _ _            := []
  blockMsgAnnounce        := 1
  blockMsgCoinbase        := 2
  checkHeader _           := true
  beefDeliverableTopicIDs _ := []
  splitBEEFPayload _      := none
  beefVersionWord _       := none
