import ShardListener.Objects.Basic

-- The version bytes of the frame formats.
namespace FrameVer

-- BRC-124 and BRC-128 transactions.
def v2 : UInt8 := 0x02

-- BRC-131 block control.
def v4 : UInt8 := 0x04

-- BRC-132 subtree data.
def v5 : UInt8 := 0x05

-- BRC-134 anchor transactions.
def v6 : UInt8 := 0x06

-- BRC-148 BEEF objects.
def v9 : UInt8 := 0x09

end FrameVer

-- A transaction frame. BRC-12 frames have another version and no identity fields.
structure Frame where
  version   : UInt8
  txID      : Bytes32
  hashKey   : HashKey
  seqNum    : SeqNum
  subtreeID : Bytes32
  payload   : Bytes
deriving DecidableEq

structure BlockFrame where
  msgType   : UInt8
  contentID : Bytes32
  hashKey   : HashKey
  seqNum    : SeqNum
  payload   : Bytes
deriving DecidableEq

structure SubtreeDataFrame where
  msgType   : UInt8
  subtreeID : Bytes32
  hashKey   : HashKey
  seqNum    : SeqNum
  payload   : Bytes
deriving DecidableEq

structure BEEFFrame where
  deliverCount : UInt8
  contentID    : Bytes32
  topicID      : Bytes32
  hashKey      : HashKey
  seqNum       : SeqNum
  payload      : Bytes
deriving DecidableEq

-- A BRC-130 fragment. The identity fields of the object (`txID`, `subtreeID`) and byte 7 of its
-- header (`msgType`) are carried over in every fragment.
structure FragFrame where
  txID           : Bytes32
  subtreeID      : Bytes32
  hashKey        : HashKey
  seqNum         : SeqNum
  fragIndex      : Nat
  fragTotal      : Nat
  origPayloadLen : Nat
  origFrameVer   : UInt8
  msgType        : UInt8
  fragData       : Bytes
deriving DecidableEq

-- What reassembly uses of `crypto/sha256` and of the frame and object formats, whose code is not
-- part of the repository.
structure Formats where
  headerSize            : Nat
  sha256                : Bytes → Bytes32
  txSize                : Bytes → Option Nat
  txID                  : Bytes → Option Bytes32
  beefRecordMaxEnvelope : Int

namespace Formats

variable (fmt : Formats)

def sha256d (p : Bytes) : Bytes32 :=
  fmt.sha256 (fmt.sha256 p).bytes

-- The canonical id of a payload that is exactly one transaction.
def payloadTxID (p : Bytes) : Option Bytes32 :=
  if fmt.txSize p = some p.length then fmt.txID p else none

-- SHA-256(ContentID ∥ TopicID).
def pairKey (contentID topicID : Bytes32) : Bytes32 :=
  fmt.sha256 (contentID.bytes ++ topicID.bytes)

end Formats
