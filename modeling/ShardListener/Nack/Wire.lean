import ShardListener.Extensions.Codec
import ShardListener.Objects.Basic

-- The datagrams of the NACK protocol.
namespace Nack

def nackMagic : Nat :=
  0xE3E1F3E8

def nackProtoVer : Nat :=
  0x02BF

def nackSize : Nat :=
  64

def responseSize : Nat :=
  16

namespace MsgType

def nack : UInt8 := 0x10

def miss : UInt8 := 0x11

def ack : UInt8 := 0x12

def throttled : UInt8 := 0x13

end MsgType

-- A request for the frames of a range of SeqNums.
structure NACK where
  msgType   : UInt8
  hashKey   : HashKey
  startSeq  : SeqNum
  endSeq    : SeqNum
  subtreeID : Bytes32
deriving DecidableEq

-- `Encode`. Without room for the datagram the bounds check panics.
def encode (n : NACK) (buf : Bytes) : Option Bytes :=
  if buf.length < nackSize then none
  else some <| buf
    |>.writeAt 0 (BigEndian.bytes 4 nackMagic)
    |>.writeAt 4 (BigEndian.bytes 2 nackProtoVer)
    |>.writeAt 6 [n.msgType]
    |>.writeAt 7 [0x00]
    |>.writeAt 8 (BigEndian.bytes 8 n.hashKey)
    |>.writeAt 16 (BigEndian.bytes 8 n.startSeq)
    |>.writeAt 24 (BigEndian.bytes 8 n.endSeq)
    |>.writeAt 32 n.subtreeID.bytes

def decode (buf : Bytes) : Option NACK :=
  if buf.length < nackSize then none
  else if BigEndian.value (buf.take 4) ≠ nackMagic then none
  else
    let mt := buf.getD 6 0
    if mt ≠ MsgType.nack then none
    else some
      { msgType   := mt
        hashKey   := BigEndian.value ((buf.drop 8).take 8)
        startSeq  := BigEndian.value ((buf.drop 16).take 8)
        endSeq    := BigEndian.value ((buf.drop 24).take 8)
        subtreeID := .copyOf ((buf.drop 32).take 32) }

-- The answer of a retry endpoint.
structure Response where
  msgType : UInt8
  flags   : UInt8
  seqNum  : SeqNum
deriving DecidableEq

def encodeResponse (r : Response) (buf : Bytes) : Option Bytes :=
  if buf.length < responseSize then none
  else some <| buf
    |>.writeAt 0 (BigEndian.bytes 4 nackMagic)
    |>.writeAt 4 (BigEndian.bytes 2 nackProtoVer)
    |>.writeAt 6 [r.msgType]
    |>.writeAt 7 [r.flags]
    |>.writeAt 8 (BigEndian.bytes 8 r.seqNum)

def decodeResponse (buf : Bytes) : Option Response :=
  if buf.length < responseSize then none
  else if BigEndian.value (buf.take 4) ≠ nackMagic then none
  else
    let mt := buf.getD 6 0
    if mt ≠ MsgType.miss ∧ mt ≠ MsgType.ack ∧ mt ≠ MsgType.throttled then none
    else some ⟨mt, buf.getD 7 0, BigEndian.value ((buf.drop 8).take 8)⟩

end Nack
