import ShardListener.Extensions.Splice
import ShardListener.Objects.Frame

namespace Reassembly

-- A fragment held until its slot is promoted.
structure EarlyFrag where
  index : Nat
  data  : Bytes
deriving DecidableEq

-- The fragments received so far for one object. `held` is the source's `have`. The buffer `whole`
-- of the source is `payload` with room for a header in front, see `Slot.whole`.
structure Slot where
  key            : Bytes32
  txID           : Bytes32
  subtreeID      : Bytes32
  hashKey        : HashKey
  seqNum         : SeqNum
  origPayloadLen : Nat
  fragTotal      : Nat
  fragSize       : Nat := 0
  received       : Nat := 0
  held           : List Bool
  payload        : Option Bytes := none
  early          : List EarlyFrag := []
  fragSeq        : List SeqNum
  groupIdx       : GroupIdx
  deadline       : Time
  born           : Time
  requested      : Bool := false
  extended       : Bool := false
  origFrameVer   : UInt8
  msgType        : UInt8

-- A completed object, as the frame of its class.
inductive Delivery
  | tx (f : Frame)
  | block (f : BlockFrame)
  | subtreeData (f : SubtreeDataFrame)
  | beef (f : BEEFFrame)
deriving DecidableEq

-- How many fragments an object shows before its whole buffer is allocated.
def promoteAfter (total : Nat) : Nat :=
  min total (max 8 (total / 16))

-- BRC-148 fragments key on the (ContentID, TopicID) pair, all others on the offset-8 field alone.
def slotKey (fmt : Formats) (ff : FragFrame) : Bytes32 :=
  if ff.origFrameVer ≠ FrameVer.v9 then ff.txID else fmt.pairKey ff.txID ff.subtreeID

-- The check under `verifyHash`. Block control and subtree data are exempt: their identifiers are
-- not hashes of the payload.
def verified (fmt : Formats) (origFrameVer : UInt8) (txID : Bytes32) (payload : Bytes) : Prop :=
  if origFrameVer = FrameVer.v4 then True
  else if origFrameVer = FrameVer.v5 then True
  else if origFrameVer = FrameVer.v9 then fmt.sha256d payload = txID
  else fmt.payloadTxID payload = some txID

instance {fmt : Formats} {ver : UInt8} {txID : Bytes32} {payload : Bytes} :
    Decidable (verified fmt ver txID payload) :=
  inferInstanceAs (Decidable (ite _ _ (ite _ _ (ite _ _ _))))

namespace Slot

-- The place of a fragment in the payload is `index * fragSize`.
def place (fragSize : Nat) (buf : Bytes) (f : EarlyFrag) : Bytes :=
  buf.writeAt (f.index * fragSize) f.data

-- The object's buffer with the fragments held so far.
def assembled (s : Slot) : Bytes :=
  s.early.foldl (place s.fragSize) (List.replicate s.origPayloadLen 0)

def promote (s : Slot) : Slot :=
  { s with payload := some s.assembled, early := [] }

def store (s : Slot) (index : Nat) (data : Bytes) : Slot :=
  match s.payload with
  | some buf => { s with payload := some (place s.fragSize buf ⟨index, data⟩) }
  | none     =>
    let s := { s with early := s.early ++ [⟨index, data⟩] }
    if promoteAfter s.fragTotal ≤ s.early.length % 2 ^ 16 then s.promote else s

-- A fragment's data length implies the uniform length of the non-final fragments: it is that
-- length, except for the final fragment, which holds the rest.
def impliedSize (s : Slot) (ff : FragFrame) : Option Nat :=
  let n      := ff.fragData.length
  let total  := s.fragTotal
  let objLen := s.origPayloadLen
  if n = 0 then none
  else if total = 1 then
    if n ≠ objLen then none else some n
  else if ff.fragIndex = total - 1 then
    if objLen ≤ n ∨ (objLen - n) % (total - 1) ≠ 0 then none else some ((objLen - n) / (total - 1))
  else if objLen ≤ n * (total - 1) then none
  else some n

-- All fragments of an object have to imply the same size.
def checkFragLen (s : Slot) (ff : FragFrame) : Option Nat :=
  match s.impliedSize ff with
  | none      => none
  | some size => if s.fragSize ≠ 0 ∧ s.fragSize ≠ size then none else some size

-- The nearest received fragment, the lower one of two at the same distance.
def nearestHeld (s : Slot) (i : Nat) : Option Nat :=
  (List.range' 1 (s.fragTotal - 1)).findSome? fun d =>
    if d ≤ i ∧ s.held[i - d]? = some true then some (i - d)
    else if i + d < s.fragTotal ∧ s.held[i + d]? = some true then some (i + d)
    else none

-- The SeqNum of a missing fragment, extrapolated from its nearest received neighbour.
def missingSeqNum (s : Slot) (i : Nat) : Option SeqNum :=
  if s.held[i]? = some true then none
  else match s.nearestHeld i with
    | none      => none
    | some best =>
      let seq := toInt64 (toInt64 (s.fragSeq[best]?.getD 0) + (i - best))
      if seq < 0 then none else some (toUint64 seq)

def missingSeqNums (s : Slot) : List SeqNum :=
  if s.received = 0 then [] else (List.range s.fragTotal).filterMap s.missingSeqNum

-- The buffer the payload of a BEEF object sits in, with room for the header of its frame.
def whole (fmt : Formats) (payload : Bytes) : Bytes :=
  List.replicate fmt.headerSize 0 ++ payload

-- The slot after it took a fragment that fits its shape.
def receive (s : Slot) (size : Nat) (ff : FragFrame) : Slot :=
  { { s with fragSize := size }.store ff.fragIndex ff.fragData with
    held     := s.held.set ff.fragIndex true
    fragSeq  := s.fragSeq.set ff.fragIndex ff.seqNum
    received := s.received + 1 }

-- Any version that is not one of block control, subtree data and BEEF is delivered as a
-- transaction.
def delivery (s : Slot) (payload : Bytes) : Delivery :=
  if s.origFrameVer = FrameVer.v4 then
    .block ⟨s.msgType, s.txID, s.hashKey, s.seqNum, payload⟩
  else if s.origFrameVer = FrameVer.v5 then
    .subtreeData ⟨s.msgType, s.txID, s.hashKey, s.seqNum, payload⟩
  else if s.origFrameVer = FrameVer.v9 then
    .beef ⟨s.msgType, s.txID, s.subtreeID, s.hashKey, s.seqNum, payload⟩
  else
    .tx ⟨FrameVer.v2, s.txID, s.hashKey, s.seqNum, s.subtreeID, payload⟩

end Slot
end Reassembly
