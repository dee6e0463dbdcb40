import ShardListener.Discovery.Registry
import ShardListener.Extensions.Codec

-- The beacon datagrams of the retry endpoints.
namespace Discovery

def advertSize : Nat :=
  56

def advertMagic : Nat :=
  0xE3E1F3E8

def advertProtoVer : Nat :=
  0x02BF

def msgTypeADVERT : UInt8 :=
  0x20

-- A beacon, with the scope that the registry does not read.
structure ADVERT extends Advert where
  scope : UInt8

inductive AdvertError
  | badADVERT
  | zeroAddr
deriving DecidableEq

-- `EncodeADVERT`. Without room for the datagram the bounds check panics.
def encodeADVERT (a : ADVERT) (buf : Bytes) : Option Bytes :=
  if buf.length < advertSize then none
  else some <| buf
    |>.writeAt 0 (BigEndian.bytes 4 advertMagic)
    |>.writeAt 4 (BigEndian.bytes 2 advertProtoVer)
    |>.writeAt 6 [msgTypeADVERT]
    |>.writeAt 7 [a.scope]
    |>.writeAt 8 (BigEndian.bytes 16 a.nackAddr.toNat)
    |>.writeAt 24 (BigEndian.bytes 2 a.nackPort.toNat)
    |>.writeAt 26 [a.tier]
    |>.writeAt 27 [a.preference]
    |>.writeAt 28 (BigEndian.bytes 2 a.beaconInterval.toNat)
    |>.writeAt 30 (BigEndian.bytes 2 a.flags.toNat)
    |>.writeAt 32 (BigEndian.bytes 4 a.instanceID.toNat)
    |>.writeAt 36 (BigEndian.bytes 4 0)
    |>.writeAt 40 (List.replicate 16 0)

def decodeADVERT (buf : Bytes) : Except AdvertError ADVERT :=
  if buf.length < advertSize then .error .badADVERT
  else if BigEndian.value (buf.take 4) ≠ advertMagic then .error .badADVERT
  else if buf.getD 6 0 ≠ msgTypeADVERT then .error .badADVERT
  else
    let nackAddr := (buf.drop 8).take 16
    if nackAddr.all (· == 0) then .error .zeroAddr
    else .ok
      { scope          := buf.getD 7 0
        nackAddr       := BitVec.ofNat 128 (BigEndian.value nackAddr)
        nackPort       := UInt16.ofNat (BigEndian.value ((buf.drop 24).take 2))
        tier           := buf.getD 26 0
        preference     := buf.getD 27 0
        beaconInterval := UInt16.ofNat (BigEndian.value ((buf.drop 28).take 2))
        flags          := UInt16.ofNat (BigEndian.value ((buf.drop 30).take 2))
        instanceID     := UInt32.ofNat (BigEndian.value ((buf.drop 32).take 4)) }

end Discovery
