import ShardListener.Discovery.Wire

-- The goroutines of the beacon listener: one that reads each socket, and one that evicts. They meet
-- in the registries only, under their locks.
namespace Discovery

def flagDraining : UInt16 :=
  0x0004

def msgTypeShardManifest : UInt8 :=
  0x40

inductive BeaconMetric
  | advertReceived
  | manifestReceived
  | registryEndpoints (n : Nat)

-- `manifests` has the calls of `Upsert` on the registry of the manifests, if there is one. The
-- manifests, their decoder and that registry are not part of the repository.
structure BeaconListener (μ : Type) where
  registry  : Registry
  manifests : Option (List (IP × μ)) := none
  metrics   : List BeaconMetric := []

namespace BeaconListener

variable {μ : Type} (txt : AddrText) (decodeShardManifest : Bytes → Option μ)

def count (bl : BeaconListener μ) (m : BeaconMetric) : BeaconListener μ :=
  { bl with metrics := bl.metrics ++ [m] }

def handleADVERT (now : Time) (bl : BeaconListener μ) (buf : Bytes) : BeaconListener μ :=
  match decodeADVERT buf with
  | .error _   => bl
  | .ok advert =>
    if advert.flags &&& flagDraining ≠ 0 then bl
    else { bl with registry := bl.registry.upsert txt now advert.toAdvert }.count .advertReceived

def handleManifest (bl : BeaconListener μ) (src : IP) (buf : Bytes) : BeaconListener μ :=
  match bl.manifests, decodeShardManifest buf with
  | none,    _      => bl
  | some _,  none   => bl
  | some ms, some m => { bl with manifests := some (ms ++ [(src, m)]) }.count .manifestReceived

-- The buffer of `listenGroup`. What does not fit in is cut off.
def readBufSize : Nat :=
  2048

-- One turn of the loop of `listenGroup` in which a datagram comes.
def receive (now : Time) (bl : BeaconListener μ) (src : IP) (datagram : Bytes) : BeaconListener μ :=
  let buf := datagram.take readBufSize
  if buf.length < 7 then bl
  else if buf.getD 6 0 = msgTypeADVERT then bl.handleADVERT txt now buf
  else if buf.getD 6 0 = msgTypeShardManifest then bl.handleManifest decodeShardManifest src buf
  else bl

-- One turn of `evictLoop`.
def evictTick (now : Time) (bl : BeaconListener μ) : BeaconListener μ :=
  let registry := bl.registry.evict now
  { bl with registry }.count
    (.registryEndpoints (registry.entries.keys.length + registry.seeds.length))

-- The tracker takes its snapshots of the same registry.
inductive Event
  | datagram (now : Time) (src : IP) (bytes : Bytes)
  | evict (now : Time)
  | snapshot (σ : Sorter EndpointEntry.less)

def step (bl : BeaconListener μ) : Event → BeaconListener μ
  | .datagram now src bytes => bl.receive txt decodeShardManifest now src bytes
  | .evict now              => bl.evictTick now
  | .snapshot σ             => { bl with registry := (bl.registry.takeSnapshot σ).2 }

end BeaconListener
end Discovery
