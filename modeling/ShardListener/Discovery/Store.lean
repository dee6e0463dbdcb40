import ShardListener.Discovery.Registry
import ShardListener.Extensions.Heap

namespace Discovery

def EndpointEntry.zero : EndpointEntry where
  addr            := ""
  tier            := 0
  preference      := 0
  flags           := 0
  expires         := 0
  instanceID      := 0
  supportsUnicast := false

-- The registry with the entries behind pointers. `lent` has the pointers that a caller can come by:
-- the lists that `Snapshot` has returned, and the entries in them.
structure Store where
  heap     : Heap EndpointEntry
  entries  : Dict UInt32 Ptr
  seeds    : List Ptr
  -- The array of the stored snapshot.
  snapshot : Option Ptr
  dirty    : Bool
  lent     : List Ptr

namespace Store

def new : Store where
  heap     := ⟨fun _ => .zero, fun _ => [], 0⟩
  entries  := ∅
  seeds    := []
  snapshot := none
  dirty    := false
  lent     := []

-- An entry that is there is written in its place.
def upsert (txt : AddrText) (now : Time) (a : Advert) (s : Store) : Store :=
  let addr := txt.hostPort a.nackAddr a.nackPort
  let ttl : Duration := a.beaconInterval.toNat * 3 * 10 ^ 9
  let supportsUnicast := a.flags &&& flagUnicastRetransmit ≠ 0
  match s.entries.lookup a.instanceID with
  | some p =>
    let entry :=
      { s.heap.cells p with
        addr, supportsUnicast
        tier       := a.tier
        preference := a.preference
        flags      := a.flags
        expires    := now + ttl }
    { s with heap := s.heap.write p entry, dirty := true }
  | none =>
    let r := s.heap.alloc
      { addr, supportsUnicast
        tier       := a.tier
        preference := a.preference
        flags      := a.flags
        expires    := now + ttl
        instanceID := a.instanceID }
    { s with heap := r.2, entries := s.entries.insert a.instanceID r.1, dirty := true }

def evictEntry (now : Time) (s : Store) (id : UInt32) : Store :=
  match s.entries.lookup id with
  | some p =>
    if (s.heap.cells p).expires < now then { s with entries := s.entries.erase id, dirty := true }
    else s
  | none   => s

def evict (now : Time) (s : Store) : Store :=
  s.entries.keys.foldl (evictEntry now) s

def seed (addrs : List String) (s : Store) : Store :=
  let r := s.heap.allocAll (addrs.mapIdx EndpointEntry.seed)
  { s with heap := r.2, seeds := r.1, dirty := true }

def beacons (s : Store) : List Ptr :=
  s.entries.entries.map (·.2)

def seen (s : Store) (addr : String) : Bool :=
  addr ∈ s.beacons.map fun p => (s.heap.cells p).addr

def merged (s : Store) : List Ptr :=
  s.beacons ++ s.seeds.filter fun p => !s.seen (s.heap.cells p).addr

-- The stored snapshot, after a rebuild if it is out of date. The sorted pointers are not kept: what
-- they point to is copied.
def cached (σ : Sorter EndpointEntry.less) (s : Store) : Ptr × Store :=
  match s.dirty, s.snapshot with
  | false, some a => (a, s)
  | _, _ =>
    let r := s.heap.slice (σ.sort (s.merged.map s.heap.cells))
    (r.1, { s with heap := r.2, snapshot := some r.1, dirty := false })

-- `Snapshot`, which returns a copy of the stored one.
def takeSnapshot (σ : Sorter EndpointEntry.less) (s : Store) : Ptr × Store :=
  let c := s.cached σ
  let r := c.2.heap.slice (c.2.heap.read c.1)
  (r.1, { c.2 with heap := r.2, lent := r.1 :: (r.2.arrays r.1 ++ c.2.lent) })

-- The entries of the list that `Snapshot` returns.
def returned (σ : Sorter EndpointEntry.less) (s : Store) : List EndpointEntry :=
  (s.takeSnapshot σ).2.heap.read (s.takeSnapshot σ).1

-- The calls on the registry, and what a caller does to the entries and the lists that it got.
inductive Op where
  | upsert (now : Time) (a : Advert)
  | evict (now : Time)
  | seed (addrs : List String)
  | snapshot (σ : Sorter EndpointEntry.less)
  | write (p : Ptr) (e : EndpointEntry)
  | store (a : Ptr) (ps : List Ptr)

def Op.isCall : Op → Bool
  | write .. | store .. => false
  | _                   => true

def step (txt : AddrText) (s : Store) : Op → Store
  | .upsert now a => s.upsert txt now a
  | .evict now    => s.evict now
  | .seed addrs   => s.seed addrs
  | .snapshot σ   => (s.takeSnapshot σ).2
  | .write p e    => if p ∈ s.lent then { s with heap := s.heap.write p e } else s
  | .store a ps   => if a ∈ s.lent then { s with heap := s.heap.store a ps } else s

end Store
end Discovery
