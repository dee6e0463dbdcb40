import ShardListener.Extensions.Dict
import ShardListener.Extensions.Sorter
import ShardListener.Objects.Basic

namespace Discovery

-- The functions of Go's standard library that read and write the text of an address.
structure AddrText where
  -- `net.SplitHostPort`: the host, or `none` where it reports an error.
  splitHostPort : String → Option String
  -- `net.ParseIP`: the 16-byte form, or `none` for a text that is not an address literal.
  parseIP       : String → Option IP
  -- `strings.Trim(s, "[]")`
  trimBrackets  : String → String
  -- `strings.EqualFold`
  equalFold     : String → String → Bool
  -- `fmt.Sprintf("[%s]:%d", addr, port)`
  hostPort      : IP → UInt16 → String

-- A decoded ADVERT beacon. The registry does not read its scope.
structure Advert where
  nackAddr       : IP
  nackPort       : UInt16
  tier           : UInt8
  preference     : UInt8
  beaconInterval : UInt16
  flags          : UInt16
  instanceID     : UInt32

def flagUnicastRetransmit : UInt16 :=
  0x0008

structure EndpointEntry where
  addr            : String
  tier            : UInt8
  preference      : UInt8
  flags           : UInt16
  expires         : Time
  instanceID      : UInt32
  supportsUnicast : Bool
deriving DecidableEq

namespace EndpointEntry

-- The comparison `Snapshot` sorts by.
def less (a b : EndpointEntry) : Bool :=
  if a.tier ≠ b.tier then a.tier < b.tier else b.preference < a.preference

-- The first of January 9999, counted from the Unix epoch.
def never : Time :=
  253370764800 * 10 ^ 9

-- The `i`-th static seed. The preference is 255 less the position, and 0 from position 255 on.
def seed (i : Nat) (addr : String) : EndpointEntry where
  addr            := addr
  tier            := 0xFF
  preference      := .ofNat (255 - i)
  flags           := 0
  expires         := never
  instanceID      := .ofNat (0xFFFFF000 + i)
  supportsUnicast := false

end EndpointEntry

structure Registry where
  entries  : Dict UInt32 EndpointEntry
  seeds    : List EndpointEntry
  snapshot : Option (List EndpointEntry)
  dirty    : Bool

namespace Registry

def new : Registry where
  entries  := ∅
  seeds    := []
  snapshot := none
  dirty    := false

def upsert (txt : AddrText) (now : Time) (a : Advert) (r : Registry) : Registry :=
  let addr := txt.hostPort a.nackAddr a.nackPort
  let ttl : Duration := a.beaconInterval.toNat * 3 * 10 ^ 9
  let supportsUnicast := a.flags &&& flagUnicastRetransmit ≠ 0
  let entry : EndpointEntry :=
    match r.entries.lookup a.instanceID with
    | some entry =>
      { entry with
        addr, supportsUnicast
        tier       := a.tier
        preference := a.preference
        flags      := a.flags
        expires    := now + ttl }
    | none =>
      { addr, supportsUnicast
        tier       := a.tier
        preference := a.preference
        flags      := a.flags
        expires    := now + ttl
        instanceID := a.instanceID }
  { r with entries := r.entries.insert a.instanceID entry, dirty := true }

-- One turn of the loop of `Evict`.
def evictEntry (now : Time) (r : Registry) (id : UInt32) : Registry :=
  match r.entries.lookup id with
  | some e => if e.expires < now then { r with entries := r.entries.erase id, dirty := true } else r
  | none   => r

def evict (now : Time) (r : Registry) : Registry :=
  r.entries.keys.foldl (evictEntry now) r

def seed (addrs : List String) (r : Registry) : Registry :=
  { r with seeds := addrs.mapIdx EndpointEntry.seed, dirty := true }

def beacons (r : Registry) : List EndpointEntry :=
  r.entries.entries.map (·.2)

-- The endpoint is known from a beacon. `Snapshot` compares the texts of the addresses.
def seen (r : Registry) (addr : String) : Bool :=
  addr ∈ r.beacons.map (·.addr)

def merged (r : Registry) : List EndpointEntry :=
  r.beacons ++ r.seeds.filter fun s => !r.seen s.addr

-- `Snapshot`, with the arrangement that the iteration over the map and the unstable `sort.Slice`
-- come to in this call.
def takeSnapshot (σ : Sorter EndpointEntry.less) (r : Registry) : List EndpointEntry × Registry :=
  match r.dirty, r.snapshot with
  | false, some snap => (snap, r)
  | _, _ =>
    let snap := σ.sort r.merged
    (snap, { r with snapshot := some snap, dirty := false })

-- The calls of the beacon listener.
inductive Event where
  | upsert (now : Time) (a : Advert)
  | evict (now : Time)

def handle (txt : AddrText) (r : Registry) : Event → Registry
  | .upsert now a => r.upsert txt now a
  | .evict now    => r.evict now

end Registry

end Discovery
