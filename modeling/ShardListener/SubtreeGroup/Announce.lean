import ShardListener.SubtreeGroup.Registry
import ShardListener.Worker.System

-- The listener for the announcements that fill the registry, and the worker whose filter asks it.
namespace SubtreeGroup

-- A decoded announcement. The TTL is in seconds.
structure Announce where
  groupID   : GroupID
  subtreeID : Bytes32
  ttl       : Nat

-- The size of an announcement and its decoder, which are not part of the repository.
structure AnnounceFormat where
  size   : Nat
  decode : Bytes → Option Announce

-- The networks, by `IPNet.Contains`. `none` is the source of a datagram that is not from an IPv6
-- address.
structure SenderACL where
  includes : List (Option IP → Bool)
  excludes : List (Option IP → Bool)

def SenderACL.allow (a : SenderACL) (ip : Option IP) : Bool :=
  if a.excludes.any (· ip) then false
  else if a.includes.isEmpty then true
  else a.includes.any (· ip)

structure AnnounceConfig where
  fmt        : AnnounceFormat
  acl        : SenderACL
  defaultTTL : Duration

inductive RejectReason
  | tooShort | senderFilter | decodeError
deriving DecidableEq

inductive AnnounceMetric
  | rejected (reason : RejectReason)
  | received
  | evicted (n len : Nat)

structure AnnounceListener where
  registry : Registry
  metrics  : List AnnounceMetric := []

def Registry.len (r : Registry) : Nat :=
  r.entries.sumBy fun _ subs => subs.entries.length

namespace AnnounceListener

variable (cfg : AnnounceConfig)

def count (sl : AnnounceListener) (m : AnnounceMetric) : AnnounceListener :=
  { sl with metrics := sl.metrics ++ [m] }

def ttl (ann : Announce) : Duration :=
  if 0 < ann.ttl then ann.ttl * 10 ^ 9 else cfg.defaultTTL

-- The turn of the loop of `listenGroup` in which a datagram comes. The buffer has some room behind
-- the announcement.
def receive (now : Time) (sl : AnnounceListener) (src : Option IP) (datagram : Bytes) :
    AnnounceListener :=
  let buf := datagram.take (cfg.fmt.size + 64)
  if buf.length < cfg.fmt.size then sl.count (.rejected .tooShort)
  else if cfg.acl.allow src = false then sl.count (.rejected .senderFilter)
  else
    match cfg.fmt.decode buf with
    | none     => sl.count (.rejected .decodeError)
    | some ann =>
      let registry := sl.registry.add now ann.groupID ann.subtreeID (ttl cfg ann)
      { sl with registry }.count .received

-- One turn of `evictLoop`.
def evictTick (now : Time) (sl : AnnounceListener) : AnnounceListener :=
  let r := sl.registry.evict now
  { sl with registry := r.1 }.count (.evicted r.2 r.1.len)

end AnnounceListener

structure Listener where
  node     : Node
  announce : AnnounceListener

namespace Listener

inductive Event
  | worker (ev : Node.Event)
  | announcement (now : Time) (src : Option IP) (datagram : Bytes)
  | evict (now : Time)

-- When the filter asks the registry. The calls on the tracker do not come to the filter.
def clock : Node.Event → Time
  | .datagram env _ => env.instant.now
  | .tick env       => env.instant.now
  | .tracker _      => 0

-- The settings of the worker at a time, with what the registry answers then.
def settings (cfg : Worker.Settings) (r : Registry) (now : Time) : Worker.Settings :=
  { cfg with filt := { cfg.filt with groupReg := some (r.contains now) } }

def step (wire : Wire) (cfg : Worker.Settings) (acfg : AnnounceConfig) (l : Listener) :
    Event → Listener
  | .worker ev                     =>
    { l with node := l.node.react wire (settings cfg l.announce.registry (clock ev)) ev }
  | .announcement now src datagram =>
    { l with announce := l.announce.receive acfg now src datagram }
  | .evict now                     => { l with announce := l.announce.evictTick now }

end Listener
end SubtreeGroup
