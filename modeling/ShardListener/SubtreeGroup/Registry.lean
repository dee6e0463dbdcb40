import ShardListener.Extensions.Dict
import ShardListener.Extensions.Run
import ShardListener.Objects.Basic

namespace SubtreeGroup

-- A `[16]byte`.
abbrev GroupID := BitVec 128

-- The memberships of the subscribed groups, with the time at which each expires.
structure Registry where
  subscribedGroups : List GroupID
  entries          : Dict GroupID (Dict Bytes32 Time)
  defaultTTL       : Duration

-- A call, with the clock reading of it.
inductive Op
  | add (groupID : GroupID) (subtreeID : Bytes32) (ttl : Duration)
  | remove (groupID : GroupID) (subtreeID : Bytes32)
  | evict
  | contains (subtreeID : Bytes32)

structure Call where
  now : Time
  op  : Op

namespace Registry

def new (subscribedGroups : List GroupID) (defaultTTL : Duration) : Registry where
  subscribedGroups := subscribedGroups
  entries          := subscribedGroups.foldl (fun m g => m.insert g ∅) ∅
  defaultTTL       := defaultTTL

-- The map of a subscribed group is there from the start.
def onGroup (r : Registry) (groupID : GroupID) (f : Dict Bytes32 Time → Dict Bytes32 Time) :
    Registry :=
  match r.entries.lookup groupID with
  | some subs => { r with entries := r.entries.insert groupID (f subs) }
  | none      => r

def lifetime (defaultTTL ttl : Duration) : Duration :=
  if ttl ≤ 0 then defaultTTL else ttl

def add (now : Time) (r : Registry) (groupID : GroupID) (subtreeID : Bytes32) (ttl : Duration) :
    Registry :=
  if groupID ∉ r.subscribedGroups then r
  else r.onGroup groupID (·.insert subtreeID (now + lifetime r.defaultTTL ttl))

def remove (r : Registry) (groupID : GroupID) (subtreeID : Bytes32) : Registry :=
  if groupID ∉ r.subscribedGroups then r
  else r.onGroup groupID (·.erase subtreeID)

def contains (now : Time) (r : Registry) (subtreeID : Bytes32) : Bool :=
  r.entries.entries.any fun e => (e.2.lookup subtreeID).any (now < ·)

-- The second component is the number of entries removed.
def evict (now : Time) (r : Registry) : Registry × Nat :=
  ({ r with
      entries := r.entries.mapEntries fun _ subs =>
        subs.filterEntries fun _ expiry => ¬expiry < now },
    r.entries.sumBy fun _ subs => subs.entries.countP (·.2 < now))

def step (r : Registry) (c : Call) : Registry :=
  match c.op with
  | .add g s ttl => r.add c.now g s ttl
  | .remove g s  => r.remove g s
  | .evict       => (r.evict c.now).1
  | .contains _  => r

end Registry
end SubtreeGroup
