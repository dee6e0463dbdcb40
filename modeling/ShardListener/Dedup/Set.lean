import ShardListener.Extensions.Dict
import ShardListener.Objects.Basic

-- The duplicate suppression of the egress.
namespace Dedup

structure Key where
  groupIdx  : GroupIdx
  subtreeID : Bytes32
  seqNum    : SeqNum
deriving DecidableEq

-- The zero value of a ring slot.
def Key.zero : Key where
  groupIdx  := 0
  subtreeID := .zero
  seqNum    := 0

-- A map of remembered keys to their expiry, and a ring of the keys in the order of insertion.
structure Set where
  capacity : Nat
  ttl      : Duration
  entries  : Dict Key Time := ∅
  ring     : List Key
  head     : Nat := 0
  count    : Nat := 0

namespace Set

def new (capacity : Int) (ttl : Duration) : Set :=
  if capacity ≤ 0 then { capacity := 0, ttl := 0, ring := [] }
  else
    { capacity := capacity.toNat
      ttl      := ttl
      ring     := List.replicate capacity.toNat Key.zero }

-- The sum is an `int64`.
def expiry (s : Set) (now : Time) : Time :=
  if 0 < s.ttl then toInt64 (now + s.ttl) else now

-- Whether the key is remembered and not expired.
def seen (s : Set) (now : Time) (key : Key) : Bool :=
  match s.entries.lookup key with
  | none     => false
  | some exp => s.ttl ≤ 0 ∨ now ≤ exp

-- Inserts the key in place of the oldest one if the ring is full.
def add (s : Set) (now : Time) (key : Key) : Set :=
  let s :=
    if s.count = s.capacity then
      { s with entries := s.entries.erase (s.ring[s.head]?.getD Key.zero) }
    else { s with count := s.count + 1 }
  { s with
    ring    := s.ring.set s.head key
    head    := (s.head + 1) % s.capacity
    entries := s.entries.insert key (s.expiry now) }

def seenAndAdd (s : Set) (now : Time) (key : Key) : Bool × Set :=
  if s.capacity = 0 then (false, s)
  else if s.seen now key then (true, { s with entries := s.entries.insert key (s.expiry now) })
  else (false, s.add now key)

def len (s : Set) : Nat :=
  s.count

end Set
end Dedup
