import Mathlib.Tactic

-- Instants and durations are nanoseconds, as in Go's `time` package.
abbrev Time := Int

abbrev Duration := Int

namespace Time

def maxInt64 : Int :=
  2 ^ 63 - 1

def minInt64 : Int :=
  -2 ^ 63

-- The zero `time.Time` (year 1), counted from the Unix epoch.
def zero : Time :=
  -62135596800 * 10 ^ 9

-- `Time.Sub` saturates at the range of an `int64`.
def sub (t u : Time) : Duration :=
  max minInt64 (min maxInt64 (t - u))

def ms (n : Int) : Duration :=
  n * 10 ^ 6

end Time

-- The conversions `uint64(x)` and `int64(x)` wrap around.
def toUint64 (x : Int) : Nat :=
  (x % 2 ^ 64).toNat

def toInt64 (x : Int) : Int :=
  x.bmod (2 ^ 64)

abbrev Bytes := List UInt8

-- A `[32]byte`: transaction, content, subtree and topic identifiers.
structure Bytes32 where
  bytes : Bytes
  length_eq : bytes.length = 32
deriving DecidableEq

namespace Bytes32

-- The identifier all of whose bytes are `b`.
def fill (b : UInt8) : Bytes32 where
  bytes := List.replicate 32 b
  length_eq := List.length_replicate

def zero : Bytes32 :=
  fill 0

-- `copy(id[:], bs)` into a fresh identifier.
def copyOf (bs : Bytes) : Bytes32 where
  bytes := bs.take 32 ++ List.replicate (32 - bs.length) 0
  length_eq := by
    rw [List.length_append, List.length_take, List.length_replicate]
    omega

instance : Inhabited Bytes32 where
  default := zero

end Bytes32

-- The 64-bit and 32-bit unsigned header fields are natural numbers. Wrap-around is written out at
-- the places where the code can reach it.
abbrev SeqNum := Nat

abbrev HashKey := Nat

abbrev GroupIdx := Nat

-- A `net.IP` in its 16-byte form. A nil source is `none`.
abbrev IP := BitVec 128

-- The clock reading of one call, and the values `rand.Int64N` draws in it, by the SeqNum of the
-- entry the draw is for. A call that reads the clock more than once gets one reading.
structure Instant where
  now    : Time
  jitter : SeqNum → Duration
