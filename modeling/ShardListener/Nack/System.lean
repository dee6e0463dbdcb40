import ShardListener.Extensions.Run
import ShardListener.Nack.Operations

namespace Nack

-- How `sendNACK` ends for one entry copy. `lost` ends without a word to the tracker: no endpoint is
-- registered, or the response is of an unknown type.
inductive Completion
  | cancel
  | abandon (reason : AbandonReason)
  | advance (immediate : Bool) (numEndpoints : Nat)
  | throttle (flags : UInt8)
  | probeMiss
  | lost
deriving DecidableEq

-- `room` is the answer of the NACK queue: how many copies of a request it takes, and which ones of
-- a sweep. All flows share the queue, so what it answers to one depends on the others.
inductive Op
  | observe (i : Instant) (a : Arrival)
  | request (i : Instant) (room : Nat) (q : Request)
  | fill (hashKey : HashKey) (seqNum : SeqNum)
  | sweep (now : Time) (room : HashKey → SeqNum → Bool)
  | complete (i : Instant) (e : GapEntry) (c : Completion)

namespace Tracker

variable (cfg : Config)

-- The state `New` returns, with a recorder installed.
def new : Tracker := {}

def complete (i : Instant) (t : Tracker) (e : GapEntry) : Completion → Tracker
  | .cancel        => t.cancelGap e
  | .abandon r     => t.abandonGap i.now e r
  | .advance imm n => t.advanceEndpoint cfg i e imm n
  | .throttle fl   => t.throttleGap cfg i e fl
  | .probeMiss     => t.probeMissed e
  | .lost          => t

def step (t : Tracker) : Op → Tracker
  | .observe i a      => t.observeFrom cfg i a
  | .request i room q => t.requestGapsFrom cfg i room q
  | .fill hk s        => t.fill hk s
  | .sweep now room   => t.sweepOnce cfg now room
  | .complete i e c   => { t.complete cfg i e c with inFlight := t.inFlight.erase e }

-- A completion needs a copy in flight, and only a probe is answered by `probeMissed`.
def Enabled (t : Tracker) : Op → Prop
  | .complete _ e c => e ∈ t.inFlight ∧ (c = .probeMiss → e.speculative)
  | _               => True

instance {t : Tracker} : DecidablePred t.Enabled
  | .complete _ e c => inferInstanceAs (Decidable (e ∈ t.inFlight ∧ (c = .probeMiss → _)))
  | .observe ..     => .isTrue trivial
  | .request ..     => .isTrue trivial
  | .fill ..        => .isTrue trivial
  | .sweep ..       => .isTrue trivial

end Tracker
end Nack
