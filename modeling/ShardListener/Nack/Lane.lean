import ShardListener.Nack.System

-- The tracker as one machine for each flow.
namespace Nack

-- What belongs to one flow: its state, if it is tracked, and the copies of its gaps that are in
-- flight.
structure Lane where
  flow     : Option FlowState := none
  inFlight : List GapEntry := []

-- What the end of a NACK does to the flow.
def Completion.effect (cfg : Config) (i : Instant) (recorded : Bool) (e : GapEntry)
    (fs : FlowState) :
    Completion → Effect
  | cancel                => fs.cancelGap recorded e
  | abandon reason        => fs.abandonGap i.now e reason
  | advance immediate num => fs.advanceEndpoint cfg i e immediate num
  | throttle flags        => fs.throttleGap cfg i e flags
  | probeMiss             => fs.probeMissed e
  | lost                  => { flow := fs }

-- The operation acts on the flow. The sweep acts on all flows.
def Op.Concerns (hk : HashKey) : Op → Prop
  | observe _ a    => a.hashKey = hk
  | request _ _ q  => q.hashKey = hk
  | fill hashKey _ => hashKey = hk
  | sweep ..       => True
  | complete _ e _ => e.hashKey = hk

instance {hk : HashKey} : DecidablePred (Op.Concerns hk)
  | .observe ..  => inferInstanceAs (Decidable (_ = _))
  | .request ..  => inferInstanceAs (Decidable (_ = _))
  | .fill ..     => inferInstanceAs (Decidable (_ = _))
  | .sweep ..    => .isTrue trivial
  | .complete .. => inferInstanceAs (Decidable (_ = _))

-- What a flow sees of an operation: all of it, if it acts on the flow. Of a sweep it sees the time,
-- and which copies of its own gaps the NACK queue takes.
def Op.part (hk : HashKey) : Op → Option Op
  | sweep now room => some (.sweep now fun _ => room hk)
  | op             => if op.Concerns hk then some op else none

namespace Lane

def put (l : Lane) (r : Effect) : Lane where
  flow     := some r.flow
  inFlight := l.inFlight ++ r.queued

variable (cfg : Config) (recorded : Bool) (hk : HashKey)

-- An operation on a flow that there is always room for.
def act (l : Lane) : Op → Lane
  | .observe i a      =>
    if a.seqNum = 0 then l
    else l.put ((l.flow.getD (.new a.groupIdx a.subtreeID)).observe cfg i recorded a)
  | .request i room q =>
    if q.seqs = [] then l
    else
      let fs := l.flow.getD { FlowState.new q.groupIdx q.subtreeID with lastSeen := i.now }
      l.put (fs.request cfg i room q)
  | .fill _ seqNum    =>
    if seqNum = 0 then l
    else match l.flow with
      | none    => l
      | some fs => l.put (fs.fill recorded seqNum)
  | .sweep now room   =>
    match l.flow with
    | none    => l
    | some fs =>
      let r := fs.sweep cfg hk now (room hk)
      { flow     := if r.flow.idle cfg now then none else some r.flow
        inFlight := l.inFlight ++ r.queued }
  | .complete i e c   =>
    { flow     := l.flow.map fun fs => (c.effect cfg i recorded e fs).flow
      inFlight := l.inFlight.erase e }

def step (l : Lane) (op : Op) : Lane :=
  if op.Concerns hk then l.act cfg recorded hk op else l

end Lane

-- The part of the tracker that belongs to a flow.
def Tracker.lane (t : Tracker) (hk : HashKey) : Lane where
  flow     := t.flows.lookup hk
  inFlight := t.inFlight.filter (·.hashKey = hk)

end Nack
