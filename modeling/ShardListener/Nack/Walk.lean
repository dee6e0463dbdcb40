import ShardListener.Nack.Send

namespace Nack

-- How a NACK that was sent ends if the frame does not come: the endpoint does not have it, there is
-- no answer, or there is an ACK for a unicast that does not arrive.
inductive Outcome
  | miss | timeout | unicastACK
deriving DecidableEq

def Outcome.completion (numEndpoints : Nat) (e : GapEntry) : Outcome → Completion
  | miss       => if e.speculative then .probeMiss else .advance true numEndpoints
  | timeout    => .advance false 0
  | unicastACK => .advance true numEndpoints

-- The endpoint of the snapshot that `sendNACK` takes for an entry copy: the last one, once all are
-- through.
def GapEntry.snapshotIdx (numEndpoints : Nat) (e : GapEntry) : Nat :=
  if numEndpoints ≤ e.endpointIdx then numEndpoints - 1 else e.endpointIdx

inductive Move
  | observe (i : Instant) (a : Arrival)
  | request (i : Instant) (room : Nat) (q : Request)
  | sweep (now : Time) (room : HashKey → SeqNum → Bool)
  | send (e : GapEntry)
  | outcome (i : Instant) (e : GapEntry) (o : Outcome)

-- The tracker with the NACKs that it has sent, under a fixed registry snapshot. The copies in
-- `sending` are those that wait for an answer; the ones that wait to be sent are in flight in the
-- tracker.
structure Walk where
  tracker : Tracker := .new
  sending : List GapEntry := []
  sent    : List (HashKey × SeqNum × Nat) := []

namespace Walk

-- Without an endpoint nothing is sent, and the copy is gone.
def send (numEndpoints : Nat) (w : Walk) (e : GapEntry) : Walk :=
  let tracker := { w.tracker with inFlight := w.tracker.inFlight.erase e }
  if numEndpoints = 0 then { w with tracker := tracker }
  else
    { tracker := tracker
      sending := w.sending ++ [e]
      sent    := w.sent ++ [(e.hashKey, e.seqNum, e.snapshotIdx numEndpoints)] }

def step (cfg : Config) (numEndpoints : Nat) (w : Walk) : Move → Walk
  | .observe i a      => { w with tracker := w.tracker.observeFrom cfg i a }
  | .request i room q => { w with tracker := w.tracker.requestGapsFrom cfg i room q }
  | .sweep now room   => { w with tracker := w.tracker.sweepOnce cfg now room }
  | .send e           => w.send numEndpoints e
  | .outcome i e o    =>
    { w with
      tracker := w.tracker.complete cfg i e (o.completion numEndpoints e)
      sending := w.sending.erase e }

-- A copy is sent once it is queued, and answered once it is sent.
def Enabled (w : Walk) : Move → Prop
  | .send e        => e ∈ w.tracker.inFlight
  | .outcome _ e _ => e ∈ w.sending
  | _              => True

instance {w : Walk} : DecidablePred w.Enabled
  | .send e        => inferInstanceAs (Decidable (e ∈ _))
  | .outcome _ e _ => inferInstanceAs (Decidable (e ∈ _))
  | .observe ..    => .isTrue trivial
  | .request ..    => .isTrue trivial
  | .sweep ..      => .isTrue trivial

end Walk

-- Every end of `sendNACK` after which the entry moves on is one of these outcomes.
theorem drain_advance {σ : Type} {reinject : Option (Bytes → σ → Bool × σ)} {e : GapEntry}
    {n m : Nat} {deadline : Time} {ack imm : Bool} {w : σ} {ds : List (Time × Bytes)}
    (h : (drain reinject e n deadline ack w ds).1 = .advance imm m) :
    ∃ o : Outcome, o.completion n e = .advance imm m := by
  have hend {ack : Bool}
      (h : (if ack then Completion.advance true n else .advance false 0) = .advance imm m) :
      ∃ o : Outcome, o.completion n e = .advance imm m := by
    cases ack
    case true  => exact ⟨.unicastACK, h⟩
    case false => exact ⟨.timeout, h⟩
  induction ds generalizing deadline ack w
  case nil => exact hend h
  case cons d ds hi =>
    simp only [drain] at h
    split at h
    case isTrue => exact hend h
    case isFalse =>
      split at h
      case h_1 =>
        -- The frame has come.
        dsimp only at h
        split at h <;> cases h
      case h_2 =>
        split at h
        case h_1 => exact hi h
        case h_2 =>
          split at h
          case isTrue =>
            split at h
            case isTrue => exact hi h
            case isFalse =>
              split at h <;> cases h
          case isFalse =>
            split at h
            case isTrue  => exact ⟨.miss, h⟩
            case isFalse => cases h

end Nack
