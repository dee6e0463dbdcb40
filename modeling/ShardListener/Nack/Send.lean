import ShardListener.Nack.System
import ShardListener.Nack.Wire

namespace Nack

def respFlagMulticastSent : UInt8 :=
  0x01

def respFlagUnicastSent : UInt8 :=
  0x02

-- The smallest datagram that is taken for a unicast data retransmit.
def minRetransmitFrame : Nat :=
  64

-- How much longer the socket is drained for the data after a unicast-flagged ACK.
def unicastDrainWindow : Duration :=
  Time.ms 80

-- The test for a data frame: size and magic.
def isRetransmit (raw : Bytes) : Prop :=
  minRetransmitFrame ≤ raw.length ∧ BigEndian.value (raw.take 4) = nackMagic

instance : DecidablePred isRetransmit :=
  fun _ => inferInstanceAs (Decidable (_ ∧ _))

-- What becomes of the NACK before an answer can come. `sent` has the time of the send; the number
-- of endpoints is that of the registry's snapshot.
inductive Dispatch
  | noEndpoint
  | resolveError
  | listenError
  | sendError (numEndpoints : Nat)
  | sent (now : Time) (numEndpoints : Nat)

-- The re-injection callbacks: one for each worker that has registered, by its id, and a global one.
structure Callbacks (β : Type) where
  recovers  : List (Option β) := []
  recoverFn : Option β := none

namespace Callbacks

variable {β : Type}

-- The table grows up to the id.
def registerRecover (c : Callbacks β) (id : Int) (f : β) : Callbacks β :=
  if id < 0 then c
  else
    let grown := c.recovers ++ List.replicate (id.toNat + 1 - c.recovers.length) none
    { c with recovers := grown.set id.toNat (some f) }

-- The callback of the worker that owns the gap, and the global one if it has none.
def recoverFor (c : Callbacks β) (e : GapEntry) : Option β :=
  let own :=
    if 0 ≤ e.owner ∧ e.owner < c.recovers.length then c.recovers[e.owner.toNat]?.join else none
  own.or c.recoverFn

-- As `main` registers them: the workers `id`, `id + 1` and so on, in turn.
def registerWorkers (c : Callbacks β) (id : Nat) : List β → Callbacks β
  | []      => c
  | f :: fs => (c.registerRecover id f).registerWorkers (id + 1) fs

end Callbacks

variable {σ : Type}

-- The loop over the datagrams that arrive on the NACK socket, with their times. `reinject` is the
-- callback of the worker that owns the gap, over the state `σ` of that worker.
def drain (reinject : Option (Bytes → σ → Bool × σ)) (e : GapEntry) (numEndpoints : Nat)
    (deadline : Time) (unicastACK : Bool) (w : σ) : List (Time × Bytes) → Completion × σ
  | []                => (if unicastACK then .advance true numEndpoints else .advance false 0, w)
  | (now, raw) :: ds =>
    if deadline < now then
      (if unicastACK then .advance true numEndpoints else .advance false 0, w)
    else match reinject, decide (isRetransmit raw) with
      | some recover, true =>
        let r := recover raw w
        (if r.1 then .cancel else .abandon .rejected, r.2)
      | _, _ =>
        match decodeResponse raw with
        | none      => drain reinject e numEndpoints deadline unicastACK w ds
        | some resp =>
          if resp.msgType = MsgType.ack then
            if resp.flags &&& respFlagUnicastSent ≠ 0 ∧ reinject.isSome then
              drain reinject e numEndpoints (now + unicastDrainWindow) true w ds
            else if resp.flags &&& respFlagUnicastSent ≠ 0 ∧
                resp.flags &&& respFlagMulticastSent = 0 then
              (.abandon .noRecover, w)
            else (.cancel, w)
          else if resp.msgType = MsgType.miss then
            (if e.speculative then .probeMiss else .advance true numEndpoints, w)
          else (.throttle resp.flags, w)

-- How `sendNACK` ends for the entry copy `e`.
def sendNACK (reinject : Option (Bytes → σ → Bool × σ)) (e : GapEntry) (ds : List (Time × Bytes))
    (w : σ) : Dispatch → Completion × σ
  | .noEndpoint   => (.lost, w)
  | .resolveError => (.advance false 0, w)
  | .listenError  => (.advance false 0, w)
  | .sendError n  => (.advance false n, w)
  | .sent now n   => drain reinject e n (now + respTimeout) false w ds

end Nack
