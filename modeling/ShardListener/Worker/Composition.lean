import ShardListener.Extensions.Goroutine
import ShardListener.Worker.Receive
import ShardListener.Worker.RetryTee

-- The goroutines of a listener and what they do with the mutexes and the channels they share: the
-- loops of the workers, their reassembly buffers, and the tracker. Sinks, the claim store, the
-- registry and the recorder return and are left out.
namespace Wiring

inductive Mutex
  | procMu (w : Nat)
  | bufferMu (w : Nat)
  | trackerMu
  | dedupMu (w : Nat)
  | teeMu (w : Nat)
deriving DecidableEq

inductive Channel
  | queue (w : Nat)
  | done (w : Nat)
  | teeQueue (w : Nat)
  | teeDone (w : Nat)
  | nackQueue
  | sem
deriving DecidableEq

abbrev Body := Prog Mutex Channel

open Prog

namespace Tracker

-- A method that does all of its work under `t.mu`.
def underMu : Body := locked .trackerMu skip

def observeFrom : Body := opt underMu

def pending : Body := underMu

def recoverFor : Body := underMu

def cancelGap : Body := underMu

def abandonGap : Body := underMu

def advanceEndpoint : Body := underMu

def throttleGap : Body := underMu

def probeMissed : Body := underMu

-- The gaps are queued after the lock was given back.
def requestGapsFrom : Body :=
  opt (seq (act (.lock .trackerMu)) (either (act (.unlock .trackerMu))
    (seq (act (.unlock .trackerMu)) (loop (act (.trySend .nackQueue))))))

def maybeProbeTail : Body := opt (act (.trySend .nackQueue))

def sweepOnce : Body :=
  locked .trackerMu (loop (seq (loop (opt (act (.trySend .nackQueue)))) (opt maybeProbeTail)))

def gcLoop : Body := loop (seq (act .pause) (opt sweepOnce))

end Tracker

namespace Worker

open Wiring.Tracker

def seenAndAdd (w : Nat) : Body := opt (locked (.dedupMu w) skip)

-- The gates of a frame that may be forwarded: the claim, then the set of the frames that were
-- forwarded.
def gated (w : Nat) : Body :=
  either (opt observeFrom) (seq (opt (seenAndAdd w)) (opt observeFrom))

def processBlockFrame : Body := opt observeFrom

def processSubtreeDataFrame : Body := opt observeFrom

def processAnchorFrame : Body := opt observeFrom

def deliverBundle (w : Nat) : Body := opt (gated w)

def processBundle (w : Nat) : Body :=
  opt (either (seq (loop (deliverBundle w)) (opt observeFrom)) (deliverBundle w))

def deliverBeef (w : Nat) : Body := opt (gated w)

def processBeefFrame (w : Nat) : Body := opt (deliverBeef w)

def deliverReassembled : Body := opt observeFrom

def deliverReassembledBlock : Body := opt observeFrom

def deliverReassembledSubtreeData : Body := opt observeFrom

def deliverReassembledBeefFrame (w : Nat) : Body := opt (deliverBeef w)

end Worker

namespace Buffer

open Wiring.Tracker Wiring.Worker

-- The hook that `main` wires to the tracker.
def onIncomplete : Body := opt requestGapsFrom

def notifyIncomplete : Body := opt onIncomplete

def holdForRepair : Body := opt (seq (opt onIncomplete) pending)

def evictExpired : Body := loop (opt (either notifyIncomplete holdForRepair))

-- The callbacks run under the lock of the buffer.
def complete (w : Nat) : Body :=
  pick fun
    | 0 => deliverReassembled
    | 1 => deliverReassembledBlock
    | 2 => deliverReassembledSubtreeData
    | 3 => deliverReassembledBeefFrame w
    | _ => skip

def observe (w : Nat) : Body := locked (.bufferMu w) (seq (opt evictExpired) (opt (complete w)))

def tick (w : Nat) : Body := locked (.bufferMu w) evictExpired

end Buffer

namespace Worker

open Wiring.Tracker

def processFrame (w : Nat) : Body :=
  pick fun
    | 0 => processBlockFrame
    | 1 => processSubtreeDataFrame
    | 2 => processAnchorFrame
    | 3 => opt (seq (Buffer.observe w) (opt observeFrom))
    | 4 => processBundle w
    | 5 => processBeefFrame w
    | _ => opt (gated w)

def mirror (w : Nat) : Body := locked (.teeMu w) (opt (act (.trySend (.teeQueue w))))

def handleDatagram (w : Nat) : Body :=
  opt (seq (opt (mirror w)) (locked (.procMu w) (processFrame w)))

def reinject (w : Nat) : Body := locked (.procMu w) (processFrame w)

end Worker

namespace Tracker

-- A recovered frame goes to the worker that owns the flow, one of `n`.
def reinject (n : Nat) : Body := pick fun w => if w < n then Worker.reinject w else skip

-- How the answers of a retry endpoint end a NACK: none, a frame, an ACK, a MISS or THROTTLED.
def conclude (n : Nat) : Body :=
  pick fun
    | 0 => advanceEndpoint
    | 1 => seq (reinject n) (either abandonGap cancelGap)
    | 2 => cancelGap
    | 3 => abandonGap
    | 4 => probeMissed
    | 5 => throttleGap
    | _ => skip

def sendNACK (n : Nat) : Body :=
  opt (either advanceEndpoint (seq recoverFor (seq (loop (act .pause)) (conclude n))))

def dispatchLoop (n : Nat) : Body :=
  loop (recvOr .nackQueue (sendOr .sem (spawn (seq (sendNACK n) (act (.recv .sem))))))

end Tracker

-- A deployment: the number of workers, and for each the length of its receive queue and whether it
-- has a tee.
structure Config where
  workers   : Nat
  recvQueue : Nat → Nat
  tee       : Nat → Bool

inductive Role
  | receiver (w : Nat)
  | processor (w : Nat)
  | ticker (w : Nat)
  | teeSender (w : Nat)
  | sweeper
  | dispatcher
  | nack
deriving DecidableEq

namespace Config

variable (cfg : Config)

def roles : List Role :=
  (List.range cfg.workers).flatMap
    (fun w => [.receiver w, .processor w, .ticker w, .teeSender w]) ++ [.sweeper, .dispatcher]

-- The goroutines that are started later send NACKs.
def role (i : Nat) : Role :=
  cfg.roles[i]?.getD .nack

-- The `close` of the tee that `serve` defers.
def closeTee (w : Nat) : Code Mutex Channel :=
  if cfg.tee w then
    [act (.lock (.teeMu w)), act (.close (.teeQueue w)), act (.unlock (.teeMu w)),
      act (.recv (.teeDone w))]
  else
    []

def handleBatch (w : Nat) : Body := loop (opt (Worker.handleDatagram w))

def fillBatch (w : Nat) : Body := loop (opt (act (.tryRecv (.teeQueue w))))

def code : Role → Code Mutex Channel
  | .receiver w =>
    if 0 < cfg.recvQueue w then
      loop (seq (act .pause) (opt (act (.send (.queue w))))) :: act (.close (.queue w)) ::
        act (.recv (.done w)) ::
        cfg.closeTee w
    else
      loop (seq (act .pause) (opt (Worker.handleDatagram w))) :: cfg.closeTee w
  | .processor w =>
    if 0 < cfg.recvQueue w then [range (.queue w) (handleBatch w), act (.close (.done w))] else []
  | .ticker w    => [loop (seq (act .pause) (opt (Buffer.tick w)))]
  | .teeSender w =>
    if cfg.tee w then [range (.teeQueue w) (fillBatch w), act (.close (.teeDone w))] else []
  | .sweeper     => [Tracker.gcLoop]
  | .dispatcher  => [Tracker.dispatchLoop cfg.workers]
  | .nack        => []

def cap : Channel → Nat
  | .queue w    => (cfg.recvQueue w + Receive.recvBatchSize - 1) / Receive.recvBatchSize
  | .done _     => 0
  | .teeQueue _ => RetryTee.teeQueueDepth
  | .teeDone _  => 0
  | .nackQueue  => 4096
  | .sem        => 64

def start : Goroutines Mutex Channel where
  threads := cfg.roles.map cfg.code
  shared  := { chan := fun c => { cap := cfg.cap c } }

end Config
end Wiring
