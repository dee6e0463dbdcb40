import ShardListener.Extensions.Threads

-- The tee that mirrors received datagrams to the cache of a retry endpoint on the same node. Its
-- calls come from any number of goroutines; a call is named by its number, and a datagram by the
-- `mirror` call that brought it. The pooled copies of the bytes and the latches for the two log
-- lines are left out.
namespace RetryTee

def teeQueueDepth : Nat := 4096

def teeBatch : Nat := 32

-- The counters of the recorder.
structure Counters where
  frames  : Nat := 0
  errors  : Nat := 0
  dropped : Nat := 0

-- `run` can be on a goroutine of its own, which `start` launches, or on that of a `close`.
inductive Goroutine
  | sender
  | closer
deriving DecidableEq

-- Where an execution of `run` is: not begun, at the receive of its loop, filling a batch, in
-- `writeBatch` with the datagrams from `sent` on, or returned.
inductive Runner
  | off
  | receiving
  | filling (batch : List Nat)
  | writing (rest : List Nat)
  | finished
deriving DecidableEq

-- The datagrams that the execution has taken from the queue, and has neither written nor given up.
def Runner.taken : Runner → List Nat
  | .filling batch => batch
  | .writing rest  => rest
  | _              => []

-- What a `WriteBatch` of `len` messages returns.
structure WriteResult (len : Nat) where
  n   : Int
  err : Bool
  le  : n ≤ len

abbrev Conn := (len : Nat) → WriteResult len

structure Shared where
  recorder   : Option Counters
  mu         : Option Nat          := none  -- the call that holds it
  closed     : Bool                := false
  started    : Bool                := false
  q          : List Nat            := []
  qClosed    : Bool                := false
  done       : Bool                := false
  connClosed : Bool                := false
  dropped    : Nat                 := 0
  runner     : Goroutine → Runner  := fun _ => .off
  -- A send on a closed channel, or a second close of one.
  panicked   : Bool                := false
  -- The history: what was queued, written, given up on after a failed write, and dropped.
  queued     : List Nat            := []
  written    : List Nat            := []
  failed     : List Nat            := []
  refused    : List Nat            := []

namespace Shared

def setRunner (s : Shared) (g : Goroutine) (r : Runner) : Shared :=
  { s with runner := Function.update s.runner g r }

-- A send does not block if the channel has room. On a channel without a buffer a receiver has to
-- wait for it.
def room (depth : Nat) (s : Shared) : Bool :=
  s.q.length < depth ||
    (s.q.isEmpty && (s.runner .sender = .receiving || s.runner .closer = .receiving))

def enqueue (s : Shared) (m : Nat) : Shared :=
  { s with q := s.q ++ [m], queued := s.queued ++ [m] }

def closeQueue (s : Shared) : Shared :=
  { s with qClosed := true, panicked := s.panicked || s.qClosed }

def closeDone (s : Shared) : Shared :=
  { s with done := true, panicked := s.panicked || s.done }

def drop (s : Shared) (m : Nat) : Shared :=
  { s with
    dropped  := s.dropped + 1
    recorder := s.recorder.map fun c => { c with dropped := c.dropped + 1 }
    refused  := s.refused ++ [m] }

def writeFailed (s : Shared) (m : Nat) : Shared :=
  { s with
    recorder := s.recorder.map fun c => { c with errors := c.errors + 1 }
    failed   := s.failed ++ [m] }

def wrote (s : Shared) (batch : List Nat) (n : Nat) : Shared :=
  { s with
    recorder := s.recorder.map fun c => { c with frames := c.frames + n }
    written  := s.written ++ batch.take n }

-- One iteration of the loop of `writeBatch`.
def writeBatch (s : Shared) (g : Goroutine) (conn : Conn) : List Nat → Shared
  | []        => s.setRunner g .receiving
  | m :: rest =>
    let r := conn (rest.length + 1)
    if r.err || r.n ≤ 0 then
      (s.writeFailed m).setRunner g (.writing rest)
    else
      (s.wrote (m :: rest) r.n.toNat).setRunner g (.writing ((m :: rest).drop r.n.toNat))

-- A step of `run`. It changes nothing if the goroutine is blocked.
def run (s : Shared) (g : Goroutine) (conn : Conn) : Shared :=
  match s.runner g with
  | .off | .finished => s
  | .receiving =>
    match s.q with
    | m :: q => { s with q := q }.setRunner g (.filling [m])
    | []     => if s.qClosed then s.closeDone.setRunner g .finished else s
  | .filling batch =>
    match s.q with
    | m :: q =>
      if batch.length < teeBatch then
        { s with q := q }.setRunner g (.filling (batch ++ [m]))
      else
        s.setRunner g (.writing batch)
    | [] => s.setRunner g (.writing batch)
  | .writing rest => s.writeBatch g conn rest

end Shared

-- The places in the bodies of `mirror`, `close` and `start`, by what comes next.
inductive MirrorPoint
  | lock
  | check
  | send
  | unlock (queued : Bool)
  | drop
  | returned

-- The first `close` remembers whether the tee was started.
inductive ClosePoint
  | lock
  | check
  | closeQueue (started : Bool)
  | unlock (first : Option Bool)
  | await
  | drain
  | closeConn
  | returned (first : Bool)

inductive StartPoint
  | lock
  | check
  | unlock
  | returned

inductive Call
  | mirror (p : MirrorPoint)
  | close (p : ClosePoint)
  | start (p : StartPoint)

namespace Call

-- `mu.Lock()`, which blocks while another call holds the lock.
def lock (i : Nat) (c c' : Call) (s : Shared) : Call × Shared :=
  if s.mu = none then (c', { s with mu := some i }) else (c, s)

def mirrorNext (depth i : Nat) : MirrorPoint → Shared → Call × Shared
  | .lock,          s => lock i (.mirror .lock) (.mirror .check) s
  | .check,         s => (.mirror (if s.closed then .unlock false else .send), s)
  | .send,          s =>
    if s.qClosed then
      (.mirror .send, { s with panicked := true })
    else if s.room depth then
      (.mirror (.unlock true), s.enqueue i)
    else
      (.mirror (.unlock false), s)
  | .unlock queued, s => (.mirror (if queued then .returned else .drop), { s with mu := none })
  | .drop,          s => (.mirror .returned, s.drop i)
  | .returned,      s => (.mirror .returned, s)

def closeNext (i : Nat) : ClosePoint → Shared → Call × Shared
  | .lock,                s => lock i (.close .lock) (.close .check) s
  | .check,               s =>
    if s.closed then
      (.close (.unlock none), s)
    else
      (.close (.closeQueue s.started), { s with closed := true })
  | .closeQueue started,  s => (.close (.unlock (some started)), s.closeQueue)
  | .unlock none,         s => (.close (.returned false), { s with mu := none })
  | .unlock (some true),  s => (.close .await, { s with mu := none })
  | .unlock (some false), s => (.close .drain, { s with mu := none }.setRunner .closer .receiving)
  | .await,               s => (.close (if s.done then .closeConn else .await), s)
  | .drain,               s =>
    (.close (if s.runner .closer = .finished then .closeConn else .drain), s)
  | .closeConn,           s => (.close (.returned true), { s with connClosed := true })
  | .returned first,      s => (.close (.returned first), s)

def startNext (i : Nat) : StartPoint → Shared → Call × Shared
  | .lock,     s => lock i (.start .lock) (.start .check) s
  | .check,    s =>
    if s.started || s.closed then
      (.start .unlock, s)
    else
      (.start .unlock, { s with started := true }.setRunner .sender .receiving)
  | .unlock,   s => (.start .returned, { s with mu := none })
  | .returned, s => (.start .returned, s)

def next (depth i : Nat) : Call → Shared → Call × Shared
  | .mirror p => mirrorNext depth i p
  | .close p  => closeNext i p
  | .start p  => startNext i p

end Call

inductive Op
  | mirror
  | close
  | start

def Op.call : Op → Call
  | .mirror => .mirror .lock
  | .close  => .close .lock
  | .start  => .start .lock

-- What can happen next: a new call, a step of a call, or a step of `run` on one of its two
-- goroutines.
inductive Action
  | call (op : Op)
  | step (i : Nat)
  | run (g : Goroutine) (conn : Conn)

end RetryTee

abbrev RetryTee := Pool RetryTee.Call RetryTee.Shared

namespace RetryTee

-- `recorder` tells whether the tee counts.
def new (recorder : Bool) : RetryTee where
  threads := []
  shared  := { recorder := if recorder then some {} else none }

def step (depth : Nat) (t : RetryTee) : Action → RetryTee
  | .call op    => t.spawn op.call
  | .step i     => Pool.step (Call.next depth) t i
  | .run g conn => { t with shared := t.shared.run g conn }

end RetryTee
