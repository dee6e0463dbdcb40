import ShardListener.Objects.Basic

-- The two receive loops of a worker: `serve` reads a datagram and handles it, `recvPipelined` reads
-- batches into buffers from a pool and hands them to a goroutine that handles them.
namespace Receive

def recvBatchSize : Nat := 32

def maxDatagram : Nat := 65535

def recvBufSize : Nat := 4 * 1024 * 1024

def afInet6 : Nat := 10

-- An address as the kernel writes it. The port is in network byte order.
structure RawSockaddrInet6 where
  family  : Nat           := 0
  port    : UInt8 × UInt8 := (0, 0)
  addr    : Bytes         := []
  scopeID : Nat           := 0

structure SockaddrInet6 where
  port   : Nat
  zoneID : Nat
  addr   : Bytes

namespace RawSockaddrInet6

-- The port field as a number, on a little-endian host.
def port16 (raw : RawSockaddrInet6) : Nat :=
  raw.port.1.toNat + 256 * raw.port.2.toNat

-- `recvBatch.sockaddr`.
def sockaddr (raw : RawSockaddrInet6) : Option SockaddrInet6 :=
  if raw.family ≠ afInet6 then
    none
  else
    some {
      port   := raw.port16 >>> 8 ||| (raw.port16 &&& 0xff) <<< 8
      zoneID := raw.scopeID
      addr   := raw.addr }

-- What `unix.Recvfrom` makes of an address of the family AF_INET6.
def anyToSockaddr (raw : RawSockaddrInet6) : Option SockaddrInet6 :=
  some {
    port   := raw.port.1.toNat <<< 8 + raw.port.2.toNat
    zoneID := raw.scopeID
    addr   := raw.addr }

end RawSockaddrInet6

-- A datagram on the socket, which is of the family AF_INET6 and has no jumbograms.
structure Datagram where
  bytes : Bytes
  name  : RawSockaddrInet6
  fits  : bytes.length ≤ maxDatagram
  inet6 : name.family = afInet6

-- EWOULDBLOCK is EAGAIN.
inductive Errno
  | eagain
  | ebadf
  | einval
  | eintr
  | other (n : Nat)

-- Whether a loop returns on an error; `cancelled` is what its context says.
def returns : Errno → Bool → Bool
  | .eagain,  cancelled => cancelled
  | .ebadf,   _         => true
  | .einval,  _         => true
  | .eintr,   _         => false
  | .other _, cancelled => cancelled

-- What the kernel leaves in a buffer: a datagram that does not fit is cut off, and what was there
-- before stays behind the datagram.
def copyInto (buf bytes : Bytes) : Bytes :=
  bytes.take buf.length ++ buf.drop bytes.length

-- The arguments of a call of `handleDatagram`.
abbrev Handled := Bytes × Option SockaddrInet6

-- What `unix.Recvfrom` can return.
inductive Recvfrom
  | data (d : Datagram)
  | error (err : Errno) (cancelled : Bool)

-- The inline loop, from a buffer and what the kernel returns: the calls of `handleDatagram`.
def serve (buf : Bytes) : List Recvfrom → List Handled
  | []                           => []
  | .error err cancelled :: rest => if returns err cancelled then [] else serve buf rest
  | .data d :: rest              =>
    let n := min d.bytes.length buf.length
    let buf' := copyInto buf d.bytes
    if 0 < n then
      (buf'.take n, d.name.anyToSockaddr) :: serve buf' rest
    else
      serve buf' rest

-- What a `recvmmsg` can return.
inductive Outcome
  | batch (ds : List Datagram) (h : ds.length ≤ recvBatchSize)
  | error (err : Errno) (cancelled : Bool)

-- One place of a batch: a buffer, the address and the length that the kernel wrote.
structure Slot where
  buf  : Bytes := List.replicate maxDatagram 0
  name : RawSockaddrInet6 := {}
  len  : Nat := 0
  size : buf.length = maxDatagram := by exact List.length_replicate

def Slot.write (s : Slot) (d : Datagram) : Slot where
  buf  := copyInto s.buf d.bytes
  name := d.name
  len  := min d.bytes.length s.buf.length
  size := by
    have := s.size
    simp only [copyInto, List.length_append, List.length_take, List.length_drop]
    omega

structure RecvBatch where
  slots : Nat → Slot := fun _ => {}
  n     : Nat := 0
  le    : n ≤ recvBatchSize := by decide

namespace RecvBatch

def reset (b : RecvBatch) : RecvBatch :=
  { b with slots := fun i => { b.slots i with len := 0 } }

-- A `recvmmsg` that returns datagrams.
def fill (b : RecvBatch) (ds : List Datagram) (h : ds.length ≤ recvBatchSize) : RecvBatch where
  slots i := ds[i]?.elim (b.slots i) (b.slots i).write
  n       := ds.length
  le      := h

end RecvBatch

-- Where the goroutine that reads is, and the batch it has.
inductive Reader
  | getting
  | resetting (b : Nat)
  | calling (b : Nat)
  | putting (b : Nat) (stop : Bool)
  | sending (b : Nat)
  | closing
  | joining
  | returned

-- Where the goroutine that handles the datagrams is, with the batch and the index of its inner
-- loop.
inductive Processor
  | receiving
  | handling (b i : Nat)
  | putting (b : Nat)
  | finished

def Processor.isReceiving : Processor → Bool
  | .receiving => true
  | _          => false

-- Batches are named by their place in `heap`. `kernel` is what the calls of `recvmmsg` are going to
-- return.
structure Pipeline where
  kernel    : List Outcome
  cap       : Nat
  heap      : Nat → RecvBatch := fun _ => {}
  fresh     : Nat             := 0
  pool      : List Nat        := []
  queue     : List Nat        := []
  qClosed   : Bool            := false
  done      : Bool            := false
  reader    : Reader          := .getting
  processor : Processor       := .receiving
  handled   : List Handled    := []

namespace Pipeline

def new (recvQueue : Nat) (kernel : List Outcome) : Pipeline where
  kernel := kernel
  cap    := (recvQueue + recvBatchSize - 1) / recvBatchSize

def setBatch (s : Pipeline) (b : Nat) (batch : RecvBatch) : Pipeline :=
  { s with heap := Function.update s.heap b batch }

-- A send does not block if the channel has room. On a channel without a buffer a receiver has to
-- wait for it.
def room (s : Pipeline) : Bool :=
  s.queue.length < s.cap || (s.queue.isEmpty && s.processor.isReceiving)

-- A step of the goroutine of `recvPipelined`. The pool gives the batch at the index `k`, or a new
-- one.
def read (s : Pipeline) (k : Nat) : Pipeline :=
  match s.reader with
  | .getting =>
    match s.pool[k]? with
    | some b => { s with pool := s.pool.eraseIdx k, reader := .resetting b }
    | none   => { s.setBatch s.fresh {} with fresh := s.fresh + 1, reader := .resetting s.fresh }
  | .resetting b => { s.setBatch b (s.heap b).reset with reader := .calling b }
  | .calling b =>
    match s.kernel with
    | []                         => s
    | .error err cancelled :: os =>
      { s with kernel := os, reader := .putting b (returns err cancelled) }
    | .batch ds h :: os          =>
      { s.setBatch b ((s.heap b).fill ds h) with
        kernel := os
        reader := if ds.length = 0 then .putting b false else .sending b }
  | .putting b stop =>
    { s with pool := s.pool ++ [b], reader := if stop then .closing else .getting }
  | .sending b      => if s.room then { s with queue := s.queue ++ [b], reader := .getting } else s
  | .closing        => { s with qClosed := true, reader := .joining }
  | .joining        => if s.done then { s with reader := .returned } else s
  | .returned       => s

def handleDatagram (s : Pipeline) (slot : Slot) : Pipeline :=
  if 0 < slot.len then
    { s with handled := s.handled ++ [(slot.buf.take slot.len, slot.name.sockaddr)] }
  else
    s

-- A step of the goroutine that handles the datagrams.
def process (s : Pipeline) : Pipeline :=
  match s.processor with
  | .receiving =>
    match s.queue with
    | b :: queue => { s with queue := queue, processor := .handling b 0 }
    | []         => if s.qClosed then { s with done := true, processor := .finished } else s
  | .handling b i =>
    if i < (s.heap b).n then
      { s.handleDatagram ((s.heap b).slots i) with processor := .handling b (i + 1) }
    else
      { s with processor := .putting b }
  | .putting b => { s with pool := s.pool ++ [b], processor := .receiving }
  | .finished  => s

-- A step of one of the goroutines, or the garbage collector takes a batch out of the pool.
inductive Action
  | read (k : Nat)
  | process
  | collect (k : Nat)

def step (s : Pipeline) : Action → Pipeline
  | .read k    => s.read k
  | .process   => s.process
  | .collect k => { s with pool := s.pool.eraseIdx k }

end Pipeline
end Receive
