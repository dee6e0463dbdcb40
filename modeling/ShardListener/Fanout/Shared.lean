import ShardListener.Extensions.Run
import ShardListener.Fanout.Theorems.Turns

namespace Fanout

open Worker (Egress)

variable {ρ ε : Type} (env : Env ρ ε) (headerSink : ρ → Bool)

-- The methods of the sink that the worker calls.
inductive Call
  | item (item : Item)
  | block (raw : Bytes) (f : BlockFrame)
  | subtreeData (raw : Bytes) (f : SubtreeDataFrame)
  | plain (buf : Bytes)
  | header (raw : Bytes)

-- What they return. `delivered` is the number that `SendHeaderN` reports.
structure Result (ε : Type) where
  err       : Option (SendError ε) := none
  delivered : Nat := 0

-- Calls on the sink of each consumer, for what is broadcast. A buffer is sent as on the header
-- egress.
namespace Sink

variable (s : Sink ρ ε)

def broadcast (k : Egress) : Sink ρ ε × Option ε :=
  let p := s.consumers.foldl (fun (p : Pass ρ ε) c => p.calls env c [k]) { sink := s }
  (p.sink, p.firstErr)

def sendBlock (raw : Bytes) (f : BlockFrame) : Sink ρ ε × Option ε :=
  s.broadcast env (.sendBlock raw f)

def sendSubtreeData (raw : Bytes) (f : SubtreeDataFrame) : Sink ρ ε × Option ε :=
  s.broadcast env (.sendSubtreeData raw f)

def sendRaw (buf : Bytes) : Sink ρ ε × Option ε :=
  s.broadcast env (.header .unicast buf)

end Sink

-- One turn of the loop of `SendHeaderN`. A sink without the method is not a failure, and one that
-- returns nil is counted.
def deliverHeader (raw : Bytes) (q : Pass ρ ε × Nat) (c : ρ) : Pass ρ ε × Nat :=
  if headerSink c then
    let k := .header .fanout raw
    (q.1.calls env c [k], if (env.reply q.1.sink.log [] c k).isNone then q.2 + 1 else q.2)
  else q

def Sink.sendHeaderN (s : Sink ρ ε) (raw : Bytes) : Sink ρ ε × Nat × Option ε :=
  let q := s.consumers.foldl (deliverHeader env headerSink raw) ({ sink := s }, 0)
  (q.1.sink, q.2, q.1.firstErr)

def Sink.perform (s : Sink ρ ε) : Call → Sink ρ ε × Result ε
  | .item item         => let r := s.deliver env item; (r.1, { err := r.2 })
  | .block raw f       => let r := s.sendBlock env raw f; (r.1, { err := r.2.map .sink })
  | .subtreeData raw f => let r := s.sendSubtreeData env raw f; (r.1, { err := r.2.map .sink })
  | .plain buf         => let r := s.sendRaw env buf; (r.1, { err := r.2.map .sink })
  | .header raw        =>
    let r := s.sendHeaderN env headerSink raw
    (r.1, { err := r.2.2.map .sink, delivered := r.2.1 })

-- A sink that a worker calls while other goroutines push tables. A method holds the read lock while
-- it takes the consumers that it goes through out of the table, and no longer; `Apply` builds the
-- new index before it takes the lock.

-- A method under way: the consumers that are left, and the variables of its loops.
structure Running (ρ ε : Type) where
  call      : Call
  rest      : List ρ
  firstErr  : Option ε := none
  members   : Option (List EncodedMember) := none
  delivered : Nat := 0

-- A call of `Apply` under way.
structure Applying (ρ : Type) where
  table : List ρ
  rest  : List ρ
  built : Dict GroupIdx (List ρ) × List ρ := (∅, [])

structure Shared (ρ ε : Type) where
  sink     : Sink ρ ε := {}
  running  : Option (Running ρ ε) := none
  applying : List (Applying ρ) := []
  returned : List (Call × Result ε) := []

-- What goes on, one action at a time: the worker enters a method with its critical section, or goes
-- on with it; a goroutine enters `Apply`, goes on with its loop, or replaces the table.
inductive Act (ρ : Type)
  | call (k : Call)
  | turn
  | apply (table : List ρ)
  | index (i : Nat)
  | swap (i : Nat)

-- The consumers that a method reads under the lock. Without a plane engine `SendBeef` does not get
-- so far.
def Sink.snapshot (s : Sink ρ ε) : Call → Option (List ρ)
  | .item item => (item.group env).map fun g => (s.byShard.lookup g).getD [] ++ s.allShards
  | _          => some s.consumers

-- A turn of the loops of a method.
def Call.turn (q : Pass ρ ε × Nat) (c : ρ) : Call → Pass ρ ε × Nat
  | .item x            => (((x.group env).map fun g => x.turn env g q.1 c).getD q.1, q.2)
  | .block raw f       => (q.1.calls env c [.sendBlock raw f], q.2)
  | .subtreeData raw f => (q.1.calls env c [.sendSubtreeData raw f], q.2)
  | .plain buf         => (q.1.calls env c [.header .unicast buf], q.2)
  | .header raw        => deliverHeader env headerSink raw q c

-- The critical section of `Apply`.
def Sink.publish (s : Sink ρ ε) (table : List ρ) (built : Dict GroupIdx (List ρ) × List ρ) :
    Sink ρ ε :=
  { s with consumers := table, byShard := built.1, allShards := built.2 }

namespace Shared

variable (s : Shared ρ ε)

def enter (k : Call) : Shared ρ ε :=
  match s.running, s.sink.snapshot env k with
  | some _, _       => s
  | none,   none    => { s with returned := s.returned ++ [(k, { err := some .beefEngineUnset })] }
  | none,   some cs => { s with running := some { call := k, rest := cs } }

def goOn : Shared ρ ε :=
  match s.running with
  | none   => s
  | some r =>
    match r.rest with
    | []        =>
      { s with
        running  := none
        returned := s.returned ++ [(r.call, ⟨r.firstErr.map .sink, r.delivered⟩)] }
    | c :: rest =>
      let q := r.call.turn env headerSink (⟨s.sink, r.firstErr, r.members⟩, r.delivered) c
      { s with
        sink    := q.1.sink
        running := some ⟨r.call, rest, q.1.firstErr, q.1.members, q.2⟩ }

-- One turn of the loop of `Apply`.
def buildOn (i : Nat) : Shared ρ ε :=
  match s.applying[i]? with
  | none   => s
  | some a =>
    match a.rest with
    | []        => s
    | c :: rest =>
      { s with applying := s.applying.set i { a with rest, built := index env a.built c } }

def swap (i : Nat) : Shared ρ ε :=
  match s.applying[i]? with
  | none   => s
  | some a =>
    match a.rest with
    | []     => { s with sink := s.sink.publish a.table a.built, applying := s.applying.eraseIdx i }
    | _ :: _ => s

def step : Act ρ → Shared ρ ε
  | .call k      => s.enter env k
  | .turn        => s.goOn env headerSink
  | .apply table => { s with applying := s.applying ++ [⟨table, table, (∅, [])⟩] }
  | .index i     => s.buildOn env i
  | .swap i      => s.swap i

end Shared
end Fanout
