import ShardListener.Reassembly.Theorems.Identity
import ShardListener.TxDedup.Store
import ShardListener.Worker.Theorems.Emission

-- Listeners of several deployments that claim what they forward.

open Worker

-- The key that a whole frame is claimed under, once nothing has dropped it before the claim.
def Whole.claims (wire : Wire) (cfg : Settings) : Whole → Option Bytes32
  | tx f     => if f.version = FrameVer.v2 ∧ ¬Dropped wire cfg (tx f) then some f.txID else none
  | anchor f => some f.txID
  | beef f   =>
    if Denied wire cfg (beef f) then none else some (wire.pairKey f.contentID f.topicID)
  | _        => none

-- The same for what comes out of reassembly. A BEEF frame is encoded before it is claimed.
def Reassembly.Delivery.claims (wire : Wire) (cfg : Settings) : Reassembly.Delivery → Option Bytes32
  | tx f   => if Whole.Denied wire cfg (.tx f) then none else some f.txID
  | beef f =>
    if (wire.encodeBEEF f (Slot.whole wire.toFormats f.payload)).isSome then
      (Whole.beef f).claims wire cfg
    else none
  | _      => none

namespace Node

open Reassembly

variable (wire : Wire) (cfg : Settings)

-- What a fragment makes the buffer deliver.
def delivered (n : Node) (env : Env) (raw : Bytes) : Option Delivery :=
  match n.buffer, wire.decodeFragment raw with
  | some b, some ff =>
    let h := hooks wire cfg env n.worker.tracker.isSome
    let swept := (Buffer.sweepIfDue cfg.reassembly h env.instant (b, n.worker)).1
    (delivering wire.toFormats cfg.reassembly h env.instant swept ff).map fun s =>
      s.delivery (s.payload.getD s.assembled)
  | _, _            => none

-- The key that a worker claims for a frame, whole or put together from fragments.
def frameClaim (n : Node) (env : Env) (raw : Bytes) : Option Bytes32 :=
  if wire.kind raw = .fragment then (n.delivered wire cfg env raw).bind (Delivery.claims wire cfg)
  else (wire.whole raw).bind (Whole.claims wire cfg)

-- The keys that the bundles of an event are claimed under. Their members are not claimed.
def bundleClaims (n : Node) (ev : Event) : List Bytes32 :=
  (n.bundles wire cfg ev)
    |>.filter (fun b => cfg.filt.deny b.groupIdx (bundleProbe b) = none ∧ b.seqNum ≠ 0)
    |>.map bundleID

namespace Event

-- A sweep delivers nothing.
def frameClaim (n : Node) : Event → Option Bytes32
  | .datagram env raw => n.frameClaim wire cfg env raw
  | _                 => none

-- A transaction frame under the key that has been put together can be encoded. It is claimed
-- before.
def Reencodes (key : Bytes32) (n : Node) : Event → Prop
  | .datagram env raw => wire.kind raw = .fragment →
    ∀ f, n.delivered wire cfg env raw = some (.tx f) → f.txID = key → (wire.encode f).isSome
  | _                 => True

-- The answer of the store to a claim. Only datagrams lead to claims.
def answer (key : Bytes32) : Event → Claim
  | .datagram env _ => env.claim key
  | _               => .claimed

end Event
end Node

abbrev Cluster (ι : Type) := ι → Node

namespace Cluster

variable {ι : Type}

-- What happens: a listener handles an event, in which the answers to its claims are; or a mark for
-- the proxies is set. `clock` is the time at the store. The events of the listeners are interleaved
-- in any way, since they share nothing but the store.
inductive Act (ι : Type)
  | event (i : ι) (ev : Node.Event) (clock : Time)
  | mark (i : ι) (id : Bytes32) (clock : Time)

-- A call on a store of the library. A mark is not answered.
structure Call (ι : Type) where
  caller : ι
  space  : TxDedup.Keyspace
  id     : Bytes32
  clock  : Time
  answer : Option Claim

section

variable (wire : Wire) (cfg : ι → Settings) (store : ι → TxDedup.Store)

def step [DecidableEq ι] (c : Cluster ι) : Act ι → Cluster ι
  | .event i ev _ => Function.update c i ((c i).react wire (cfg i) ev)
  | .mark ..      => c

def calls (c : Cluster ι) : Act ι → List (Call ι)
  | .event i ev clock =>
    if (cfg i).txDedup then
      ((ev.frameClaim wire (cfg i) (c i)).toList ++
        (c i).bundleClaims wire (cfg i) ev).map fun id =>
          ⟨i, (store i).egress, id, clock, some (ev.answer id)⟩
    else []
  | .mark i id clock  => (store i).ingress.toList.map fun space => ⟨i, space, id, clock, none⟩

-- All calls of a run.
def log [DecidableEq ι] : Cluster ι → List (Act ι) → List (Call ι) :=
  Run.outputs (step wire cfg) (calls wire cfg store)

end

-- What can be asked of the store for one key, over the calls of a run.

-- It does not fail on the claims of the listeners in `D`.
def Reliable (D : ι → Prop) (key : Bytes32) (log : List (Call ι)) : Prop :=
  ∀ x ∈ log, D x.caller → x.id = key → x.answer ≠ some .error

-- Of two claims in one namespace that are granted, the second one comes when the first one has run
-- out.
def Exclusive (key : Bytes32) (log : List (Call ι)) : Prop :=
  log.Pairwise fun x y => x.space.head = y.space.head → x.id = key → y.id = key →
    x.answer = some .claimed → y.answer = some .claimed → x.clock + x.space.ttl ≤ y.clock

-- A claim is refused only if there was a call in its namespace within `window` that was not
-- refused.
def Founded (window : Duration) (key : Bytes32) (log : List (Call ι)) : Prop :=
  Run.Along (fun seen y => seen ++ [y]) (fun seen y => y.id = key → y.answer = some .taken →
    ∃ x ∈ seen, x.space.head = y.space.head ∧ x.id = key ∧ x.answer ≠ some .taken ∧
      y.clock < x.clock + window) [] log

section

variable {key : Bytes32} {log : List (Call ι)}

instance {D : ι → Prop} [DecidablePred D] : Decidable (Reliable D key log) :=
  inferInstanceAs (Decidable (∀ _ ∈ _, _))

instance : Decidable (Exclusive key log) :=
  inferInstanceAs (Decidable (List.Pairwise _ _))

instance {window : Duration} : Decidable (Founded window key log) :=
  inferInstanceAs (Decidable (Run.Along _ _ _ _))

end
end Cluster
