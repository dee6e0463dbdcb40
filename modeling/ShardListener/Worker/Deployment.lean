import ShardListener.Extensions.Run
import ShardListener.Worker.Process

namespace Worker

-- A call of `deliverBundle`.
structure Job where
  bundle : Bundle
  raw    : Option Bytes
  track  : Bool

-- The bundle is of another generation than the listener.
def Foreign (cfg : Settings) (b : Bundle) : Prop :=
  b.shardBits ≠ 0 ∧ b.shardBits ≠ cfg.engine.shardBits

instance {cfg : Settings} : DecidablePred (Foreign cfg) :=
  fun _ => inferInstanceAs (Decidable (_ ∧ _))

variable (wire : Wire) (cfg : Settings) (env : Env)

def deliver (w : Worker) (j : Job) : Worker :=
  w.deliverBundle wire cfg env j.bundle j.raw j.track

-- The calls that `processBundle` makes for a bundle, given those that have been re-bucketed before
-- it.
def jobs (rebucketed : List Bundle) (raw : Bytes) (b : Bundle) : List Job :=
  if Foreign cfg b then (wire.rebucket rebucketed b).map (⟨·, none, false⟩)
  else [⟨b, some raw, true⟩]

-- The calls for a sequence of datagrams.
def agenda (rebucketed : List Bundle) : List Bytes → List Job
  | []          => []
  | raw :: raws =>
    match wire.decodeBundle raw with
    | none   => agenda rebucketed raws
    | some b =>
      jobs wire cfg rebucketed raw b ++
        agenda (if Foreign cfg b then rebucketed ++ [b] else rebucketed) raws

-- The bundles of other generations among the datagrams.
def foreigns (raws : List Bytes) : List Bundle :=
  (raws.filterMap wire.decodeBundle).filter (Foreign cfg)

end Worker

-- The two listeners of a deployment.
inductive Side
  | left | right
deriving DecidableEq

-- One listener delivers one bundle. Between two listeners, bundles are interleaved in any way: they
-- share nothing but the store, and `deliverBundle` asks it at most once.
structure Turn where
  side : Side
  env  : Worker.Env
  job  : Worker.Job

-- The listeners, and the keys that are claimed in their common store.
structure Deployment where
  workers : Side → Worker
  claimed : List Bytes32 := []

namespace Deployment

open Worker

-- The first claim of a key wins.
def answer (claimed : List Bytes32) (key : Bytes32) : Claim :=
  if key ∈ claimed then .taken else .claimed

-- Whether `deliverBundle` asks the store.
def Asks (cfg : Settings) (b : Bundle) : Prop :=
  cfg.txDedup ∧ cfg.filt.deny b.groupIdx (bundleProbe b) = none ∧ b.seqNum ≠ 0

instance {cfg : Settings} : DecidablePred (Asks cfg) :=
  fun _ => inferInstanceAs (Decidable (_ ∧ _ ∧ _))

def step (wire : Wire) (cfg : Settings) (d : Deployment) (x : Turn) : Deployment :=
  let env := { x.env with claim := answer d.claimed }
  { workers := Function.update d.workers x.side ((d.workers x.side).deliver wire cfg env x.job)
    claimed := if Asks cfg x.job.bundle then bundleID x.job.bundle :: d.claimed else d.claimed }

end Deployment
