import ShardListener.Manifest.Applier
import ShardListener.Worker.Groups

namespace Manifest

open Worker (Groups Netjoin)

-- The addresses that shard-common derives from the configured prefix and group ID; `none` where the
-- result is not an IPv6 address.
structure Fabric where
  addr                     : GroupIdx → Option IP
  groupBlockBroadcast      : Option IP
  groupSubtreeDataAnnounce : Option IP

structure Config where
  numGroups            : Nat
  shardInclude         : List GroupIdx := []
  subtreeDataEnabled   : Bool := false
  autoJoinFromManifest : Bool := true

variable (fab : Fabric) (sys : Netjoin) (cfg : Config)

-- The groups that a worker joins when it starts. An empty include list stands for all groups.
def buildGroups (beefJoinIdx : List GroupIdx) : List (Option IP) :=
  let indices := if cfg.shardInclude ≠ [] then cfg.shardInclude else List.range cfg.numGroups
  indices.map fab.addr ++ [fab.groupBlockBroadcast] ++
    (if cfg.subtreeDataEnabled then [fab.groupSubtreeDataAnnounce] else []) ++
      beefJoinIdx.map fab.addr

def inStaticInclude (static : List GroupIdx) (idx : UInt16) : Bool :=
  static.any (· == idx.toNat)

-- The turns of the two loops of `OnPilotGroupsChange`, for one worker. An error is only logged.

def autoAdd (idx : UInt16) (w : Groups) : Groups :=
  match fab.addr idx.toNat with
  | none    => w
  | some ga => (w.addGroup sys ga).toOption.getD w

def autoRemove (idx : UInt16) (w : Groups) : Groups :=
  match fab.addr idx.toNat with
  | none    => w
  | some ga =>
    if inStaticInclude cfg.shardInclude idx then w else (w.removeGroup sys ga).toOption.getD w

def onPilotGroupsChange (added removed : List UInt16) (workers : List Groups) : List Groups :=
  if ¬cfg.autoJoinFromManifest then workers
  else
    let workers := added.foldl (fun ws idx => ws.map (autoAdd fab sys idx)) workers
    removed.foldl (fun ws idx => ws.map (autoRemove fab sys cfg idx)) workers

-- The hooks that `run` installs. Those for the widths only write to the log.
def hooks {σ : Type} : Hooks σ (List Groups) where
  onShardBitsChange _ _         := id
  onSourceModeChange _ _        := id
  onPilotGroupsChange           := onPilotGroupsChange fab sys cfg
  onSourceSetChange _ _         := id
  onSuccessorChange _ _         := id
  onDomainShardBitsChange _ _ _ := id

-- The workers, and the view that was published last.
structure Listener (σ : Type) where
  workers : List Groups
  prev    : Adopted σ := {}

def Listener.adopt {σ : Type} [DecidableEq σ] (l : Listener σ) (next : Adopted σ) : Listener σ where
  workers := fireHooks (hooks fab sys cfg) l.prev next l.workers
  prev    := next

end Manifest
