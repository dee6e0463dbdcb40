import ShardListener.Manifest.AutoJoin
import ShardListener.Manifest.Replay

-- The sources of the memberships, when the fabric is source-specific.

namespace Worker

-- Whether the kernel grants a membership with these sources, and whether it grants that a group is
-- left. No sources stand for every source.
structure Kernel where
  join  : IP → List IP → Bool
  leave : IP → Bool

-- The joined groups of a worker, each with the sources that it was joined with.
structure Memberships where
  running : Bool := false
  joined  : Dict IP (List IP) := ∅

namespace Memberships

variable (sys : Kernel)

def addGroup (m : Memberships) (group : IP) (sources : List IP) : Except GroupError Memberships :=
  if ¬m.running then .error .notRunning
  else if group ∈ m.joined then .ok m
  else if sys.join group sources then .ok { m with joined := m.joined.insert group sources }
  else .error .syscall

def removeGroup (m : Memberships) (group : IP) : Except GroupError Memberships :=
  if ¬m.running then .error .notRunning
  else if group ∉ m.joined then .ok m
  else if sys.leave group then .ok { m with joined := m.joined.erase group }
  else .error .syscall

def joinConfigured (sources : IP → List IP) (m : Memberships) :
    Option IP → Except GroupError Memberships
  | none    => .error .badAddress
  | some ga =>
    if sys.join ga (sources ga) then .ok { m with joined := m.joined.insert ga (sources ga) }
    else .error .syscall

def run (sources : IP → List IP) (groups : List (Option IP)) : Except GroupError Memberships :=
  groups.foldlM (joinConfigured sys sources) { running := true }

-- A datagram from this source to this group reaches the worker.
def Hears (m : Memberships) (src group : IP) : Prop :=
  ∃ srcs, m.joined.lookup group = some srcs ∧ (srcs = [] ∨ src ∈ srcs)

-- Without the sources.
def groups (m : Memberships) : Groups where
  running      := m.running
  joinedGroups := m.joined.keys.toFinset

end Memberships
end Worker

namespace Manifest

open Worker (Kernel Memberships)

-- Sources without the node's own one.
structure Roster (own : Option IP) where
  srcs    : List IP
  guarded : ∀ a ∈ own, a ∉ srcs

def Roster.none {own : Option IP} : Roster own :=
  ⟨[], fun _ _ => List.not_mem_nil⟩

def excludeOwnSource (srcs : List IP) : (own : Option IP) → Roster own
  | .none     => ⟨srcs, fun _ h => absurd h (Option.not_mem_none _)⟩
  | .some own =>
    ⟨srcs.filter (· ≠ own),
      fun _ h hm => of_decide_eq_true (List.mem_filter.mp hm).2 (Option.mem_some.mp h).symm⟩

-- What is used of other packages: the parser for addresses, the resolver of bootstrap entries, and
-- the addresses of the groups.
structure Bootstrap where
  parseAddr : String → Option IP
  resolve   : List String → Option (List IP)
  groupAddr : UInt16 → IP

structure SSMConfig extends Config where
  localSource            : String := ""
  ssmBootstrapBeacon     : List String := []
  ssmBootstrapManifest   : List String := []
  ssmBootstrapSubtreeAnn : List String := []
  ssmPublishersStatic    : List String := []

inductive SourceError
  | localSource | bootstrapBeacon | bootstrapManifest | bootstrapSubtreeAnnounce | publishersStatic
deriving DecidableEq

structure Rosters (own : Option IP) where
  beacon     : Roster own
  manifest   : Roster own
  subtreeAnn : Roster own
  static     : Roster own

def groupBlockBroadcast : UInt16 := 0xFFFE
def groupBeacon : UInt16 := 0xFFFD
def groupSubtreeGroupAnnounce : UInt16 := 0xFFFC
def groupSubtreeDataAnnounce : UInt16 := 0xFFFB

variable (boot : Bootstrap) (cfg : SSMConfig) {own : Option IP}

def ownSource : Except SourceError (Option IP) :=
  if cfg.localSource ≠ "" then
    match boot.parseAddr cfg.localSource with
    | none   => .error .localSource
    | some a => .ok (some a)
  else .ok none

def resolve (own : Option IP) (err : SourceError) (entries : List String) :
    Except SourceError (Roster own) :=
  if entries = [] then .ok .none
  else
    match boot.resolve entries with
    | none      => .error err
    | some srcs => .ok (excludeOwnSource srcs own)

def resolveAll (own : Option IP) : Except SourceError (Rosters own) := do
  let beacon     ← resolve boot own .bootstrapBeacon cfg.ssmBootstrapBeacon
  let manifest   ← resolve boot own .bootstrapManifest cfg.ssmBootstrapManifest
  let subtreeAnn ← resolve boot own .bootstrapSubtreeAnnounce cfg.ssmBootstrapSubtreeAnn
  let static     ← resolve boot own .publishersStatic cfg.ssmPublishersStatic
  return ⟨beacon, manifest, subtreeAnn, static⟩

def put (groupAddr : UInt16 → IP) (gs : Dict IP (Roster own)) (idx : UInt16) (r : Roster own) :
    Dict IP (Roster own) :=
  if r.srcs = [] then gs else gs.insert (groupAddr idx) r

-- The sources by group. Those of the data plane are the static ones.
def groupSources (beefJoinIdx : List GroupIdx) (r : Rosters own) : Dict IP (Roster own) :=
  let gs := put boot.groupAddr ∅ groupBeacon r.beacon
  let gs := put boot.groupAddr gs groupSubtreeDataAnnounce r.subtreeAnn
  let gs := put boot.groupAddr gs groupSubtreeGroupAnnounce r.subtreeAnn
  let gs := put boot.groupAddr gs groupBlockBroadcast r.manifest
  if r.static.srcs = [] then gs
  else
    (List.range cfg.numGroups ++ beefJoinIdx).foldl (fun gs idx =>
      put boot.groupAddr gs idx.toUInt16 r.static) gs

-- With the node's own source, and the sources that are not only used for the groups of the workers.
structure Sources where
  own     : Option IP
  rosters : Rosters own
  groups  : Dict IP (Roster own)

def buildSSMSources (beefJoinIdx : List GroupIdx) : Except SourceError Sources := do
  let own     ← ownSource boot cfg
  let rosters ← resolveAll boot cfg own
  return ⟨own, rosters, groupSources boot cfg beefJoinIdx rosters⟩

-- What a worker looks up for a group.
def Sources.lookup (s : Sources) (group : IP) : List IP :=
  ((s.groups.lookup group).map Roster.srcs).getD []

def Bootstrap.fabric : Fabric where
  addr idx                 := some (boot.groupAddr idx.toUInt16)
  groupBlockBroadcast      := some (boot.groupAddr Manifest.groupBlockBroadcast)
  groupSubtreeDataAnnounce := some (boot.groupAddr Manifest.groupSubtreeDataAnnounce)

-- A worker that has joined its groups.
def start (sys : Kernel) (beefJoinIdx : List GroupIdx) (s : Sources) :
    Except Worker.GroupError Memberships :=
  Memberships.run sys s.lookup (buildGroups boot.fabric cfg.toConfig beefJoinIdx)

-- `OnPilotGroupsChange` joins without sources.

variable (sys : Kernel)

def sourcedAdd (idx : UInt16) (m : Memberships) : Memberships :=
  (m.addGroup sys (boot.groupAddr idx) []).toOption.getD m

def sourcedRemove (idx : UInt16) (m : Memberships) : Memberships :=
  if inStaticInclude cfg.shardInclude idx then m
  else (m.removeGroup sys (boot.groupAddr idx)).toOption.getD m

def sourcedHooks {σ : Type} : Hooks σ (List Memberships) where
  onShardBitsChange _ _             := id
  onSourceModeChange _ _            := id
  onPilotGroupsChange added removed := fun ms =>
    if ¬cfg.autoJoinFromManifest then ms
    else
      let ms := added.foldl (fun ms idx => ms.map (sourcedAdd boot sys idx)) ms
      removed.foldl (fun ms idx => ms.map (sourcedRemove boot cfg sys idx)) ms
  onSourceSetChange _ _             := id
  onSuccessorChange _ _             := id
  onDomainShardBitsChange _ _ _     := id

-- A new view is adopted, and the kernel answers in some way.
def subscribe {σ : Type} [DecidableEq σ] (l : Applier σ (List Memberships))
    (v : Kernel × Adopted σ) : Applier σ (List Memberships) :=
  l.tick (sourcedHooks boot cfg v.1) v.2

end Manifest
