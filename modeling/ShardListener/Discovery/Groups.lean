import ShardListener.Extensions.Dict
import ShardListener.Objects.Basic

-- The groups of the control plane, and the sockets on which the beacon listener joins them.
namespace Discovery

structure UDPAddr where
  ip   : IP
  port : Nat
deriving DecidableEq

-- What is used of the addressing of groups, whose code is not part of the repository: `ParseScope`,
-- `Prefix` for the source-specific mode, and `GroupAddr` for the beacon group.
structure Addressing where
  parseScope    : String → Option Nat
  ssmPrefix     : Nat → Option UInt16
  beaconAddr    : UInt16 → UInt16 → IP
  beaconAddr_inj : ∀ p q groupID, beaconAddr p groupID = beaconAddr q groupID → p = q

-- The values of `-control-group-compat` that are accepted.
inductive Compat
  | asmOnly | both | derived
deriving DecidableEq

def scopes (name : String) : Option UInt16 :=
  if name = "link" then some 0xFF02
  else if name = "site" then some 0xFF05
  else if name = "org" then some 0xFF08
  else if name = "global" then some 0xFF0E
  else none

inductive PrefixError
  | unknownScope (name : String)
  | noSSMGroup (name : String)
  | ssmPrefix

-- The any-source prefix first, the one for the source mode second, and one of them if they
-- coincide. At a scope without a source-specific group `both` makes do with the any-source prefix,
-- and `derived` is an error.
def controlGroupPrefixes (lib : Addressing) (compat : Compat) (ssm : Bool) (scopeName : String) :
    Except PrefixError (List UInt16) :=
  match scopes scopeName with
  | none     => .error (.unknownScope scopeName)
  | some asm =>
    if compat = .asmOnly then .ok [asm]
    else
      let derived : Except PrefixError UInt16 :=
        if ssm then
          match lib.parseScope scopeName with
          | none    => if compat = .derived then .error (.noSSMGroup scopeName) else .ok asm
          | some sc => (lib.ssmPrefix sc).elim (.error .ssmPrefix) .ok
        else .ok asm
      derived.map fun derived =>
        if compat = .derived ∨ derived = asm then [derived] else [asm, derived]

-- What the parts of a fabric agree on.
structure ControlPlane where
  ssm        : Bool
  scope      : String
  groupID    : UInt16
  beaconPort : Nat

-- The settings of a listener. `sourcesByPort` is there for the port of the manifests, if that is
-- another one and has sources of its own.
structure BeaconConfig extends ControlPlane where
  autoConfigEnabled    : Bool
  autoConfigBeaconPort : Nat
  beaconSrcs           : List IP
  manifestSrcs         : List IP

namespace BeaconConfig

variable (cfg : BeaconConfig)

def beaconGroups (ips : List IP) : List UDPAddr :=
  let ports :=
    if cfg.autoConfigEnabled ∧ cfg.autoConfigBeaconPort ≠ cfg.beaconPort then
      [cfg.beaconPort, cfg.autoConfigBeaconPort]
    else [cfg.beaconPort]
  ports.flatMap fun port => ips.map (⟨·, port⟩)

def sourcesByPort : Dict Nat (List IP) :=
  if cfg.autoConfigEnabled ∧ cfg.manifestSrcs ≠ [] ∧ cfg.autoConfigBeaconPort ≠ cfg.beaconPort then
    (∅ : Dict Nat (List IP)).insert cfg.autoConfigBeaconPort cfg.manifestSrcs
  else ∅

def sourcesFor (grp : UDPAddr) : List IP :=
  (cfg.sourcesByPort.lookup grp.port).getD cfg.beaconSrcs

end BeaconConfig

-- One turn of the loop of `bucketByPort`: the place of each port, and the buckets.
def bucketStep (t : Dict Nat Nat × List (List UDPAddr)) (grp : UDPAddr) :
    Dict Nat Nat × List (List UDPAddr) :=
  match t.1.lookup grp.port with
  | some i => (t.1, t.2.modify i (· ++ [grp]))
  | none   => (t.1.insert grp.port t.2.length, t.2 ++ [[grp]])

def bucketByPort (groups : List UDPAddr) : List (List UDPAddr) :=
  (groups.foldl bucketStep (∅, [])).2

-- A socket with its memberships. No sources stand for every source.
structure Socket where
  port     : Nat
  wildcard : Bool
  joins    : List (IP × List IP)

-- `openGroupConn`, if the kernel grants what it asks for. A bucket is joined with the sources of
-- its first address.
def openGroupConn (cfg : BeaconConfig) : List UDPAddr → Option Socket
  | []          => none
  | grp :: grps =>
    let srcs := cfg.sourcesFor grp
    if srcs = [] ∧ grps = [] then some ⟨grp.port, false, [(grp.ip, [])]⟩
    else some ⟨grp.port, true, (grp :: grps).map fun g => (g.ip, srcs)⟩

-- The sockets that `Start` listens on, one for each bucket.
def beaconSockets (cfg : BeaconConfig) (groups : List UDPAddr) : List Socket :=
  (bucketByPort groups).filterMap (openGroupConn cfg)

-- What `main` starts the beacon listener with.
def listen (lib : Addressing) (cfg : BeaconConfig) (compat : Compat) :
    Except PrefixError (List Socket) :=
  (controlGroupPrefixes lib compat cfg.ssm cfg.scope).map fun prefixes =>
    beaconSockets cfg (cfg.beaconGroups (prefixes.map (lib.beaconAddr · cfg.groupID)))

end Discovery
