import ShardListener.Worker.System

-- The two halves of a split listener. A receiver forwards what it would hand to its consumers to
-- the delivery hosts as raw frames; these do without everything that belongs to the fabric.

namespace Worker

-- The settings that the flags of `cfg` give in delivery mode. The registry of the subtree groups is
-- there if it is configured, but nobody fills it.
def Settings.delivery (cfg : Settings) : Settings :=
  { cfg with
    filt            := { cfg.filt with groupReg := cfg.filt.groupReg.map fun _ _ => false }
    requireBlockPoW := false
    txDedup         := false
    mcastEgr        := false
    bundleAware     := false
    headerLanes     := [] }

namespace Egress

def raw : Egress → Bytes
  | send raw _ | sendBlock raw _ | sendSubtreeData raw _ | sendBeef raw _ => raw
  | sendBundle raw _ | mcast raw _ _ | header _ raw                      => raw

-- The calls on the sink that a receiver replaces by the senders to its delivery hosts.
def isUnicast : Egress → Bool
  | send .. | sendBlock .. | sendSubtreeData .. | sendBeef .. => true
  | _                                                         => false

end Egress
end Worker

namespace Node

-- A delivery worker has no tracker, no dedup set and no reassembly buffer.
def delivery : Node where
  buffer := none
  worker := {}

end Node
