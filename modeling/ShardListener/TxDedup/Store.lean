import ShardListener.Objects.Basic

-- The stores in which the listeners of a deployment claim what they forward, and mark for the
-- proxies what they have seen. The claims and the marks themselves are those of the library.
namespace TxDedup

-- The fields that shape the keys. `ingressBackend` says whether there is a backend or an address
-- for the marks.
structure Config where
  egressPrefix   : String := ""
  egressTTL      : Duration
  deploymentID   : String := ""
  ingressBackend : Bool := false
  ingressPrefix  : String := ""
  ingressTTL     : Duration := 0

-- What a store of the library is given with an id: how the keys begin, and how long they live.
structure Keyspace where
  head : String
  ttl  : Duration

structure Store where
  egress  : Keyspace
  ingress : Option Keyspace

def Config.egressHead (cfg : Config) : String :=
  let egressPrefix := if cfg.egressPrefix = "" then "bsl:egr:" else cfg.egressPrefix
  if cfg.deploymentID = "" then egressPrefix else egressPrefix ++ cfg.deploymentID ++ ":"

def Config.ingressHead (cfg : Config) : String :=
  if cfg.ingressPrefix = "" then "bsp:tx:" else cfg.ingressPrefix

def newWithConfig (cfg : Config) : Except String Store :=
  if cfg.egressTTL ≤ 0 then .error "txdedup: EgressTTL must be > 0"
  else
    let egress := ⟨cfg.egressHead, cfg.egressTTL⟩
    if cfg.ingressBackend ∨ cfg.ingressPrefix ≠ "" then
      if cfg.ingressTTL ≤ 0 then
        .error "txdedup: IngressTTL must be > 0 when ingress mark is configured"
      else .ok ⟨egress, some ⟨cfg.ingressHead, cfg.ingressTTL⟩⟩
    else .ok ⟨egress, none⟩

end TxDedup
