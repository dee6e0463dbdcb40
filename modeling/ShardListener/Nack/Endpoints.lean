import ShardListener.Discovery.Registry

namespace Nack

open Discovery

-- `sameHost`
def sameHost (txt : AddrText) (a b : String) : Bool :=
  match txt.parseIP (txt.trimBrackets a), txt.parseIP (txt.trimBrackets b) with
  | some ia, some ib => ia = ib
  | _, _             => txt.equalFold (txt.trimBrackets a) (txt.trimBrackets b)

-- The host of the endpoint is this node's own address.
def isSelf (txt : AddrText) (selfAddr ep : String) : Bool :=
  match txt.splitHostPort ep with
  | some host => sameHost txt host selfAddr
  | none      => false

def demoteSelf (txt : AddrText) (endpoints : List String) (selfAddr : String) : List String :=
  if selfAddr = "" ∨ endpoints.length < 2 then
    endpoints
  else
    let remote := endpoints.filter (!isSelf txt selfAddr ·)
    let self := endpoints.filter (isSelf txt selfAddr)
    remote ++ self

-- The part of the tracker that says which retry endpoints there are.
structure Endpoints where
  seeds    : List String
  nackSrc  : String
  registry : Registry

namespace Endpoints

-- `New`, as far as it concerns the endpoints.
def new (retryEndpoints : List String) (registry : Registry) : Endpoints where
  seeds    := retryEndpoints
  nackSrc  := ""
  registry := if retryEndpoints.length > 0 then registry.seed retryEndpoints else registry

def setNACKSource (txt : AddrText) (addr : String) (t : Endpoints) : Endpoints where
  seeds    := t.seeds
  nackSrc  := addr
  registry :=
    if t.seeds.length > 0 then t.registry.seed (demoteSelf txt t.seeds addr) else t.registry

end Endpoints

end Nack
