import Mathlib.Data.List.Sort
import ShardListener.Extensions.Dict
import ShardListener.Objects.Basic

namespace Manifest

-- The view that the evaluator has adopted, with the fields that the applier compares. `σ` is the
-- type of the view of the successor. Of an object plane, only the width is compared.
structure Adopted (σ : Type) where
  shardBits     : UInt8 := 0
  sourceModeSSM : Bool := false
  pilotGroups   : List UInt16 := []
  sourceSet     : List IP := []
  successor     : Option σ := none
  domains       : Dict UInt8 UInt8 := ∅

-- The change handlers, over the state `ω` of what they act on. One that is not installed does
-- nothing.
structure Hooks (σ ω : Type) where
  onShardBitsChange       : UInt8 → UInt8 → ω → ω
  onSourceModeChange      : Bool → Bool → ω → ω
  onPilotGroupsChange     : List UInt16 → List UInt16 → ω → ω
  onSourceSetChange       : List IP → List IP → ω → ω
  onSuccessorChange       : Option σ → Option σ → ω → ω
  onDomainShardBitsChange : UInt8 → UInt8 → UInt8 → ω → ω

-- What is new in `after` and what is gone from `before`, each in ascending order.
def diff {α : Type} [DecidableEq α] (le : α → α → Prop) [DecidableRel le] (before after : List α) :
    List α × List α :=
  ((after.filter (· ∉ before)).insertionSort le, (before.filter (· ∉ after)).insertionSort le)

def diffUint16 : List UInt16 → List UInt16 → List UInt16 × List UInt16 :=
  diff (· ≤ ·)

def diffAddrs : List IP → List IP → List IP × List IP :=
  diff (· ≤ ·)

structure DomainChange where
  domain : UInt8
  prev   : UInt8
  next   : UInt8

-- The changes of the object planes' widths, by ascending domain. The width of an absent plane is 0.
def domainShardBitsChanges (prev next : Dict UInt8 UInt8) : List DomainChange :=
  (List.range 0x0F).filterMap fun id =>
    let domain := id.toUInt8
    let pv := (prev.lookup domain).getD 0
    let nv := (next.lookup domain).getD 0
    if pv ≠ nv then some ⟨domain, pv, nv⟩ else none

variable {σ ω : Type} [DecidableEq σ]

def fireHooks (h : Hooks σ ω) (prev next : Adopted σ) (w : ω) : ω :=
  let w :=
    if prev.shardBits ≠ next.shardBits then h.onShardBitsChange prev.shardBits next.shardBits w
    else w
  let w :=
    if prev.sourceModeSSM ≠ next.sourceModeSSM then
      h.onSourceModeChange prev.sourceModeSSM next.sourceModeSSM w
    else w
  let groups := diffUint16 prev.pilotGroups next.pilotGroups
  let w :=
    if groups.1 ≠ [] ∨ groups.2 ≠ [] then h.onPilotGroupsChange groups.1 groups.2 w else w
  let sources := diffAddrs prev.sourceSet next.sourceSet
  let w :=
    if sources.1 ≠ [] ∨ sources.2 ≠ [] then h.onSourceSetChange sources.1 sources.2 w else w
  let w :=
    if prev.successor ≠ next.successor then h.onSuccessorChange prev.successor next.successor w
    else w
  (domainShardBitsChanges prev.domains next.domains).foldl
    (fun w d => h.onDomainShardBitsChange d.domain d.prev d.next w) w

end Manifest
