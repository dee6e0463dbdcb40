import ShardListener.Extensions.Run
import ShardListener.Manifest.Applier

namespace Manifest

variable {σ ω : Type} [DecidableEq σ]

-- The loop of `Applier.Run`: the view that was published last, and what the hooks act on.
structure Applier (σ ω : Type) where
  prev  : Adopted σ := {}
  world : ω

def Applier.tick (h : Hooks σ ω) (a : Applier σ ω) (next : Adopted σ) : Applier σ ω where
  prev  := next
  world := fireHooks h a.prev next a.world

-- What the hooks are for: whoever listens to them knows the adopted view.

-- A notification, with what the hook is told.
inductive Note (σ : Type)
  | shardBits (prev next : UInt8)
  | sourceMode (prev next : Bool)
  | pilotGroups (added removed : List UInt16)
  | sourceSet (added removed : List IP)
  | successor (before after : Option σ)
  | domainShardBits (domain prev next : UInt8)

def Hooks.notify (h : Hooks σ ω) (w : ω) : Note σ → ω
  | .shardBits prev next              => h.onShardBitsChange prev next w
  | .sourceMode prev next             => h.onSourceModeChange prev next w
  | .pilotGroups added removed        => h.onPilotGroupsChange added removed w
  | .sourceSet added removed          => h.onSourceSetChange added removed w
  | .successor before after           => h.onSuccessorChange before after w
  | .domainShardBits domain prev next => h.onDomainShardBitsChange domain prev next w

-- The domains whose planes the applier compares.
def domainIDs : List UInt8 :=
  (List.range 0x0F).map Nat.toUInt8

-- What a listener to the hooks knows. The groups and the sources are sets.
@[ext]
structure View (σ : Type) where
  shardBits     : UInt8
  sourceModeSSM : Bool
  pilotGroups   : Finset UInt16
  sourceSet     : Finset IP
  successor     : Option σ
  width         : UInt8 → UInt8

def Adopted.width (a : Adopted σ) (domain : UInt8) : UInt8 :=
  (a.domains.lookup domain).getD 0

def Adopted.view (a : Adopted σ) : View σ where
  shardBits     := a.shardBits
  sourceModeSSM := a.sourceModeSSM
  pilotGroups   := a.pilotGroups.toFinset
  sourceSet     := a.sourceSet.toFinset
  successor     := a.successor
  width domain  := if domain ∈ domainIDs then a.width domain else 0

namespace View

def replay (v : View σ) : Note σ → View σ
  | .shardBits _ next              => { v with shardBits := next }
  | .sourceMode _ next             => { v with sourceModeSSM := next }
  | .pilotGroups added removed     =>
    { v with pilotGroups := v.pilotGroups \ removed.toFinset ∪ added.toFinset }
  | .sourceSet added removed       =>
    { v with sourceSet := v.sourceSet \ removed.toFinset ∪ added.toFinset }
  | .successor _ after             => { v with successor := after }
  | .domainShardBits domain _ next => { v with width := Function.update v.width domain next }

-- Something changes, and it changes from what was known: what is added is new, what is removed was
-- there, and both are in ascending order.
def Changes {α : Type} [DecidableEq α] [LE α] (known : Finset α) (added removed : List α) : Prop :=
  (added ≠ [] ∨ removed ≠ []) ∧ (∀ a ∈ added, a ∉ known) ∧ (∀ a ∈ removed, a ∈ known) ∧
    added.Pairwise (· ≤ ·) ∧ removed.Pairwise (· ≤ ·)

def Expects (v : View σ) : Note σ → Prop
  | .shardBits prev next              => prev = v.shardBits ∧ prev ≠ next
  | .sourceMode prev next             => prev = v.sourceModeSSM ∧ prev ≠ next
  | .pilotGroups added removed        => Changes v.pilotGroups added removed
  | .sourceSet added removed          => Changes v.sourceSet added removed
  | .successor before after           => before = v.successor ∧ before ≠ after
  | .domainShardBits domain prev next => prev = v.width domain ∧ prev ≠ next

end View
end Manifest
