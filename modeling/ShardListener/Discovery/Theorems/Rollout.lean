import ShardListener.Discovery.Theorems.Sockets
import ShardListener.Extensions.Run

namespace Discovery

variable {lib : Addressing} {plane : ControlPlane} {cfg : BeaconConfig} {recv send : Compat}
variable {src : IP}

-- Where the beacons of a sender go to. The retry endpoints derive their groups like the listeners.
def emitted (lib : Addressing) (plane : ControlPlane) (compat : Compat) : List UDPAddr :=
  match controlGroupPrefixes lib compat plane.ssm plane.scope with
  | .error _     => []
  | .ok prefixes => prefixes.map fun p => ⟨lib.beaconAddr p plane.groupID, plane.beaconPort⟩

def Socket.Hears (s : Socket) (src : IP) (dst : UDPAddr) : Prop :=
  s.port = dst.port ∧ ∃ srcs, (dst.ip, srcs) ∈ s.joins ∧ (srcs = [] ∨ src ∈ srcs)

-- A listener that is started with one mode hears a sender with another.
def Hears (lib : Addressing) (cfg : BeaconConfig) (recv send : Compat) (src : IP) : Prop :=
  ∃ sockets, listen lib cfg recv = .ok sockets ∧
    ∃ s ∈ sockets, ∃ dst ∈ emitted lib cfg.toControlPlane send, s.Hears src dst

theorem sourcesFor_beaconPort {ip : IP} : cfg.sourcesFor ⟨ip, cfg.beaconPort⟩ = cfg.beaconSrcs := by
  simp only [BeaconConfig.sourcesFor, BeaconConfig.sourcesByPort]
  split
  case isFalse => rfl
  case isTrue h => rw [AList.lookup_insert_ne (Ne.symm h.2.2)]; rfl

theorem mem_beaconGroups_beaconPort {ip : IP} {ips : List IP} :
    ⟨ip, cfg.beaconPort⟩ ∈ cfg.beaconGroups ips ↔ ip ∈ ips := by
  simp only [BeaconConfig.beaconGroups, List.mem_flatMap, List.mem_map, UDPAddr.mk.injEq]
  constructor
  case mp =>
    rintro ⟨_, _, _, hip, rfl, _⟩
    exact hip
  case mpr =>
    intro hip
    refine ⟨cfg.beaconPort, ?_, ip, hip, rfl, rfl⟩
    split <;> exact List.mem_cons_self

theorem hears_beaconSockets {ip : IP} {ips : List IP}
    (hsrc : cfg.beaconSrcs = [] ∨ src ∈ cfg.beaconSrcs) :
    (∃ s ∈ beaconSockets cfg (cfg.beaconGroups ips), s.Hears src ⟨ip, cfg.beaconPort⟩) ↔
      ip ∈ ips := by
  obtain ⟨_, hports, hjoins⟩ := beaconSockets_eq cfg (cfg.beaconGroups ips)
  constructor
  case mp =>
    rintro ⟨s, hs, hport, srcs, hj, _⟩
    rw [hjoins s hs, List.mem_map] at hj
    obtain ⟨⟨gip, gport⟩, hg, e⟩ := hj
    obtain ⟨hg, hgport⟩ := List.mem_filter.mp hg
    cases e
    obtain rfl : gport = cfg.beaconPort := (of_decide_eq_true hgport).trans hport
    exact mem_beaconGroups_beaconPort.mp hg
  case mpr =>
    intro hip
    have hg : ⟨ip, cfg.beaconPort⟩ ∈ cfg.beaconGroups ips := mem_beaconGroups_beaconPort.mpr hip
    obtain ⟨s, hs, hport⟩ := List.mem_map.mp ((hports _).mpr ⟨_, hg, rfl⟩)
    refine ⟨s, hs, hport, cfg.beaconSrcs, ?_, hsrc⟩
    rw [hjoins s hs, List.mem_map]
    refine ⟨⟨ip, cfg.beaconPort⟩, List.mem_filter.mpr ⟨hg, decide_eq_true hport.symm⟩, ?_⟩
    rw [sourcesFor_beaconPort]

-- In terms of the prefixes: the two have one in common.
theorem hears_iff (hsrc : cfg.beaconSrcs = [] ∨ src ∈ cfg.beaconSrcs) :
    Hears lib cfg recv send src ↔
      ∃ ps qs, controlGroupPrefixes lib recv cfg.ssm cfg.scope = .ok ps ∧
        controlGroupPrefixes lib send cfg.ssm cfg.scope = .ok qs ∧ ∃ p ∈ ps, p ∈ qs := by
  unfold Hears listen emitted
  cases controlGroupPrefixes lib recv cfg.ssm cfg.scope
  case error => simp [Except.map]
  case ok ps =>
    cases controlGroupPrefixes lib send cfg.ssm cfg.scope
    case error => simp
    case ok qs =>
      constructor
      case mp =>
        rintro ⟨_, ⟨⟩, s, hs, dst, hdst, hh⟩
        obtain ⟨q, hq, rfl⟩ := List.mem_map.mp hdst
        obtain ⟨p, hp, e⟩ := List.mem_map.mp ((hears_beaconSockets hsrc).mp ⟨s, hs, hh⟩)
        exact ⟨ps, qs, rfl, rfl, p, hp, lib.beaconAddr_inj _ _ _ e ▸ hq⟩
      case mpr =>
        rintro ⟨_, _, ⟨⟩, ⟨⟩, p, hp, hq⟩
        obtain ⟨s, hs, hh⟩ := (hears_beaconSockets hsrc).mpr (List.mem_map_of_mem hp)
        exact ⟨_, rfl, s, hs, _, List.mem_map_of_mem hq, hh⟩

-- The fabric has a source-specific control group at its scope, which is not the any-source one.
structure ControlPlane.TwoGroups (lib : Addressing) (plane : ControlPlane) : Prop where
  ssm      : plane.ssm = true
  prefixes : ∃ asm sc derived, scopes plane.scope = some asm ∧
    lib.parseScope plane.scope = some sc ∧ lib.ssmPrefix sc = some derived ∧ derived ≠ asm

-- One of them has moved, and the other stays where it was.
def Compat.Clash (a b : Compat) : Prop :=
  a = .asmOnly ∧ b = .derived ∨ a = .derived ∧ b = .asmOnly

instance (a b : Compat) : Decidable (a.Clash b) :=
  inferInstanceAs (Decidable (_ ∧ _ ∨ _ ∧ _))

theorem hears_iff_not_clash (hp : cfg.toControlPlane.TwoGroups lib)
    (hsrc : cfg.beaconSrcs = [] ∨ src ∈ cfg.beaconSrcs) :
    Hears lib cfg recv send src ↔ ¬recv.Clash send := by
  obtain ⟨hssm, asm, sc, derived, hasm, hsc, hd, hne⟩ := hp
  have hprefixes (c : Compat) : controlGroupPrefixes lib c cfg.ssm cfg.scope =
      .ok (match c with | .asmOnly => [asm] | .both => [asm, derived] | .derived => [derived]) := by
    cases c <;> simp [controlGroupPrefixes, hasm, hsc, hd, hssm, hne, Except.map]
  rw [hears_iff hsrc, hprefixes, hprefixes]
  cases recv <;> cases send <;> simp [Compat.Clash, hne, Ne.symm hne]

-- The modes of all listeners and senders, which are reconfigured one at a time.

variable {R S : Type} [DecidableEq R] [DecidableEq S]

structure Fleet (R S : Type) where
  listener : R → Compat
  sender   : S → Compat

namespace Fleet

inductive Act (R S : Type)
  | listener (r : R) (c : Compat)
  | sender (s : S) (c : Compat)

variable {f : Fleet R S} {act : Act R S}

def step (f : Fleet R S) : Act R S → Fleet R S
  | .listener r c => { f with listener := Function.update f.listener r c }
  | .sender s c   => { f with sender := Function.update f.sender s c }

-- The order of the rollout: nobody moves to the derived group while somebody at the other end is on
-- the old one only, and nobody moves back to the old one while somebody is on the derived one only.
def InOrder (f : Fleet R S) : Act R S → Prop
  | .listener _ .asmOnly => ∀ s, f.sender s ≠ .derived
  | .listener _ .derived => ∀ s, f.sender s ≠ .asmOnly
  | .sender _ .asmOnly   => ∀ r, f.listener r ≠ .derived
  | .sender _ .derived   => ∀ r, f.listener r ≠ .asmOnly
  | _                    => True

def AllHear (lib : Addressing) (cfg : R → BeaconConfig) (addr : S → IP) (f : Fleet R S) : Prop :=
  ∀ r s, Hears lib (cfg r) (f.listener r) (f.sender s) (addr s)

omit [DecidableEq R] [DecidableEq S] in
theorem inOrder_iff_not_clash :
    f.InOrder act ↔
      match act with
      | .listener _ c => ∀ s, ¬c.Clash (f.sender s)
      | .sender _ c   => ∀ r, ¬(f.listener r).Clash c := by
  cases act
  case listener r c => cases c <;> simp [InOrder, Compat.Clash]
  case sender s c   => cases c <;> simp [InOrder, Compat.Clash]

theorem not_clash_step_iff (h : ∀ r s, ¬(f.listener r).Clash (f.sender s)) :
    (∀ r s, ¬((f.step act).listener r).Clash ((f.step act).sender s)) ↔ f.InOrder act := by
  rw [inOrder_iff_not_clash]
  cases act
  case listener r c =>
    constructor
    case mp => exact fun h' s => by simpa [step] using h' r s
    case mpr =>
      intro h' r' s
      simp only [step, Function.update_apply]
      split
      case isTrue  => exact h' s
      case isFalse => exact h r' s
  case sender s c =>
    constructor
    case mp => exact fun h' r => by simpa [step] using h' r s
    case mpr =>
      intro h' r s'
      simp only [step, Function.update_apply]
      split
      case isTrue  => exact h' r
      case isFalse => exact h r s'

-- The reconfigurations in which no listener ever stops to hear a sender are those in this order.
theorem all_hear_iff_in_order (cfg : R → BeaconConfig) (addr : S → IP) (f : Fleet R S)
    (acts : List (Act R S)) (hp : ∀ r, (cfg r).toControlPlane.TwoGroups lib)
    (hsrc : ∀ r s, (cfg r).beaconSrcs = [] ∨ addr s ∈ (cfg r).beaconSrcs)
    (h : f.AllHear lib cfg addr) :
    Run.Always step (AllHear lib cfg addr) f acts ↔ Run.Along step InOrder f acts := by
  have hall (f : Fleet R S) : f.AllHear lib cfg addr ↔ ∀ r s, ¬(f.listener r).Clash (f.sender s) :=
    forall₂_congr fun r s => hears_iff_not_clash (hp r) (hsrc r s)
  refine Run.always_iff_along (J := fun _ => True) (fun _ _ => id) (fun f act _ hf => ?_) trivial h
  rw [hall]
  exact not_clash_step_iff ((hall f).mp hf)

-- Two listeners and a retry endpoint at site scope.

def siteLib : Addressing where
  parseScope name := if name = "site" then some 5 else none
  ssmPrefix sc    := some (0xFF30 + .ofNat sc)
  beaconAddr p g  := .ofNat 128 (p.toNat * 2 ^ 112 + g.toNat * 2 ^ 16 + 0xFFFD)
  beaconAddr_inj p q g h := by
    have hp := p.toNat_lt
    have hq := q.toNat_lt
    have hg := g.toNat_lt
    have h := congrArg BitVec.toNat h
    simp only [BitVec.toNat_ofNat] at h
    rw [Nat.mod_eq_of_lt (by omega), Nat.mod_eq_of_lt (by omega)] at h
    exact UInt16.toNat_inj.mp (by omega)

def siteConfig (r : Fin 2) : BeaconConfig :=
  ⟨⟨true, "site", 0xB, 9300⟩, r = 0, 9001, [1], [2]⟩

theorem siteConfig_twoGroups (r : Fin 2) : (siteConfig r).toControlPlane.TwoGroups siteLib :=
  ⟨rfl, 0xFF05, 5, 0xFF35, rfl, rfl, rfl, by decide⟩

def upgraded : Fleet (Fin 2) (Fin 1) :=
  ⟨fun _ => .asmOnly, fun _ => .asmOnly⟩

-- The four steps of the documented order.
theorem documented_order_keeps_hearing :
    Run.Always step (AllHear siteLib siteConfig fun _ => 1) upgraded
      [.listener 0 .both, .listener 1 .both, .sender 0 .asmOnly, .sender 0 .derived,
        .listener 1 .derived, .listener 0 .derived] := by
  have hstart : upgraded.AllHear siteLib siteConfig fun _ => 1 := fun r s =>
    (hears_iff_not_clash (siteConfig_twoGroups r) (.inr List.mem_cons_self)).mpr (by decide +revert)
  refine (all_hear_iff_in_order siteConfig (fun _ => 1) upgraded _ siteConfig_twoGroups
    (fun _ _ => .inr List.mem_cons_self) hstart).mpr ?_
  refine ⟨trivial, trivial, ?_, ?_, ?_, ?_, trivial⟩
  all_goals
    dsimp only [InOrder]
    decide

end Fleet
end Discovery
