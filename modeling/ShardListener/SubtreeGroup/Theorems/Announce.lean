import ShardListener.SubtreeGroup.Announce
import ShardListener.SubtreeGroup.Theorems.Filter
import ShardListener.Worker.Theorems.Delivery

-- What is assumed of the library: a member of a bundle is in the bundle's subtree.
def Wire.Inherits (wire : Wire) : Prop :=
  ∀ b, ∀ mf ∈ wire.decoalesce b, mf.subtreeID = b.subtreeID

namespace Worker

variable {wire : Wire} {cfg : Settings} {k : Egress} {A B : Bytes32 → Prop} {C : Bundle → Prop}

-- The subtree of a call is in `A`. Only transactions have one, and anchors pass by the filter.
def Egress.Within (wire : Wire) (A : Bytes32 → Prop) : Egress → Prop
  | .send raw f       => wire.whole raw = some (.anchor f) ∨ A f.subtreeID
  | .mcast _ f _      => A f.subtreeID
  | .sendBundle _ b   => A b.subtreeID
  | _                 => True

theorem Egress.Within.mono (h : ∀ s, A s → B s) (hk : k.Within wire A) : k.Within wire B := by
  cases k
  case send       => exact hk.imp_right (h _)
  case mcast      => exact h _ hk
  case sendBundle => exact h _ hk
  all_goals trivial

-- The subtrees that a filter with a registry lets through.
def Filter.Lets (filt : Filter) (s : Bytes32) : Prop :=
  ¬filt.subtreeExclude.any (s ∈ ·) = true ∧
    (filt.subtreeInclude.any (s ∈ ·) = true ∨ filt.groupReg.any (· s) = true)

theorem lets_of_not_denied {filt : Filter} {g : GroupIdx} {f : Frame} (hr : filt.groupReg.isSome)
    (h : filt.deny g f = none) : filt.Lets f.subtreeID := by
  obtain ⟨_, he, hi⟩ := Filter.deny_eq_none_iff.mp h
  exact ⟨he, hi.resolve_left fun hn => hn (.inr hr)⟩

theorem within_of_justified {e : Emission} {seq : SeqNum} (hr : cfg.filt.groupReg.isSome)
    (hb : wire.Inherits) (hj : Justified wire cfg C e) (hk : k ∈ e.calls wire cfg seq) :
    k.Within wire cfg.filt.Lets := by
  cases hj
  case block =>
    rcases mem_calls_block hk with rfl | ⟨_, _, rfl⟩
    case inl => trivial
    case inr => trivial
  all_goals obtain rfl := List.mem_singleton.mp hk
  case tx raw f _ hkept        =>
    exact .inr (lets_of_not_denied hr (not_not.mp (not_or.mp hkept).2))
  case anchor raw f hp         => cases hp with | whole hw => exact .inl hw
  case member b mf _ _ hkept hm _ =>
    exact .inr ((hb b mf hm).symm ▸ lets_of_not_denied hr hkept)
  case mcast hkept             => exact lets_of_not_denied hr hkept
  case mcastMember b mf _ _ hkept hm =>
    exact (hb b mf hm).symm ▸ lets_of_not_denied hr hkept
  case bundle b hkept          => exact lets_of_not_denied hr hkept
  case subtreeData             => trivial
  case beef                    => trivial

end Worker

namespace SubtreeGroup.Listener

open Worker

variable {wire : Wire} {cfg : Settings} {acfg : AnnounceConfig} {l : Listener} {ev : Event}
variable {evs : List Event}
variable {groups : List GroupID} {defaultTTL t : Duration} {s : Bytes32}

-- The announcement in a datagram, if the listener accepts it.
def accepted (acfg : AnnounceConfig) (src : Option IP) (datagram : Bytes) : Option Announce :=
  let buf := datagram.take (acfg.fmt.size + 64)
  if acfg.fmt.size ≤ buf.length ∧ acfg.acl.allow src = true then acfg.fmt.decode buf else none

-- The calls on the registry.
def calls (acfg : AnnounceConfig) : Event → Option Call
  | .worker _                      => none
  | .announcement now src datagram =>
    (accepted acfg src datagram).map fun ann =>
      ⟨now, .add ann.groupID ann.subtreeID (AnnounceListener.ttl acfg ann)⟩
  | .evict now                     => some ⟨now, .evict⟩

theorem registry_step :
    (l.step wire cfg acfg ev).announce.registry =
      Run.exec Registry.step l.announce.registry (calls acfg ev).toList := by
  cases ev
  case worker => rfl
  case evict  => rfl
  case announcement now src datagram =>
    simp only [step, AnnounceListener.receive, calls, accepted]
    split
    case isTrue hlt  => rw [if_neg fun h => absurd h.1 (Nat.not_le.mpr hlt)]; rfl
    case isFalse hle =>
      split
      case isTrue hno => rw [if_neg fun h => by simp [hno] at h]; rfl
      case isFalse hyes =>
        rw [if_pos ⟨Nat.not_lt.mp hle, Bool.eq_true_of_not_eq_false hyes⟩]
        cases acfg.fmt.decode (datagram.take (acfg.fmt.size + 64))
        case none => rfl
        case some => rfl

theorem registry_exec :
    (Run.exec (step wire cfg acfg) l evs).announce.registry =
      Run.exec Registry.step l.announce.registry (evs.filterMap (calls acfg)) := by
  induction evs generalizing l
  case nil => rfl
  case cons ev evs hi =>
    rw [Run.exec_cons, hi, registry_step, List.filterMap_cons]
    cases calls acfg ev
    case none => rfl
    case some => rfl

theorem announced_of_contains {r : Registry} {log : List Call} (h : r.Follows groups defaultTTL log)
    (hc : r.contains t s = true) : Announced groups defaultTTL log t s := by
  simp only [Registry.contains, List.any_eq_true, Option.any_eq_true] at hc
  obtain ⟨⟨g, subs⟩, hg, e, he, hlt⟩ := hc
  have hl := AList.mem_entries_iff.mp hg
  have hmem : g ∈ r.entries := AList.mem_iff_lookup.mpr ⟨subs, hl⟩
  exact ⟨g, (h.groups g).mp hmem, e, (h.tracks g subs hl).sound s e he, by simpa using hlt⟩

-- There was a time at which the filter could let the subtree through: it is in the static lists, or
-- an announcement that had been accepted by then says so.
def Admitted (cfg : Settings) (acfg : AnnounceConfig) (groups : List GroupID)
    (defaultTTL : Duration) (evs : List Event) (s : Bytes32) : Prop :=
  ¬cfg.filt.subtreeExclude.any (s ∈ ·) = true ∧
    (cfg.filt.subtreeInclude.any (s ∈ ·) = true ∨
      ∃ before ev after, evs = before ++ .worker ev :: after ∧
        Announced groups defaultTTL (before.filterMap (calls acfg)) (clock ev) s)

theorem Admitted.append (h : Admitted cfg acfg groups defaultTTL evs s) :
    Admitted cfg acfg groups defaultTTL (evs ++ [ev]) s := by
  refine ⟨h.1, h.2.imp_right ?_⟩
  rintro ⟨before, ev₀, after, rfl, ha⟩
  exact ⟨before, ev₀, after ++ [ev], by simp, ha⟩

def oneByte : AnnounceConfig where
  fmt        := ⟨1, fun _ => some ⟨1, .zero, 5⟩⟩
  acl        := ⟨[], []⟩
  defaultTTL := 0

theorem relayWire_inherits : Node.relayWire.Inherits := by
  intro b mf hm
  obtain rfl := List.mem_singleton.mp hm
  rfl

end SubtreeGroup.Listener
