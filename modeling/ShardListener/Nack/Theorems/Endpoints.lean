import ShardListener.Nack.Endpoints
import ShardListener.Discovery.Theorems.Registry

namespace Nack

open Discovery

section Demotion

variable {txt : AddrText} {selfAddr : String} {endpoints : List String}

-- The demoted list keeps the order of the other hosts' endpoints.
theorem filter_demoteSelf {p : String → Bool} :
    (demoteSelf txt endpoints selfAddr).filter (fun ep => p ep && !isSelf txt selfAddr ep) =
      endpoints.filter fun ep => p ep && !isSelf txt selfAddr ep := by
  simp only [demoteSelf]
  split
  case isTrue => rfl
  case isFalse =>
    have hn : ∀ ep ∈ endpoints, ¬((p ep && !isSelf txt selfAddr ep) && isSelf txt selfAddr ep) := by
      intro ep _
      cases isSelf txt selfAddr ep <;> simp
    rw [List.filter_append, List.filter_filter, List.filter_filter, List.filter_eq_nil_iff.mpr hn]
    simp

theorem demoteSelf_perm : (demoteSelf txt endpoints selfAddr).Perm endpoints := by
  simp only [demoteSelf]
  split
  case isTrue  => exact .refl _
  case isFalse => exact List.perm_append_comm.trans (List.filter_append_perm _ _)

theorem pairwise_demoteSelf (hs : selfAddr ≠ "") :
    (demoteSelf txt endpoints selfAddr).Pairwise fun x y =>
      ¬(isSelf txt selfAddr x ∧ ¬isSelf txt selfAddr y) := by
  simp only [demoteSelf]
  split
  case isTrue h =>
    match endpoints, h.resolve_left hs with
    | [],  _ => exact .nil
    | [_], _ => exact List.pairwise_singleton _ _
  case isFalse =>
    rw [List.pairwise_append]
    refine ⟨?_, ?_, ?_⟩
    · exact List.pairwise_filter.mpr <| List.pairwise_of_forall fun _ _ hx _ h => by
        simp [h.1] at hx
    · exact List.pairwise_filter.mpr <| List.pairwise_of_forall fun _ _ _ hy h => h.2 hy
    · intro x hx _ _ h
      simp [h.1] at hx

end Demotion

-- The seeds of other hosts that no beacon has made known.
def remoteSeed (txt : AddrText) (selfAddr : String) (r : Registry) (ep : String) : Bool :=
  !r.seen ep && !isSelf txt selfAddr ep

-- The order in which the tracker has to walk the endpoints of a snapshot.
structure InOrder (txt : AddrText) (selfAddr : String) (seeds : List String) (r : Registry)
    (snap : List EndpointEntry) : Prop where
  -- Every endpoint is there.
  beacons_listed : ∀ e ∈ r.beacons, e ∈ snap
  seeds_listed   : ∀ ep ∈ seeds, ∃ e ∈ snap, e.addr = ep
  -- No static seed comes before another host's endpoint that is known from a beacon.
  beacons_first  : snap.Pairwise fun a b =>
    ¬(¬r.seen a.addr ∧ r.seen b.addr ∧ ¬isSelf txt selfAddr b.addr)
  -- The other hosts' seeds stand as they are configured.
  seeds_ordered  : (snap.map (·.addr)).filter (remoteSeed txt selfAddr r) =
    seeds.filter (remoteSeed txt selfAddr r)
  -- No endpoint of this node comes before one of another host.
  self_last      : snap.Pairwise fun a b =>
    ¬(isSelf txt selfAddr a.addr ∧ ¬isSelf txt selfAddr b.addr)

-- The tiers and preferences of the beacons leave room for that order: the other hosts' beacons rank
-- strictly before the seeds, and this node's own ones strictly after everything of another host.
def Ranked (txt : AddrText) (selfAddr : String) (r : Registry) : Prop :=
  (∀ b ∈ r.beacons, ¬isSelf txt selfAddr b.addr → ∀ s ∈ r.seeds, ¬r.seen s.addr → b.less s) ∧
  (∀ b ∈ r.beacons, isSelf txt selfAddr b.addr →
    ∀ e ∈ r.merged, ¬isSelf txt selfAddr e.addr → e.less b)

instance {txt : AddrText} {selfAddr : String} {r : Registry} : Decidable (Ranked txt selfAddr r) :=
  inferInstanceAs (Decidable (_ ∧ _))

-- The seeds of the registry are those of the configuration, with this node's own ones demoted.
structure Seeded (txt : AddrText) (selfAddr : String) (seeds : List String)
    (r : Registry) : Prop where
  self_ne   : selfAddr ≠ ""
  length_le : seeds.length ≤ 256
  seeds_eq  : r.seeds = (demoteSelf txt seeds selfAddr).mapIdx EndpointEntry.seed

namespace Seeded

variable {txt : AddrText} {selfAddr : String} {seeds : List String} {r r' : Registry}

theorem congr (h : Seeded txt selfAddr seeds r) (he : r'.seeds = r.seeds) :
    Seeded txt selfAddr seeds r' :=
  { h with seeds_eq := he.trans h.seeds_eq }

theorem pairwise_less (h : Seeded txt selfAddr seeds r) : r.seeds.Pairwise fun a b => a.less b := by
  rw [h.seeds_eq]
  exact EndpointEntry.pairwise_seed (demoteSelf_perm.length_eq.trans_le h.length_le)

theorem map_addr (h : Seeded txt selfAddr seeds r) :
    r.seeds.map (·.addr) = demoteSelf txt seeds selfAddr := by
  rw [h.seeds_eq, EndpointEntry.map_addr_seed]

theorem mem_addr (h : Seeded txt selfAddr seeds r) {ep : String} :
    (∃ s ∈ r.seeds, s.addr = ep) ↔ ep ∈ seeds := by
  rw [← List.mem_map, h.map_addr, demoteSelf_perm.mem_iff]

-- Another host's seed ranks before this node's own.
theorem less_of_self (h : Seeded txt selfAddr seeds r) {a b : EndpointEntry} (ha : a ∈ r.seeds)
    (hb : b ∈ r.seeds) (hs : isSelf txt selfAddr a.addr) (ho : ¬isSelf txt selfAddr b.addr) :
    b.less a := by
  have hp : (r.seeds.map (·.addr)).Pairwise _ := h.map_addr ▸ pairwise_demoteSelf h.self_ne
  have hne : a ≠ b := fun e => ho (e ▸ hs)
  have hr := Sorter.rel_or_rel (h.pairwise_less.and (List.pairwise_map.mp hp)) ha hb hne
  exact hr.elim (fun hr => absurd ⟨hs, ho⟩ hr.2) (·.1)

theorem filter_merged :
    r.merged.filter (remoteSeed txt selfAddr r ∘ (·.addr)) =
      r.seeds.filter (remoteSeed txt selfAddr r ∘ (·.addr)) := by
  have hn : ∀ e ∈ r.beacons, ¬(remoteSeed txt selfAddr r ∘ (·.addr)) e := fun e he => by
    simp [remoteSeed, Registry.seen_of_mem he]
  rw [Registry.merged, List.filter_append, List.filter_eq_nil_iff.mpr hn, List.nil_append,
    List.filter_filter]
  refine List.filter_congr fun e _ => ?_
  simp only [Function.comp, remoteSeed]
  cases r.seen e.addr <;> simp

-- The other hosts' seeds come out of every sort in the configured order.
theorem seeds_ordered (h : Seeded txt selfAddr seeds r) (σ : Sorter EndpointEntry.less) :
    ((σ.sort r.merged).map (·.addr)).filter (remoteSeed txt selfAddr r) =
      seeds.filter (remoteSeed txt selfAddr r) := by
  have hl : (r.merged.filter (remoteSeed txt selfAddr r ∘ (·.addr))).Pairwise fun a b => a.less b :=
    filter_merged ▸ h.pairwise_less.filter _
  rw [List.filter_map, σ.filter_sort hl EndpointEntry.strictWeak, filter_merged, ← List.filter_map,
    h.map_addr]
  exact filter_demoteSelf

-- `a` has no place before `b`.
def Misplaced (txt : AddrText) (selfAddr : String) (r : Registry) (a b : EndpointEntry) : Prop :=
  (¬r.seen a.addr ∧ r.seen b.addr ∧ ¬isSelf txt selfAddr b.addr) ∨
    (isSelf txt selfAddr a.addr ∧ ¬isSelf txt selfAddr b.addr)

theorem Misplaced.irrefl {a : EndpointEntry} : ¬Misplaced txt selfAddr r a a :=
  fun h => h.elim (fun h => h.1 h.2.1) fun h => h.2 h.1

-- Only beacons can come to a wrong place: the seeds are kept apart by their preferences.
theorem less_of_misplaced (h : Seeded txt selfAddr seeds r) (hr : Ranked txt selfAddr r)
    {a b : EndpointEntry} (ha : a ∈ r.merged) (hb : b ∈ r.merged)
    (hm : Misplaced txt selfAddr r a b) : b.less a := by
  have ⟨hother, hown⟩ := hr
  by_cases hsa : r.seen a.addr
  case pos =>
    have ⟨hs, ho⟩ := hm.resolve_left fun hm => hm.1 hsa
    exact hown a (Registry.mem_beacons_iff.mpr ⟨ha, hsa⟩) hs b hb ho
  case neg =>
    have ho : ¬isSelf txt selfAddr b.addr := hm.elim (·.2.2) (·.2)
    have has : a ∈ r.seeds := Registry.mem_seeds_of_not_seen ha hsa
    by_cases hsb : r.seen b.addr
    case pos => exact hother b (Registry.mem_beacons_iff.mpr ⟨hb, hsb⟩) ho a has hsa
    case neg =>
      have hs : isSelf txt selfAddr a.addr := hm.elim (fun hm => absurd hm.2.1 hsb) (·.1)
      exact h.less_of_self has (Registry.mem_seeds_of_not_seen hb hsb) hs ho

theorem ranked_iff (h : Seeded txt selfAddr seeds r) :
    Ranked txt selfAddr r ↔
      ∀ a ∈ r.merged, ∀ b ∈ r.merged, ¬¬Misplaced txt selfAddr r a b → b.less a := by
  constructor
  case mp => exact fun hr a ha b hb hm => h.less_of_misplaced hr ha hb (not_not.mp hm)
  case mpr =>
    intro hl
    constructor
    case left =>
      intro b hb ho s hs hn
      have hm := Registry.mem_merged.mpr (.inr ⟨hs, Bool.eq_false_iff.mpr hn⟩)
      have hb' := Registry.mem_beacons_iff.mp hb
      exact hl s hm b hb'.1 (not_not.mpr (.inl ⟨hn, hb'.2, ho⟩))
    case right =>
      intro b hb hs e he ho
      exact hl b (Registry.mem_beacons_iff.mp hb).1 e he (not_not.mpr (.inr ⟨hs, ho⟩))

-- Of the requirements only those on pairs of endpoints depend on the ranks.
theorem inOrder_iff (h : Seeded txt selfAddr seeds r) (σ : Sorter EndpointEntry.less) :
    InOrder txt selfAddr seeds r (σ.sort r.merged) ↔
      (σ.sort r.merged).Pairwise fun a b => ¬Misplaced txt selfAddr r a b := by
  constructor
  case mp =>
    intro ho
    exact (ho.beacons_first.and ho.self_last).imp fun hn hm => hm.elim hn.1 hn.2
  case mpr =>
    intro hp
    refine ⟨?_, ?_, hp.imp fun hn hm => hn (.inl hm), h.seeds_ordered σ,
      hp.imp fun hn hm => hn (.inr hm)⟩
    · exact fun e he => σ.mem_sort.mpr (Registry.mem_beacons_iff.mp he).1
    · intro ep hep
      have ⟨s, hs, he⟩ := h.mem_addr.mpr hep
      by_cases hseen : r.seen s.addr
      case pos =>
        have ⟨b, hb, hba⟩ := List.mem_map.mp (of_decide_eq_true hseen)
        exact ⟨b, σ.mem_sort.mpr (Registry.mem_beacons_iff.mp hb).1, hba.trans he⟩
      case neg =>
        have hm := Registry.mem_merged.mpr (.inr ⟨hs, Bool.eq_false_iff.mpr hseen⟩)
        exact ⟨s, σ.mem_sort.mpr hm, he⟩

theorem forall_inOrder_iff (h : Seeded txt selfAddr seeds r) :
    (∀ σ : Sorter EndpointEntry.less, InOrder txt selfAddr seeds r (σ.sort r.merged)) ↔
      Ranked txt selfAddr r := by
  rw [h.ranked_iff, ← Sorter.forall_pairwise_iff EndpointEntry.strictWeak fun _ => Misplaced.irrefl]
  exact forall_congr' h.inOrder_iff

end Seeded

namespace Endpoints

variable {txt : AddrText} {selfAddr : String} {seeds : List String}

theorem seeded_setNACKSource (hl : seeds.length ≤ 256) (hs : selfAddr ≠ "") :
    Seeded txt selfAddr seeds ((new seeds .new).setNACKSource txt selfAddr).registry where
  self_ne   := hs
  length_le := hl
  seeds_eq  := by
    simp only [setNACKSource, new]
    split
    case isTrue => rfl
    case isFalse h =>
      have he : seeds = [] := List.length_eq_zero_iff.mp (by omega)
      simp [he, demoteSelf, Registry.new]

-- The registry after the calls of the beacon listener that follow `SetNACKSource`.
def discover (txt : AddrText) (seeds : List String) (selfAddr : String)
    (evs : List Registry.Event) : Registry :=
  Run.exec (Registry.handle txt) ((new seeds .new).setNACKSource txt selfAddr).registry evs

theorem takeSnapshot_discover {evs : List Registry.Event} (σ : Sorter EndpointEntry.less) :
    ((discover txt seeds selfAddr evs).takeSnapshot σ).1 =
      σ.sort (discover txt seeds selfAddr evs).merged := by
  have hn : ((new seeds .new).setNACKSource txt selfAddr).registry.snapshot = none := by
    simp only [setNACKSource, new]
    repeat' split
    all_goals rfl
  have hs : (discover txt seeds selfAddr evs).snapshot = none :=
    Registry.Touched.exec.snapshot_eq.trans hn
  simp only [Registry.takeSnapshot, hs]
  split
  case h_1 h => cases h
  case h_2   => rfl

-- The walk is in order however the ties are broken exactly if the beacons leave room for it.
theorem inOrder_iff_ranked (txt : AddrText) (seeds : List String) (selfAddr : String)
    (evs : List Registry.Event) (hl : seeds.length ≤ 256) (hs : selfAddr ≠ "") :
    let r := discover txt seeds selfAddr evs
    (∀ σ, InOrder txt selfAddr seeds r (r.takeSnapshot σ).1) ↔ Ranked txt selfAddr r := by
  have h : Seeded txt selfAddr seeds (discover txt seeds selfAddr evs) :=
    (seeded_setNACKSource hl hs).congr Registry.Touched.exec.seeds_eq
  simp only [takeSnapshot_discover]
  exact h.forall_inOrder_iff

section Lab

-- Three caches on one site, with the texts that the library functions read and write for them.

def host : IP → String
  | 1 => "fd00::1"
  | 2 => "fd00::2"
  | _ => "fd00::3"

def labEndpoint : IP → String
  | 1 => "[fd00::1]:9300"
  | 2 => "[fd00::2]:9300"
  | _ => "[fd00::3]:9300"

def lab : AddrText where
  splitHostPort ep   := ([1, 2, 3].find? (labEndpoint · = ep)).map host
  parseIP text       := [1, 2, 3].find? (host · = text)
  trimBrackets text  := text
  equalFold          := (· = ·)
  hostPort ip _      := labEndpoint ip

def advert (ip : IP) (tier preference : UInt8) : Advert where
  nackAddr       := ip
  nackPort       := 9300
  tier           := tier
  preference     := preference
  beaconInterval := 10
  flags          := flagUnicastRetransmit
  instanceID     := .ofNat ip.toNat

def beacon (ip : IP) (tier preference : UInt8) : Registry.Event :=
  .upsert 0 (advert ip tier preference)

def entry (ip : IP) (tier preference : UInt8) : EndpointEntry where
  addr            := labEndpoint ip
  tier            := tier
  preference      := preference
  flags           := flagUnicastRetransmit
  expires         := 30 * 10 ^ 9
  instanceID      := .ofNat ip.toNat
  supportsUnicast := true

-- Node 1 lists itself first. Node 3 beacons, then node 2 does and expires.
theorem inOrder_beacons_first :
    let evs := [beacon 3 0 10, beacon 2 1 0, .evict (31 * 10 ^ 9), beacon 3 0 10]
    let r := discover lab [labEndpoint 1, labEndpoint 2, labEndpoint 3] "fd00::1" evs
    r.merged.map (·.addr) = [labEndpoint 3, labEndpoint 2, labEndpoint 1] ∧
      ∀ σ, InOrder lab "fd00::1" [labEndpoint 1, labEndpoint 2, labEndpoint 3] r
        (r.takeSnapshot σ).1 := by
  refine ⟨by decide +kernel, ?_⟩
  exact (inOrder_iff_ranked lab _ _ _ (by decide) (by decide)).mpr (by decide +kernel)

-- A beacon in the tier of the seeds comes after a seed, and this node's own beacon comes before the
-- endpoints of the other hosts.
theorem beacons_not_inOrder :
    (let r := discover lab [labEndpoint 2] "fd00::1" [beacon 3 255 0]
      ∀ σ, ¬InOrder lab "fd00::1" [labEndpoint 2] r (r.takeSnapshot σ).1) ∧
    (let r := discover lab [labEndpoint 1, labEndpoint 2] "fd00::1" [beacon 1 0 10]
      ∀ σ, ¬InOrder lab "fd00::1" [labEndpoint 1, labEndpoint 2] r (r.takeSnapshot σ).1) := by
  constructor
  case left =>
    intro r σ h
    have hp := takeSnapshot_discover σ ▸ h.beacons_first
    have hn :=
      σ.rel_of_less EndpointEntry.strictWeak hp (a := .seed 0 (labEndpoint 2)) (b := entry 3 255 0)
      (by decide +kernel) (by decide +kernel) (by decide +kernel)
    exact hn (by decide +kernel)
  case right =>
    intro r σ h
    have hp := takeSnapshot_discover σ ▸ h.self_last
    have hn :=
      σ.rel_of_less EndpointEntry.strictWeak hp (a := entry 1 0 10) (b := .seed 0 (labEndpoint 2))
      (by decide +kernel) (by decide +kernel) (by decide +kernel)
    exact hn (by decide +kernel)

end Lab

end Endpoints

end Nack
