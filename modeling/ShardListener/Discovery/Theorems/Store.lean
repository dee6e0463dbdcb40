import ShardListener.Discovery.Store
import ShardListener.Discovery.Theorems.Registry

namespace Discovery

namespace Registry

variable {txt : AddrText} {now : Time} {r : Registry} {a : Advert}

-- The entry of an ADVERT. An entry that is there keeps its InstanceID.
def advertised (txt : AddrText) (now : Time) (a : Advert) (instanceID : UInt32) :
    EndpointEntry where
  addr            := txt.hostPort a.nackAddr a.nackPort
  tier            := a.tier
  preference      := a.preference
  flags           := a.flags
  expires         := now + (a.beaconInterval.toNat * 3 * 10 ^ 9 : Duration)
  instanceID      := instanceID
  supportsUnicast := a.flags &&& flagUnicastRetransmit ≠ 0

-- `upsert` with the order of the map left as it is.
def upsertInPlace (txt : AddrText) (now : Time) (a : Advert) (r : Registry) : Registry :=
  match r.entries.lookup a.instanceID with
  | some _ =>
    { r with
      entries := r.entries.mapEntries fun id e =>
        if id = a.instanceID then advertised txt now a e.instanceID else e
      dirty := true }
  | none =>
    { r with
      entries := r.entries.insert a.instanceID (advertised txt now a a.instanceID)
      dirty := true }

-- The same registry but for the order of the map.
structure Alike (r r' : Registry) : Prop where
  entries  : ∀ id, r'.entries.lookup id = r.entries.lookup id
  seeds    : r'.seeds = r.seeds
  snapshot : r'.snapshot = r.snapshot
  dirty    : r'.dirty = r.dirty

theorem upsert_alike : Alike (r.upsert txt now a) (r.upsertInPlace txt now a) := by
  simp only [upsert, upsertInPlace]
  cases he : r.entries.lookup a.instanceID
  case none   => exact ⟨fun _ => rfl, rfl, rfl, rfl⟩
  case some e =>
    refine ⟨?_, rfl, rfl, rfl⟩
    intro id
    dsimp only
    rw [AList.lookup_mapEntries, AList.lookup_insert_eq_ite]
    by_cases hid : id = a.instanceID
    case pos => subst hid; simp only [he, Option.map_some, if_true]; rfl
    case neg => simp [hid]

-- The calls on the registry without the pointers. A caller has nothing to write to.
def operate (txt : AddrText) (r : Registry) : Store.Op → Registry
  | .upsert now a => r.upsertInPlace txt now a
  | .evict now    => r.evict now
  | .seed addrs   => r.seed addrs
  | .snapshot σ   => (r.takeSnapshot σ).2
  | .write _ _    => r
  | .store _ _    => r

end Registry

namespace Store

variable {txt : AddrText} {now : Time} {s : Store} {h : Heap EndpointEntry} {p : Ptr} {id : UInt32}
variable {σ : Sorter EndpointEntry.less} {a : Advert} {op : Op} {ops : List Op} {lent : List Ptr}

-- What the pointers stand for.
def contents (s : Store) : Registry where
  entries  := s.entries.mapEntries fun _ => s.heap.cells
  seeds    := s.seeds.map s.heap.cells
  snapshot := s.snapshot.map s.heap.read
  dirty    := s.dirty

-- The registry reads through the pointer.
def Owns (s : Store) (p : Ptr) : Prop :=
  (∃ id, s.entries.lookup id = some p) ∨ p ∈ s.seeds ∨ ∃ a ∈ s.snapshot, p = a ∨ p ∈ s.heap.arrays a

-- The entries of the beacons are apart from each other and from all else, and what the registry
-- reads through is not in the hands of a caller.
structure Separate (s : Store) : Prop where
  beacons : ∀ id id' p, s.entries.lookup id = some p → s.entries.lookup id' = some p → id = id'
  apart   : ∀ id p, s.entries.lookup id = some p → p ∉ s.seeds ∧
    ∀ a ∈ s.snapshot, p ∉ s.heap.arrays a
  owned   : ∀ p, s.Owns p → p < s.heap.next ∧ p ∉ s.lent
  lent    : ∀ p ∈ s.lent, p < s.heap.next

-- The contents depend only on what is behind the pointers of the registry.
theorem contents_congr (hc : ∀ p, s.Owns p → h.cells p = s.heap.cells p)
    (ha : ∀ a ∈ s.snapshot, h.arrays a = s.heap.arrays a) :
    ({ s with heap := h, lent := lent } : Store).contents = s.contents := by
  have hentries : s.entries.mapEntries (fun _ => h.cells) =
      s.entries.mapEntries fun _ => s.heap.cells :=
    AList.mapEntries_congr fun id p hp => hc p (.inl ⟨id, hp⟩)
  have hseeds : s.seeds.map h.cells = s.seeds.map s.heap.cells :=
    List.map_congr_left fun p hp => hc p (.inr (.inl hp))
  have hsnapshot : s.snapshot.map h.read = s.snapshot.map s.heap.read := by
    refine Option.map_congr ?_
    intro a hm
    exact Heap.read_congr (ha a hm) fun p hp => hc p (.inr (.inr ⟨a, hm, .inr hp⟩))
  simp only [contents, hentries, hseeds, hsnapshot]

namespace Separate

variable {l : List Ptr} {d : Bool}

theorem new : Separate new where
  beacons := nofun
  apart   := nofun
  owned   := by
    intro p hp
    rcases hp with ⟨_, hp⟩ | hp | ⟨_, hp, _⟩
    all_goals cases hp
  lent    := nofun

theorem snapshot_lt (hs : Separate s) {a : Ptr} (ha : a ∈ s.snapshot) : a < s.heap.next :=
  (hs.owned a (.inr (.inr ⟨a, ha, .inl rfl⟩))).1

-- Allocation does not touch what the registry reads.
theorem contents_extends (hs : Separate s) (he : s.heap.Extends h) :
    ({ s with heap := h, lent := l } : Store).contents = s.contents :=
  contents_congr (fun p hp => he.cells p (hs.owned p hp).1) fun _ ha =>
    he.arrays _ (hs.snapshot_lt ha)

theorem owns_extends (hs : Separate s) (he : s.heap.Extends h)
    (hp : ({ s with heap := h, dirty := d, lent := l } : Store).Owns p) : s.Owns p := by
  refine hp.imp_right (.imp_right ?_)
  intro ⟨a, ha, hp⟩
  exact ⟨a, ha, by rwa [he.arrays a (hs.snapshot_lt ha)] at hp⟩

-- New cells are lent, or not.
theorem of_extends_lent (hs : Separate s) (he : s.heap.Extends h)
    (hl : ∀ p ∈ l, p ∈ s.lent ∨ s.heap.next ≤ p ∧ p < h.next) :
    Separate { s with heap := h, dirty := d, lent := l } where
  beacons := hs.beacons
  apart   := by
    intro id p hp
    have ⟨hseeds, hcache⟩ := hs.apart id p hp
    refine ⟨hseeds, fun a ha => ?_⟩
    rw [he.arrays a (hs.snapshot_lt ha)]
    exact hcache a ha
  owned   := by
    intro p hp
    have ⟨hlt, hnl⟩ := hs.owned p (hs.owns_extends he hp)
    refine ⟨hlt.trans_le he.next, fun hm => ?_⟩
    exact (hl p hm).elim hnl fun hge => hge.1.not_gt hlt
  lent    := fun p hm => (hl p hm).elim (fun hm => (hs.lent p hm).trans_le he.next) (·.2)

theorem of_extends (hs : Separate s) (he : s.heap.Extends h) :
    Separate { s with heap := h, dirty := d } :=
  hs.of_extends_lent he fun _ hm => .inl hm

-- The entry of a beacon gets a cell that is not in use.
theorem insert (hs : Separate s) (hp : p < s.heap.next) (hn : ¬s.Owns p) (hl : p ∉ s.lent) :
    Separate { s with entries := s.entries.insert id p, dirty := d } := by
  have hold (id' : UInt32) (q : Ptr) (hq : (s.entries.insert id p).lookup id' = some q) :
      id' = id ∧ q = p ∨ s.entries.lookup id' = some q := by
    rw [AList.lookup_insert_eq_ite] at hq
    split at hq
    case isTrue e  => exact .inl ⟨e, (Option.some.inj hq).symm⟩
    case isFalse _ => exact .inr hq
  constructor
  case beacons =>
    intro id₁ id₂ q h₁ h₂
    rcases hold id₁ q h₁ with ⟨e₁, eq₁⟩ | h₁
    case inl =>
      rcases hold id₂ q h₂ with ⟨e₂, _⟩ | h₂
      case inl => exact e₁.trans e₂.symm
      case inr => exact absurd (.inl ⟨id₂, eq₁ ▸ h₂⟩) hn
    case inr =>
      rcases hold id₂ q h₂ with ⟨_, eq₂⟩ | h₂
      case inl => exact absurd (.inl ⟨id₁, eq₂ ▸ h₁⟩) hn
      case inr => exact hs.beacons id₁ id₂ q h₁ h₂
  case apart =>
    intro id' q hq
    rcases hold id' q hq with ⟨_, e⟩ | hq
    case inl =>
      subst e
      exact ⟨fun hm => hn (.inr (.inl hm)), fun a ha hm => hn (.inr (.inr ⟨a, ha, .inr hm⟩))⟩
    case inr => exact hs.apart id' q hq
  case owned =>
    intro q hq
    rcases hq with ⟨id', hq⟩ | hq
    case inl =>
      rcases hold id' q hq with ⟨_, e⟩ | hq
      case inl => subst e; exact ⟨hp, hl⟩
      case inr => exact hs.owned q (.inl ⟨id', hq⟩)
    case inr => exact hs.owned q (.inr hq)
  case lent => exact hs.lent

theorem erase (hs : Separate s) :
    Separate { s with entries := s.entries.erase id, dirty := d } := by
  have hold (id' : UInt32) (q : Ptr) (hq : (s.entries.erase id).lookup id' = some q) :
      s.entries.lookup id' = some q := by
    rw [AList.lookup_erase_eq_ite] at hq
    split at hq
    case isTrue  => cases hq
    case isFalse => exact hq
  constructor
  case beacons => exact fun id₁ id₂ q h₁ h₂ => hs.beacons id₁ id₂ q (hold id₁ q h₁) (hold id₂ q h₂)
  case apart   => exact fun id' q hq => hs.apart id' q (hold id' q hq)
  case owned   => exact fun q hq => hs.owned q (hq.imp_left fun ⟨id', hq⟩ => ⟨id', hold id' q hq⟩)
  case lent    => exact hs.lent

theorem evict (hs : Separate s) : Separate (s.evict now) := by
  rw [Store.evict]
  induction s.entries.keys generalizing s
  case nil => exact hs
  case cons id ids hi =>
    refine hi ?_
    simp only [evictEntry]
    split
    case h_1 =>
      split
      case isTrue  => exact hs.erase
      case isFalse => exact hs
    case h_2 => exact hs

theorem upsert (hs : Separate s) : Separate (s.upsert txt now a) := by
  simp only [Store.upsert]
  split
  case h_1 => exact ⟨hs.beacons, hs.apart, hs.owned, hs.lent⟩
  case h_2 =>
    have he :
        Separate { s with heap := (s.heap.alloc (Registry.advertised txt now a a.instanceID)).2 } :=
      hs.of_extends .alloc
    refine he.insert (Nat.lt_succ_self _) (fun hp => ?_) fun hm => ?_
    case refine_1 => exact (hs.owned _ (hs.owns_extends .alloc hp)).1.false
    case refine_2 => exact (hs.lent _ hm).false

theorem seed {addrs : List String} (hs : Separate s) : Separate (s.seed addrs) := by
  have he : s.heap.Extends (s.heap.allocAll (addrs.mapIdx EndpointEntry.seed)).2 := .allocAll
  have hs' : Separate { s with heap := (s.heap.allocAll (addrs.mapIdx EndpointEntry.seed)).2 } :=
    hs.of_extends he
  constructor
  case beacons => exact hs.beacons
  case apart =>
    intro id p hp
    refine ⟨fun hm => ?_, (hs'.apart id p hp).2⟩
    exact (Heap.mem_allocAll hm).1.not_gt (hs.owned p (.inl ⟨id, hp⟩)).1
  case owned =>
    intro p hp
    rcases hp with hp | hp | hp
    case inl => exact hs'.owned p (.inl hp)
    case inr.inl =>
      have ⟨hge, hlt⟩ := Heap.mem_allocAll hp
      exact ⟨hlt, fun hm => hge.not_gt (hs.lent p hm)⟩
    case inr.inr => exact hs'.owned p (.inr (.inr hp))
  case lent => exact hs'.lent

-- The stored snapshot gets an array and cells of its own.
theorem cached (hs : Separate s) : Separate (s.cached σ).2 := by
  simp only [Store.cached]
  split
  case h_1 => exact hs
  case h_2 =>
    have he : s.heap.Extends (s.heap.slice (σ.sort (s.merged.map s.heap.cells))).2 := .slice
    have hs' : Separate { s with heap := (s.heap.slice (σ.sort (s.merged.map s.heap.cells))).2 } :=
      hs.of_extends he
    have hnew (p : Ptr) (hp : s.heap.next ≤ p) : p ∉ s.lent := fun hm => hp.not_gt (hs.lent p hm)
    constructor
    case beacons => exact hs.beacons
    case apart =>
      intro id p hp
      refine ⟨(hs.apart id p hp).1, ?_⟩
      intro a ha hm
      cases ha
      exact (Heap.mem_slice hm).1.not_gt (hs.owned p (.inl ⟨id, hp⟩)).1
    case owned =>
      intro p hp
      rcases hp with hp | hp | ⟨a, ha, hp⟩
      case inl     => exact hs'.owned p (.inl hp)
      case inr.inl => exact hs'.owned p (.inr (.inl hp))
      case inr.inr =>
        cases ha
        have ⟨hge, hlt⟩ := hp.elim (fun e => e ▸ Heap.slice_fst) Heap.mem_slice
        exact ⟨hlt, hnew p hge⟩
    case lent => exact hs'.lent

theorem takeSnapshot (hs : Separate s) : Separate (s.takeSnapshot σ).2 := by
  refine hs.cached.of_extends_lent .slice ?_
  intro p hm
  rcases List.mem_cons.mp hm with e | hm
  case inl => exact .inr (e ▸ Heap.slice_fst)
  case inr => exact (List.mem_append.mp hm).symm.imp_right Heap.mem_slice

theorem write {e : EndpointEntry} (hs : Separate s) :
    Separate { s with heap := s.heap.write p e } :=
  ⟨hs.beacons, hs.apart, hs.owned, hs.lent⟩

-- A list that is lent is not the stored one.
theorem arrays_store {ps : List Ptr} (hs : Separate s) (hp : p ∈ s.lent) {a : Ptr}
    (ha : a ∈ s.snapshot) : (s.heap.store p ps).arrays a = s.heap.arrays a := by
  have hne : a ≠ p := by
    intro e
    subst e
    exact (hs.owned a (.inr (.inr ⟨a, ha, .inl rfl⟩))).2 hp
  exact Function.update_of_ne hne _ _

theorem store {ps : List Ptr} (hs : Separate s) (hp : p ∈ s.lent) :
    Separate { s with heap := s.heap.store p ps } where
  beacons := hs.beacons
  apart   := by
    intro id q hq
    refine ⟨(hs.apart id q hq).1, fun a ha => ?_⟩
    rw [hs.arrays_store hp ha]
    exact (hs.apart id q hq).2 a ha
  owned   := by
    intro q hq
    refine hs.owned q (hq.imp_right (.imp_right ?_))
    intro ⟨a, ha, hq⟩
    rw [hs.arrays_store hp ha] at hq
    exact ⟨a, ha, hq⟩
  lent    := hs.lent

theorem step (hs : Separate s) : Separate (s.step txt op) := by
  cases op
  case upsert   => exact hs.upsert
  case evict    => exact hs.evict
  case seed     => exact hs.seed
  case snapshot => exact hs.takeSnapshot
  case write =>
    simp only [Store.step]
    split
    case isTrue  => exact hs.write
    case isFalse => exact hs
  case store =>
    simp only [Store.step]
    split
    case isTrue hp => exact hs.store hp
    case isFalse   => exact hs

end Separate

-- What the calls do to the contents.

theorem upsert_of_some (hp : s.entries.lookup a.instanceID = some p) :
    s.upsert txt now a =
      { s with
        heap  := s.heap.write p (Registry.advertised txt now a (s.heap.cells p).instanceID)
        dirty := true } := by
  simp only [upsert, hp]
  rfl

theorem upsert_of_none (hp : s.entries.lookup a.instanceID = none) :
    s.upsert txt now a =
      { s with
        heap    := (s.heap.alloc (Registry.advertised txt now a a.instanceID)).2
        entries := s.entries.insert a.instanceID s.heap.next
        dirty   := true } := by
  simp only [upsert, hp]
  rfl

-- A write to the entry of a beacon changes that entry only.
theorem contents_write {e : EndpointEntry} (hs : Separate s) (hp : s.entries.lookup id = some p) :
    ({ s with heap := s.heap.write p e } : Store).contents =
      { s.contents with
        entries := s.entries.mapEntries fun id' q => if id' = id then e else s.heap.cells q } := by
  have ⟨hseeds, hcache⟩ := hs.apart id p hp
  have hcells (q : Ptr) (hq : q ≠ p) : (s.heap.write p e).cells q = s.heap.cells q :=
    Function.update_of_ne hq _ _
  have h₁ : s.entries.mapEntries (fun _ => (s.heap.write p e).cells) =
      s.entries.mapEntries fun id' q => if id' = id then e else s.heap.cells q := by
    refine AList.mapEntries_congr ?_
    intro id' q hq
    split
    case isTrue heq =>
      cases hp.symm.trans (heq ▸ hq)
      exact Function.update_self _ _ _
    case isFalse hne => exact hcells q fun heq => hne (hs.beacons id' id p (heq ▸ hq) hp)
  have h₂ : s.seeds.map (s.heap.write p e).cells = s.seeds.map s.heap.cells :=
    List.map_congr_left fun q hq => hcells q fun heq => hseeds (heq ▸ hq)
  have h₃ : s.snapshot.map (s.heap.write p e).read = s.snapshot.map s.heap.read := by
    refine Option.map_congr ?_
    intro a ha
    exact Heap.read_congr rfl fun q hq => hcells q fun heq => hcache a ha (heq ▸ hq)
  simp only [contents, h₁, h₂, h₃]

theorem contents_upsert (hs : Separate s) :
    (s.upsert txt now a).contents = s.contents.upsertInPlace txt now a := by
  have hl : s.contents.entries.lookup a.instanceID =
      (s.entries.lookup a.instanceID).map s.heap.cells :=
    AList.lookup_mapEntries
  rw [Registry.upsertInPlace, hl]
  cases hp : s.entries.lookup a.instanceID
  case none =>
    have e :
        contents { s with
          heap := (s.heap.alloc (Registry.advertised txt now a a.instanceID)).2 } = s.contents :=
      hs.contents_extends .alloc
    have hnew : (s.heap.alloc (Registry.advertised txt now a a.instanceID)).2.cells s.heap.next =
      Registry.advertised txt now a a.instanceID := Heap.alloc_cell
    rw [upsert_of_none hp, ← e]
    simp only [contents, AList.mapEntries_insert, hnew, Option.map_none]
  case some p =>
    rw [upsert_of_some hp]
    have e :
        contents { s with
          heap :=
            s.heap.write p (Registry.advertised txt now a (s.heap.cells p).instanceID) } = _ :=
      contents_write hs hp
    simp only [contents, Registry.mk.injEq] at e
    simp only [contents, e, Option.map_some, AList.mapEntries_mapEntries]
    refine congrArg (Registry.mk · _ _ _) (AList.mapEntries_congr ?_)
    intro id q hq
    split
    case isTrue heq =>
      cases hp.symm.trans (heq ▸ hq)
      rfl
    case isFalse => rfl

theorem contents_evict : (s.evict now).contents = s.contents.evict now := by
  have hkeys : s.contents.entries.keys = s.entries.keys := AList.keys_mapEntries
  rw [evict, Registry.evict, hkeys]
  induction s.entries.keys generalizing s
  case nil => rfl
  case cons id ids hi =>
    have he : (s.evictEntry now id).contents = s.contents.evictEntry now id := by
      simp only [evictEntry, Registry.evictEntry, contents, AList.lookup_mapEntries]
      cases s.entries.lookup id
      case none => rfl
      case some p =>
        dsimp only [Option.map_some]
        split
        case isTrue  => simp only [AList.mapEntries_erase]
        case isFalse => rfl
    rw [List.foldl_cons, List.foldl_cons, ← he]
    exact hi AList.keys_mapEntries

theorem contents_seed {addrs : List String} (hs : Separate s) :
    (s.seed addrs).contents = s.contents.seed addrs := by
  have e :
      ({ s with heap := (s.heap.allocAll (addrs.mapIdx EndpointEntry.seed)).2 } : Store).contents =
    s.contents := hs.contents_extends .allocAll
  simp only [contents, Registry.mk.injEq] at e
  simp only [seed, Registry.seed, contents, e.1, e.2.2.1, Heap.allocAll_cells]

theorem merged_contents : s.contents.merged = s.merged.map s.heap.cells := by
  have hb : s.contents.beacons = s.beacons.map s.heap.cells := by
    simp [Registry.beacons, contents, AList.mapEntries, beacons, Function.comp_def]
  have hseen (addr : String) : s.contents.seen addr = s.seen addr := by
    simp [Registry.seen, seen, hb, Function.comp_def]
  have hseeds : s.contents.seeds = s.seeds.map s.heap.cells := rfl
  simp only [Registry.merged, merged, hb, hseen, hseeds, List.map_append,
    List.filter_map, Function.comp_def]

theorem cached_of_stale (h : s.dirty = true ∨ s.snapshot = none) :
    s.cached σ =
      let r := s.heap.slice (σ.sort (s.merged.map s.heap.cells))
      (r.1, { s with heap := r.2, snapshot := some r.1, dirty := false }) := by
  simp only [cached]
  split
  case h_1 hd hn => simp [hd, hn] at h
  case h_2       => rfl

-- A rebuild, and the stored snapshot as it is read.
theorem contents_cached_of_stale (hs : Separate s) (h : s.dirty = true ∨ s.snapshot = none) :
    (s.cached σ).2.heap.read (s.cached σ).1 = σ.sort s.contents.merged ∧
      (s.cached σ).2.contents =
        { s.contents with snapshot := some (σ.sort s.contents.merged), dirty := false } := by
  have e :
      ({ s with heap := (s.heap.slice (σ.sort (s.merged.map s.heap.cells))).2 } : Store).contents =
    s.contents := hs.contents_extends .slice
  rw [cached_of_stale h, merged_contents, ← e]
  refine ⟨Heap.read_slice, ?_⟩
  simp only [contents, Option.map_some, Heap.read_slice]

theorem contents_cached (hs : Separate s) :
    (s.cached σ).2.heap.read (s.cached σ).1 = (s.contents.takeSnapshot σ).1 ∧
      (s.cached σ).2.contents = (s.contents.takeSnapshot σ).2 := by
  have hd : s.contents.dirty = s.dirty := rfl
  have hn : s.contents.snapshot = s.snapshot.map s.heap.read := rfl
  simp only [Registry.takeSnapshot, hd, hn]
  cases hdirty : s.dirty
  case true => exact contents_cached_of_stale hs (.inl hdirty)
  case false =>
    cases hsnap : s.snapshot
    case none   => exact contents_cached_of_stale hs (.inr hsnap)
    case some a =>
      have e : s.cached σ = (a, s) := by simp only [cached, hdirty, hsnap]
      rw [e]
      exact ⟨rfl, rfl⟩

theorem returned_eq (hs : Separate s) : s.returned σ = (s.contents.takeSnapshot σ).1 :=
  Heap.read_slice.trans (contents_cached hs).1

theorem contents_takeSnapshot (hs : Separate s) :
    (s.takeSnapshot σ).2.contents = (s.contents.takeSnapshot σ).2 :=
  (hs.cached.contents_extends .slice).trans (contents_cached hs).2

-- A caller cannot reach what the registry reads.
theorem contents_step (hs : Separate s) : (s.step txt op).contents = s.contents.operate txt op := by
  cases op
  case upsert   => exact contents_upsert hs
  case evict    => exact contents_evict
  case seed     => exact contents_seed hs
  case snapshot => exact contents_takeSnapshot hs
  case write p e =>
    simp only [step, Registry.operate]
    split
    case isFalse => rfl
    case isTrue hp =>
      refine contents_congr (fun q hq => ?_) fun _ _ => rfl
      have hne : q ≠ p := by
        rintro rfl
        exact (hs.owned q hq).2 hp
      exact Function.update_of_ne hne _ _
  case store p ps =>
    simp only [step, Registry.operate]
    split
    case isFalse   => rfl
    case isTrue hp => exact contents_congr (fun _ _ => rfl) fun _ ha => hs.arrays_store hp ha

theorem contents_exec (txt : AddrText) (ops : List Op) (hs : Separate s) :
    (Run.exec (step txt) s ops).contents = Run.exec (Registry.operate txt) s.contents ops ∧
      Separate (Run.exec (step txt) s ops) := by
  induction ops generalizing s
  case nil => exact ⟨rfl, hs⟩
  case cons op ops hi =>
    have ⟨h₁, h₂⟩ := hi (s := s.step txt op) hs.step
    exact ⟨h₁.trans (by rw [contents_step hs]; rfl), h₂⟩

end Store
end Discovery
