import ShardListener.Discovery.Theorems.Store

namespace Discovery

variable {txt : AddrText} {now : Time} {a : Advert} {id : UInt32} {σ : Sorter EndpointEntry.less}

-- What the registry is to know: for each InstanceID the entry of its latest ADVERT, until that has
-- expired, and the seeds of the latest `Seed`.
structure Roster where
  beacon : UInt32 → Option EndpointEntry
  seeds  : List EndpointEntry

namespace Roster

def empty : Roster where
  beacon _ := none
  seeds    := []

def step (txt : AddrText) (ro : Roster) : Store.Op → Roster
  | .upsert now a =>
    { ro with
      beacon :=
        Function.update ro.beacon a.instanceID (some (Registry.advertised txt now a a.instanceID)) }
  | .evict now    => { ro with beacon := fun id => (ro.beacon id).filter (now ≤ ·.expires) }
  | .seed addrs   => { ro with seeds := addrs.mapIdx EndpointEntry.seed }
  | _             => ro

-- The list of the beacons, one for each InstanceID.
structure Lists (ro : Roster) (bs : List EndpointEntry) : Prop where
  nodup : (bs.map (·.instanceID)).Nodup
  mem   : ∀ e, e ∈ bs ↔ ro.beacon e.instanceID = some e

end Roster

namespace Registry

variable {r : Registry} {ro : Roster} {op : Store.Op} {ops : List Store.Op}

-- The registry has the entries of the roster, under their InstanceIDs.
structure Recounts (ro : Roster) (r : Registry) : Prop where
  entries    : ∀ id, r.entries.lookup id = ro.beacon id
  seeds      : r.seeds = ro.seeds
  instanceID : ∀ id e, ro.beacon id = some e → e.instanceID = id

theorem lookup_evictEntry {id' : UInt32} :
    (r.evictEntry now id').entries.lookup id =
      if id = id' then (r.entries.lookup id).filter (now ≤ ·.expires) else r.entries.lookup id := by
  by_cases hid : id = id'
  case pos =>
    subst hid
    rw [if_pos rfl, evictEntry]
    cases he : r.entries.lookup id
    case none => simp [he]
    case some e =>
      by_cases hlt : e.expires < now
      case pos => simp [Option.filter_some, hlt]
      case neg => simp [Option.filter_some, he, hlt]
  case neg =>
    rw [if_neg hid, evictEntry]
    cases r.entries.lookup id'
    case none => rfl
    case some e =>
      by_cases hlt : e.expires < now
      case pos => simp [hlt, hid]
      case neg => simp [hlt]

-- The loop of `Evict` over some of the entries.
theorem lookup_foldl_evictEntry {ids : List UInt32} :
    (ids.foldl (evictEntry now) r).entries.lookup id =
      if id ∈ ids then (r.entries.lookup id).filter (now ≤ ·.expires) else r.entries.lookup id := by
  induction ids generalizing r
  case nil => rfl
  case cons id' ids hi =>
    rw [List.foldl_cons, hi, lookup_evictEntry]
    by_cases hid : id = id'
    case pos => simp [hid, Option.filter_filter]
    case neg => simp [hid]

theorem lookup_evict :
    (r.evict now).entries.lookup id = (r.entries.lookup id).filter (now ≤ ·.expires) := by
  rw [evict, lookup_foldl_evictEntry]
  split
  case isTrue => rfl
  case isFalse hid =>
    have hn : r.entries.lookup id = none := AList.lookup_eq_none.mpr (mt AList.mem_keys.mp hid)
    rw [hn]
    rfl

namespace Recounts

theorem alike {r' : Registry} (h : Recounts ro r) (e : Alike r r') : Recounts ro r' where
  entries    := fun id => (e.entries id).trans (h.entries id)
  seeds      := e.seeds.trans h.seeds
  instanceID := h.instanceID

-- An entry that is refreshed has the InstanceID of the ADVERT, so that nothing of it is left.
theorem upsert (h : Recounts ro r) :
    Recounts (ro.step txt (.upsert now a)) (r.upsert txt now a) where
  entries := by
    intro id
    simp only [Registry.upsert, Roster.step, AList.lookup_insert_eq_ite,
      Function.update_apply, h.entries]
    split
    case isFalse => rfl
    case isTrue =>
      cases he : ro.beacon a.instanceID
      case none   => rfl
      case some e => simp only [advertised, h.instanceID a.instanceID e he]
  seeds := h.seeds
  instanceID := by
    intro id e he
    simp only [Roster.step, Function.update_apply] at he
    split at he
    case isTrue heq => cases he; exact heq.symm
    case isFalse    => exact h.instanceID id e he

theorem evict (h : Recounts ro r) : Recounts (ro.step txt (.evict now)) (r.evict now) where
  entries    := fun id => by rw [lookup_evict, h.entries]; rfl
  seeds      := Touched.foldl_evictEntry.seeds_eq.trans h.seeds
  instanceID := fun id e he => h.instanceID id e (Option.filter_eq_some_iff.mp he).1

theorem takeSnapshot (h : Recounts ro r) : Recounts ro (r.takeSnapshot σ).2 := by
  simp only [Registry.takeSnapshot]
  split
  case h_1 => exact h
  case h_2 => exact ⟨h.entries, h.seeds, h.instanceID⟩

theorem operate (h : Recounts ro r) : Recounts (ro.step txt op) (r.operate txt op) := by
  cases op
  case upsert   => exact h.upsert.alike upsert_alike
  case evict    => exact h.evict
  case seed     => exact ⟨h.entries, rfl, h.instanceID⟩
  case snapshot => exact h.takeSnapshot
  case write    => exact h
  case store    => exact h

theorem mem_beacons (h : Recounts ro r) {e : EndpointEntry} :
    e ∈ r.beacons ↔ ro.beacon e.instanceID = some e := by
  rw [← h.entries, beacons, List.mem_map]
  constructor
  case mp =>
    rintro ⟨x, hx, e⟩
    subst e
    have hl := AList.mem_entries_iff.mp hx
    rwa [h.instanceID x.1 x.2 ((h.entries x.1).symm.trans hl)]
  case mpr => exact fun hl => ⟨⟨e.instanceID, e⟩, AList.mem_entries_iff.mpr hl, rfl⟩

theorem lists (h : Recounts ro r) : ro.Lists r.beacons where
  nodup := by
    have hk : r.beacons.map (·.instanceID) = r.entries.keys := by
      rw [beacons, List.map_map]
      refine List.map_congr_left ?_
      intro x hx
      exact h.instanceID x.1 x.2 ((h.entries x.1).symm.trans (AList.mem_entries_iff.mp hx))
    rw [hk]
    exact r.entries.keys_nodup
  mem   := fun _ => h.mem_beacons

end Recounts

theorem Fresh.operate (h : Fresh r) : Fresh (r.operate txt op) := by
  cases op
  case upsert     => exact fun hf => absurd (hf.symm.trans upsert_alike.dirty) Bool.false_ne_true
  case evict      => exact h.touched .foldl_evictEntry
  case seed       => exact .seed
  case snapshot σ => exact (h.takeSnapshot σ).2
  case write      => exact h
  case store      => exact h

theorem exec_operate (txt : AddrText) (ops : List Store.Op) (hf : Fresh r) (hr : Recounts ro r) :
    Fresh (Run.exec (operate txt) r ops) ∧
      Recounts (Run.exec (Roster.step txt) ro ops) (Run.exec (operate txt) r ops) := by
  induction ops generalizing r ro
  case nil            => exact ⟨hf, hr⟩
  case cons op ops hi => exact hi hf.operate hr.operate

-- What a caller does to the lists that it got is nothing to the registry.
theorem exec_operate_filter :
    Run.exec (operate txt) r ops = Run.exec (operate txt) r (ops.filter Store.Op.isCall) := by
  induction ops generalizing r
  case nil            => rfl
  case cons op ops hi => cases op <;> exact hi

end Registry

-- The order of a snapshot: by tier, and by preference within a tier.
def EndpointEntry.Before (a b : EndpointEntry) : Prop :=
  a.tier < b.tier ∨ a.tier = b.tier ∧ b.preference ≤ a.preference

theorem EndpointEntry.before_of_not_less {a b : EndpointEntry} (h : ¬b.less a) : a.Before b := by
  rw [less_iff] at h
  rw [Before, UInt8.lt_iff_toNat_lt, UInt8.le_iff_toNat_le, ← UInt8.toNat_inj]
  omega

-- A snapshot of a registry that recounts the roster.
theorem Registry.Recounts.snapshot {r : Registry} {ro : Roster} (h : Recounts ro r) (hf : Fresh r)
    (σ : Sorter EndpointEntry.less) :
    (r.takeSnapshot σ).1.Pairwise EndpointEntry.Before ∧
    ∃ bs, ro.Lists bs ∧
      (r.takeSnapshot σ).1.Perm (bs ++ ro.seeds.filter (·.addr ∉ bs.map (·.addr))) := by
  have ⟨⟨σ', e⟩, _⟩ := hf.takeSnapshot σ
  rw [e]
  refine ⟨(σ'.sorted _).imp EndpointEntry.before_of_not_less, r.beacons, h.lists, ?_⟩
  have hmerged : r.merged = r.beacons ++ ro.seeds.filter (·.addr ∉ r.beacons.map (·.addr)) := by
    simp only [merged, seen, h.seeds, decide_not]
  rw [← hmerged]
  exact σ'.perm r.merged

namespace Store

theorem returned_exec (txt : AddrText) (ops : List Op) (σ : Sorter EndpointEntry.less) :
    (Run.exec (step txt) new ops).returned σ =
      ((Run.exec (Registry.operate txt) .new ops).takeSnapshot σ).1 := by
  have ⟨e, hs⟩ := contents_exec txt ops Separate.new
  rw [returned_eq hs, e]
  rfl

-- A snapshot lists the beacons and the seeds of the roster in order, whatever callers have done to
-- the snapshots before.
theorem returned_current {ops : List Op} :
    ((Run.exec (step txt) new ops).returned σ).Pairwise EndpointEntry.Before ∧
    (∃ bs, (Run.exec (Roster.step txt) .empty ops).Lists bs ∧
      ((Run.exec (step txt) new ops).returned σ).Perm
        (bs ++ (Run.exec (Roster.step txt) .empty ops).seeds.filter (·.addr ∉ bs.map (·.addr)))) ∧
    (Run.exec (step txt) new ops).returned σ =
      (Run.exec (step txt) new (ops.filter Op.isCall)).returned σ := by
  have hnew : Registry.Recounts .empty .new := ⟨fun _ => rfl, rfl, nofun⟩
  have ⟨hfresh, hrecounts⟩ := Registry.exec_operate txt ops .new hnew
  have ⟨hsorted, hperm⟩ := hrecounts.snapshot hfresh σ
  rw [returned_exec, returned_exec, ← Registry.exec_operate_filter]
  exact ⟨hsorted, hperm, rfl⟩

end Store
end Discovery
