import ShardListener.Discovery.Beacon
import ShardListener.Discovery.Theorems.Snapshot

namespace Discovery

variable {μ : Type} {txt : AddrText} {decodeShardManifest : Bytes → Option μ} {e e' : EndpointEntry}

-- The beacon in a datagram, unless its sender is draining.
def beaconIn (bytes : Bytes) : Option Advert :=
  match decodeADVERT bytes with
  | .error _ => none
  | .ok a    => if a.flags &&& flagDraining ≠ 0 then none else some a.toAdvert

theorem decodeADVERT_take {n : ℕ} {bytes : Bytes} (hn : advertSize ≤ n) :
    decodeADVERT (bytes.take n) = decodeADVERT bytes := by
  have hs : (bytes.take n).length < advertSize ↔ bytes.length < advertSize := by
    rw [List.length_take]
    omega
  have hget (i : ℕ) (hi : i < 56) : (bytes.take n).getD i 0 = bytes.getD i 0 := by
    have : i < n := lt_of_lt_of_le hi hn
    simp [List.getD_eq_getElem?_getD, List.getElem?_take_of_lt this]
  have hpart (i k : ℕ) (h : i + k ≤ 56) : ((bytes.take n).drop i).take k =
      (bytes.drop i).take k := by
    have : 56 ≤ n := hn
    rw [List.drop_take, List.take_take, min_eq_left (by omega)]
  have hmagic := hpart 0 4 (by omega)
  rw [List.drop_zero, List.drop_zero] at hmagic
  simp only [decodeADVERT, hs, hget 6 (by omega), hget 7 (by omega), hget 26 (by omega),
    hget 27 (by omega), hpart 8 16 (by omega), hpart 24 2 (by omega), hpart 28 2 (by omega),
    hpart 30 2 (by omega), hpart 32 4 (by omega), hmagic]

-- Neither the size of the buffer nor the look at the message type changes what comes of a beacon.
theorem BeaconListener.registry_receive {bl : BeaconListener μ} {now : Time} {src : IP}
    {bytes : Bytes} :
    (bl.receive txt decodeShardManifest now src bytes).registry =
      match beaconIn bytes with
      | none   => bl.registry
      | some a => bl.registry.upsert txt now a := by
  have htake : decodeADVERT (bytes.take readBufSize) = decodeADVERT bytes :=
    decodeADVERT_take (by decide)
  rw [beaconIn, ← htake]
  simp only [receive]
  split
  case isTrue hlt =>
    have hshort : (bytes.take readBufSize).length < advertSize := by
      simp only [advertSize]
      omega
    simp only [decodeADVERT, if_pos hshort]
  case isFalse =>
    split
    case isTrue =>
      unfold handleADVERT
      cases decodeADVERT (bytes.take readBufSize)
      case error => rfl
      case ok =>
        dsimp only
        split <;> rfl
    case isFalse htype =>
      have hother : ∃ err, decodeADVERT (bytes.take readBufSize) = .error err := by
        unfold decodeADVERT
        split_ifs <;> exact ⟨_, rfl⟩
      obtain ⟨err, he⟩ := hother
      rw [he]
      dsimp only
      split
      case isTrue =>
        unfold handleManifest
        split <;> rfl
      case isFalse => rfl

namespace BeaconListener

variable {ev : Event} {evs : List Event}

-- The entry that the event makes.
def Event.advertises (txt : AddrText) (ev : Event) (e : EndpointEntry) : Prop :=
  match ev with
  | .datagram now _ bytes =>
    ∃ a, beaconIn bytes = some a ∧ e = Registry.advertised txt now a a.instanceID
  | _                     => False

-- The event leaves an entry in the registry: it is no later beacon of the same instance, and no
-- eviction after the entry has expired.
def Event.Spares (ev : Event) (e : EndpointEntry) : Prop :=
  match ev with
  | .datagram _ _ bytes => ∀ a, beaconIn bytes = some a → a.instanceID ≠ e.instanceID
  | .evict now          => now ≤ e.expires
  | .snapshot _         => True

-- The entry is of the last beacon of its instance, and has not been evicted.
def Live (txt : AddrText) (evs : List Event) (e : EndpointEntry) : Prop :=
  ∃ before ev after, evs = before ++ ev :: after ∧ ev.advertises txt e ∧ ∀ ev' ∈ after, ev'.Spares e

theorem not_live_nil : ¬Live txt [] e := by
  rintro ⟨before, ev, after, h, _⟩
  cases before <;> cases h

theorem live_snoc :
    Live txt (evs ++ [ev]) e ↔ ev.advertises txt e ∨ Live txt evs e ∧ ev.Spares e := by
  constructor
  case mp =>
    rintro ⟨before, ev₀, after, h, hadv, hafter⟩
    rcases List.eq_nil_or_concat after with rfl | ⟨rest, last, rfl⟩
    case inl =>
      obtain ⟨_, h⟩ := List.append_inj' h rfl
      cases h
      exact .inl hadv
    case inr =>
      rw [List.concat_eq_append, ← List.cons_append, ← List.append_assoc] at h
      obtain ⟨rfl, hlast⟩ := List.append_inj' h rfl
      obtain rfl := List.singleton_inj.mp hlast
      simp only [List.concat_eq_append, List.mem_append, List.mem_singleton] at hafter
      exact .inr ⟨⟨before, ev₀, rest, rfl, hadv, fun ev' h => hafter ev' (.inl h)⟩,
        hafter ev (.inr rfl)⟩
  case mpr =>
    rintro (hadv | ⟨⟨before, ev₀, after, rfl, hadv, hafter⟩, hs⟩)
    case inl => exact ⟨evs, ev, [], rfl, hadv, by simp⟩
    case inr =>
      refine ⟨before, ev₀, after ++ [ev], by simp, hadv, fun ev' h => ?_⟩
      rcases List.mem_append.mp h with h | h
      case inl => exact hafter ev' h
      case inr => exact List.mem_singleton.mp h ▸ hs

-- The roster has the live entries, under their InstanceIDs.
def Lists (txt : AddrText) (evs : List Event) (ro : Roster) : Prop :=
  ∀ id e, ro.beacon id = some e ↔ Live txt evs e ∧ e.instanceID = id

theorem Lists.keep {ro : Roster} (h : Lists txt evs ro) (hadv : ∀ e, ¬ev.advertises txt e)
    (hs : ∀ e, ev.Spares e) : Lists txt (evs ++ [ev]) ro := by
  intro id e
  rw [h id e, live_snoc, or_iff_right (hadv e), and_iff_left (hs e)]

theorem Lists.evict {ro : Roster} {now : Time} (h : Lists txt evs ro) :
    Lists txt (evs ++ [.evict now]) (ro.step txt (.evict now)) := by
  intro id e
  have hadv : ¬Event.advertises txt (.evict now) e := fun h => h
  simp only [Roster.step, Option.filter_eq_some_iff, h id e, live_snoc,
    or_iff_right hadv, decide_eq_true_eq]
  exact and_right_comm

theorem Lists.upsert {ro : Roster} {now : Time} {src : IP} {bytes : Bytes} {a : Advert}
    (h : Lists txt evs ro) (ha : beaconIn bytes = some a) :
    Lists txt (evs ++ [.datagram now src bytes]) (ro.step txt (.upsert now a)) := by
  intro id e
  have hadv : Event.advertises txt (.datagram now src bytes) e ↔
      e = Registry.advertised txt now a a.instanceID := by
    simp [Event.advertises, ha]
  have hs : Event.Spares (.datagram now src bytes) e ↔ a.instanceID ≠ e.instanceID := by
    simp [Event.Spares, ha]
  simp only [live_snoc, hadv, hs, Roster.step, Function.update_apply]
  split
  case isTrue hid =>
    subst hid
    constructor
    case mp =>
      rintro he
      cases he
      exact ⟨.inl rfl, rfl⟩
    case mpr =>
      rintro ⟨rfl | ⟨_, hne⟩, hid⟩
      case inl => rfl
      case inr => exact absurd hid.symm hne
  case isFalse hid =>
    rw [h id e]
    constructor
    case mp =>
      rintro ⟨hl, he⟩
      exact ⟨.inr ⟨hl, fun hc => hid (he.symm.trans hc.symm)⟩, he⟩
    case mpr =>
      rintro ⟨rfl | ⟨hl, _⟩, he⟩
      case inl => exact absurd he.symm hid
      case inr => exact ⟨hl, he⟩

-- The registry of a listener that has seen the events.
structure Follows (txt : AddrText) (seeds : List EndpointEntry) (evs : List Event)
    (r : Registry) : Prop where
  fresh  : r.Fresh
  roster : ∃ ro : Roster, Registry.Recounts ro r ∧ ro.seeds = seeds ∧ Lists txt evs ro

theorem Follows.step {bl : BeaconListener μ} {seeds : List EndpointEntry}
    (h : Follows txt seeds evs bl.registry) :
    Follows txt seeds (evs ++ [ev]) (bl.step txt decodeShardManifest ev).registry := by
  obtain ⟨hf, ro, hr, hseeds, hl⟩ := h
  cases ev
  case evict now   => exact ⟨hf.touched .foldl_evictEntry, _, hr.evict, hseeds, hl.evict⟩
  case snapshot σ  =>
    exact ⟨(hf.takeSnapshot σ).2, ro, hr.takeSnapshot, hseeds,
      hl.keep (fun _ => id) fun _ => trivial⟩
  case datagram now src bytes =>
    simp only [BeaconListener.step, registry_receive]
    cases ha : beaconIn bytes
    case none =>
      refine ⟨hf, ro, hr, hseeds, hl.keep (fun e hadv => ?_) fun e a h => ?_⟩
      case refine_1 =>
        obtain ⟨a, h, _⟩ := hadv
        rw [ha] at h
        cases h
      case refine_2 =>
        rw [ha] at h
        cases h
    case some a => exact ⟨hf.touched (.changed rfl rfl rfl), _, hr.upsert, hseeds, hl.upsert ha⟩

theorem Follows.exec {bl : BeaconListener μ} {seeds : List EndpointEntry} (evs : List Event)
    (h : Follows txt seeds [] bl.registry) :
    Follows txt seeds evs
      (Run.exec (BeaconListener.step txt decodeShardManifest) bl evs).registry := by
  induction evs using List.reverseRecOn
  case nil => exact h
  case append_singleton evs ev hi =>
    rw [Run.exec, List.foldl_append]
    exact hi.step

theorem follows_seed {seeds : List String} :
    Follows txt (seeds.mapIdx EndpointEntry.seed) [] (Registry.new.seed seeds) := by
  refine ⟨.seed, ⟨fun _ => none, seeds.mapIdx EndpointEntry.seed⟩, ⟨fun _ => rfl, rfl, nofun⟩,
    rfl, fun id e => ?_⟩
  constructor
  case mp  => exact nofun
  case mpr => exact fun h => absurd h.1 not_live_nil

-- Whatever arrives on the beacon sockets, and however the goroutines interleave, a snapshot has the
-- endpoints whose last beacon has not expired by an eviction since, and the seeds that none of them
-- is. A draining endpoint does not refresh its entry.
theorem snapshot_lists_live (seeds : List String) (manifests : Option (List (IP × μ)))
    (evs : List Event) (σ : Sorter EndpointEntry.less) (e : EndpointEntry) :
    let bl :=
      Run.exec (step txt decodeShardManifest) { registry := Registry.new.seed seeds, manifests } evs
    e ∈ (bl.registry.takeSnapshot σ).1 ↔
      Live txt evs e ∨
        e ∈ seeds.mapIdx EndpointEntry.seed ∧ ∀ e', Live txt evs e' → e'.addr ≠ e.addr := by
  intro bl
  obtain ⟨hf, ro, hr, hseeds, hl⟩ : Follows txt (seeds.mapIdx EndpointEntry.seed) evs bl.registry :=
    .exec evs follows_seed
  have hlive (e : EndpointEntry) : e ∈ bl.registry.beacons ↔ Live txt evs e := by
    rw [hr.mem_beacons, hl, and_iff_left rfl]
  obtain ⟨⟨σ', hs⟩, _⟩ := hf.takeSnapshot σ
  rw [hs, σ'.mem_sort, Registry.mem_merged, hlive, hr.seeds, hseeds]
  refine or_congr_right (and_congr_right fun _ => ?_)
  simp only [Registry.seen, List.mem_map, hlive, decide_eq_false_iff_not,
    not_exists, not_and, ne_eq]

end BeaconListener
end Discovery
