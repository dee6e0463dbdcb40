import ShardListener.Discovery.Groups

namespace Discovery

variable {cfg : BeaconConfig} {groups : List UDPAddr} {grp : UDPAddr} {ports : List ℕ} {port : ℕ}

-- The buckets are those of the ports, which are at their places, and each has its groups in their
-- order.
structure Bucketed (groups : List UDPAddr) (t : Dict ℕ ℕ × List (List UDPAddr))
    (ports : List ℕ) : Prop where
  places  : ∀ p i, t.1.lookup p = some i ↔ ports[i]? = some p
  mem     : ∀ p, p ∈ ports ↔ ∃ g ∈ groups, g.port = p
  nodup   : ports.Nodup
  buckets : t.2 = ports.map fun p => groups.filter (·.port = p)

theorem Bucketed.nil : Bucketed [] (∅, []) [] where
  places  := by simp
  mem     := by simp
  nodup   := List.nodup_nil
  buckets := rfl

-- A group for a port that has a bucket.
theorem Bucketed.again {t : Dict ℕ ℕ × List (List UDPAddr)} {i : ℕ} (h : Bucketed groups t ports)
    (hi : ports[i]? = some grp.port) :
    Bucketed (groups ++ [grp]) (t.1, t.2.modify i (· ++ [grp])) ports where
  places  := h.places
  nodup   := h.nodup
  mem p   := by
    have hmem : grp.port ∈ ports := List.mem_of_getElem? hi
    simp only [h.mem, List.mem_append, List.mem_singleton]
    constructor
    case mp => exact fun ⟨g, hg, e⟩ => ⟨g, .inl hg, e⟩
    case mpr =>
      rintro ⟨g, hg | rfl, e⟩
      case inl => exact ⟨g, hg, e⟩
      case inr => exact e ▸ (h.mem _).mp hmem
  buckets := by
    refine List.ext_getElem? fun j => ?_
    rw [h.buckets, List.getElem?_modify, List.getElem?_map, List.getElem?_map]
    cases hp : ports[j]?
    case none => rfl
    case some p =>
      have hij : i = j ↔ grp.port = p := by
        constructor
        case mp  => exact fun e => Option.some.inj (hi.symm.trans (e ▸ hp))
        case mpr =>
          rintro rfl
          exact (List.getElem?_inj (List.getElem?_eq_some_iff.mp hi).1 h.nodup).mp
            (hi.trans hp.symm)
      simp only [Option.map_some, List.filter_append, List.filter_singleton, hij]
      split
      case isTrue e  => simp [e]
      case isFalse e => simp [e]

theorem Bucketed.first {t : Dict ℕ ℕ × List (List UDPAddr)} (h : Bucketed groups t ports)
    (hn : grp.port ∉ ports) :
    Bucketed (groups ++ [grp])
      (t.1.insert grp.port t.2.length, t.2 ++ [[grp]]) (ports ++ [grp.port]) := by
  have hlen : t.2.length = ports.length := by rw [h.buckets, List.length_map]
  refine ⟨fun p i => ?places, fun p => ?mem, ?nodup, ?buckets⟩
  case nodup =>
    refine List.nodup_append.mpr ⟨h.nodup, List.nodup_singleton _, ?_⟩
    simpa using fun p hp => ne_of_mem_of_not_mem hp hn
  case mem =>
    simp only [List.mem_append, List.mem_singleton, h.mem]
    constructor
    case mp =>
      rintro (⟨g, hg, e⟩ | rfl)
      case inl => exact ⟨g, .inl hg, e⟩
      case inr => exact ⟨grp, .inr rfl, rfl⟩
    case mpr =>
      rintro ⟨g, hg | rfl, e⟩
      case inl => exact .inl ⟨g, hg, e⟩
      case inr => exact .inr e.symm
  case places =>
    rw [AList.lookup_insert_eq_ite, hlen]
    by_cases hp : p = grp.port
    case pos =>
      subst hp
      rw [if_pos rfl]
      constructor
      case mp =>
        rintro ⟨⟩
        simp
      case mpr =>
        intro hi
        rcases Nat.lt_trichotomy i ports.length with hlt | rfl | hgt
        case inl =>
          rw [List.getElem?_append_left hlt] at hi
          exact absurd (List.mem_of_getElem? hi) hn
        case inr.inl => rfl
        case inr.inr =>
          have hlt := (List.getElem?_eq_some_iff.mp hi).1
          rw [List.length_append, List.length_singleton] at hlt
          omega
    case neg =>
      rw [if_neg hp, h.places]
      constructor
      case mp =>
        intro hi
        rw [List.getElem?_append_left (List.getElem?_eq_some_iff.mp hi).1, hi]
      case mpr =>
        intro hi
        rw [List.getElem?_append] at hi
        split at hi
        case isTrue  => exact hi
        case isFalse => exact absurd (List.mem_singleton.mp (List.mem_of_getElem? hi)) hp
  case buckets =>
    have hnone : groups.filter (·.port = grp.port) = [] := by
      refine List.filter_eq_nil_iff.mpr fun g hg e =>
        hn ((h.mem _).mpr ⟨g, hg, of_decide_eq_true e⟩)
    have hold : ∀ p ∈ ports, (groups ++ [grp]).filter (·.port = p) =
        groups.filter (·.port = p) := by
      intro p hp
      have hne : grp.port ≠ p := fun e => hn (e ▸ hp)
      simp [List.filter_append, hne]
    rw [List.map_append, List.map_congr_left hold, ← h.buckets]
    simp [hnone]

theorem bucketStep_bucketed {t : Dict ℕ ℕ × List (List UDPAddr)} (h : Bucketed groups t ports) :
    ∃ ports', Bucketed (groups ++ [grp]) (bucketStep t grp) ports' := by
  unfold bucketStep
  cases hl : t.1.lookup grp.port
  case some i => exact ⟨ports, h.again ((h.places _ i).mp hl)⟩
  case none =>
    refine ⟨ports ++ [grp.port], h.first fun hm => ?_⟩
    obtain ⟨i, hi⟩ := List.getElem?_of_mem hm
    rw [(h.places _ i).mpr hi] at hl
    cases hl

theorem bucketByPort_eq (groups : List UDPAddr) :
    ∃ ports : List ℕ, ports.Nodup ∧ (∀ p, p ∈ ports ↔ ∃ g ∈ groups, g.port = p) ∧
      bucketByPort groups = ports.map fun p => groups.filter (·.port = p) := by
  have h : ∃ ports, Bucketed groups (groups.foldl bucketStep (∅, [])) ports := by
    induction groups using List.reverseRecOn
    case nil => exact ⟨[], .nil⟩
    case append_singleton groups grp hi =>
      obtain ⟨ports, h⟩ := hi
      rw [List.foldl_append]
      exact bucketStep_bucketed h
  obtain ⟨ports, h⟩ := h
  exact ⟨ports, h.nodup, h.mem, h.buckets⟩

theorem sourcesFor_congr {g : UDPAddr} (h : g.port = grp.port) :
    cfg.sourcesFor g = cfg.sourcesFor grp := by
  rw [BeaconConfig.sourcesFor, BeaconConfig.sourcesFor, h]

theorem openGroupConn_eq {grps : List UDPAddr} (hne : grps ≠ []) (hp : ∀ g ∈ grps, g.port = port) :
    ∃ s, openGroupConn cfg grps = some s ∧ s.port = port ∧
      s.joins = grps.map fun g => (g.ip, cfg.sourcesFor g) := by
  cases grps
  case nil => exact absurd rfl hne
  case cons grp grps =>
    obtain ⟨hgrp, hgrps⟩ := List.forall_mem_cons.mp hp
    simp only [openGroupConn]
    split
    case isTrue h => exact ⟨_, rfl, hgrp, by simp [h.1, h.2]⟩
    case isFalse =>
      refine ⟨_, rfl, hgrp, List.map_congr_left fun g hg => ?_⟩
      rw [sourcesFor_congr ((hp g hg).trans hgrp.symm)]

-- There is one socket for each port, and it joins the groups of the port, each with its own
-- sources.
theorem beaconSockets_eq (cfg : BeaconConfig) (groups : List UDPAddr) :
    ((beaconSockets cfg groups).map (·.port)).Nodup ∧
      (∀ p, p ∈ (beaconSockets cfg groups).map (·.port) ↔ ∃ g ∈ groups, g.port = p) ∧
      ∀ s ∈ beaconSockets cfg groups,
        s.joins = (groups.filter (·.port = s.port)).map fun g => (g.ip, cfg.sourcesFor g) := by
  obtain ⟨ports, hnodup, hmem, hbuckets⟩ := bucketByPort_eq groups
  have hopen : ∀ p ∈ ports, ∃ s,
      openGroupConn cfg (groups.filter (·.port = p)) = some s ∧ s.port = p ∧
      s.joins = (groups.filter (·.port = p)).map fun g => (g.ip, cfg.sourcesFor g) := by
    intro p hp
    obtain ⟨g, hg, e⟩ := (hmem p).mp hp
    have hne : groups.filter (·.port = p) ≠ [] :=
      List.ne_nil_of_mem (List.mem_filter.mpr ⟨hg, decide_eq_true e⟩)
    exact openGroupConn_eq hne fun g hg => of_decide_eq_true (List.mem_filter.mp hg).2
  have hsockets : beaconSockets cfg groups =
      ports.filterMap fun p => openGroupConn cfg (groups.filter (·.port = p)) := by
    rw [beaconSockets, hbuckets, List.filterMap_map]
    rfl
  have hports : (beaconSockets cfg groups).map (·.port) = ports := by
    rw [hsockets, List.map_filterMap]
    refine (List.filterMap_congr fun p hp => ?_).trans List.filterMap_some
    obtain ⟨s, hs, e, _⟩ := hopen p hp
    rw [hs, Option.map_some, e]
  refine ⟨hports ▸ hnodup, hports ▸ hmem, fun s hs => ?_⟩
  obtain ⟨p, hp, hs⟩ := List.mem_filterMap.mp (hsockets ▸ hs)
  obtain ⟨s', hs', rfl, hjoins⟩ := hopen p hp
  rw [hs] at hs'
  cases hs'
  exact hjoins

end Discovery
