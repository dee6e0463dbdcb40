import ShardListener.SubtreeGroup.Registry

namespace SubtreeGroup

variable {groups : List GroupID} {defaultTTL : Duration} {log : List Call} {c : Call}
variable {g g' : GroupID}
variable {s : Bytes32} {e now t : Time} {r : Registry}

-- The call announces or withdraws the membership.
def Call.Concerns (c : Call) (g : GroupID) (s : Bytes32) : Prop :=
  match c.op with
  | .add g' s' _  => g' = g ∧ s' = s
  | .remove g' s' => g' = g ∧ s' = s
  | _             => False

-- The last call that concerns the membership announces it, until `e`.
def Expires (defaultTTL : Duration) (log : List Call) (g : GroupID) (s : Bytes32) (e : Time) :
    Prop :=
  ∃ before t₀ ttl after, log = before ++ ⟨t₀, .add g s ttl⟩ :: after ∧
    (∀ c ∈ after, ¬c.Concerns g s) ∧ e = t₀ + Registry.lifetime defaultTTL ttl

namespace Expires

theorem not_nil : ¬Expires defaultTTL [] g s e := by
  intro ⟨before, _, _, _, h, _⟩
  cases before <;> cases h

theorem snoc_iff :
    Expires defaultTTL (log ++ [c]) g s e ↔
      (∃ ttl, c.op = .add g s ttl ∧ e = c.now + Registry.lifetime defaultTTL ttl) ∨
        ¬c.Concerns g s ∧ Expires defaultTTL log g s e := by
  constructor
  case mp =>
    intro ⟨before, t₀, ttl, after, h, hafter, he⟩
    rcases List.eq_nil_or_concat after with hn | ⟨after', c', hn⟩
    case inl =>
      rw [hn] at h
      have ⟨_, hc⟩ := List.append_inj' h rfl
      cases hc
      exact .inl ⟨ttl, rfl, he⟩
    case inr =>
      rw [hn, List.concat_eq_append, ← List.cons_append, ← List.append_assoc] at h
      have ⟨hlog, hc⟩ := List.append_inj' h rfl
      cases hc
      exact .inr ⟨hafter c (by simp [hn]), before, t₀, ttl, after', hlog,
        fun c' hc' => hafter c' (by simp [hn, hc']), he⟩
  case mpr =>
    intro h
    rcases h with ⟨ttl, hc, he⟩ | ⟨hc, before, t₀, ttl, after, h, hafter, he⟩
    case inl =>
      have e : c = ⟨c.now, .add g s ttl⟩ := by rw [← hc]
      exact ⟨log, c.now, ttl, [], by rw [← e], nofun, he⟩
    case inr =>
      refine ⟨before, t₀, ttl, after ++ [c], by simp [h], fun c' hc' => ?_, he⟩
      rcases List.mem_append.mp hc' with hc' | hc'
      case inl => exact hafter c' hc'
      case inr => exact List.mem_singleton.mp hc' ▸ hc

theorem snoc_iff_of_not (hc : ¬c.Concerns g s) :
    Expires defaultTTL (log ++ [c]) g s e ↔ Expires defaultTTL log g s e := by
  rw [snoc_iff, and_iff_right hc, or_iff_right]
  intro ⟨ttl, hadd, _⟩
  exact hc (by simp [Call.Concerns, hadd])

end Expires

-- The map of a group holds what the log announces, except for what has expired by the time of some
-- call, which may be gone.
structure Tracks (defaultTTL : Duration) (log : List Call) (g : GroupID)
    (subs : Dict Bytes32 Time) : Prop where
  sound    : ∀ s e, subs.lookup s = some e → Expires defaultTTL log g s e
  complete : ∀ s e, Expires defaultTTL log g s e → subs.lookup s = some e ∨ ∃ c ∈ log, e < c.now

namespace Tracks

variable {subs : Dict Bytes32 Time}

theorem nil : Tracks defaultTTL [] g ∅ where
  sound _ _ h    := nomatch h
  complete _ _ h := absurd h Expires.not_nil

theorem later (h : (∃ c ∈ log, e < c.now)) : ∃ c' ∈ log ++ [c], e < c'.now :=
  h.imp fun _ hc => ⟨List.mem_append_left _ hc.1, hc.2⟩

theorem other (h : Tracks defaultTTL log g subs) (hc : ∀ s, ¬c.Concerns g s) :
    Tracks defaultTTL (log ++ [c]) g subs where
  sound s e hs    := (Expires.snoc_iff_of_not (hc s)).mpr (h.sound s e hs)
  complete s e he := (h.complete s e ((Expires.snoc_iff_of_not (hc s)).mp he)).imp_right later

theorem add {ttl : Duration} (h : Tracks defaultTTL log g subs) :
    Tracks defaultTTL (log ++ [⟨now, .add g s ttl⟩]) g
      (subs.insert s (now + Registry.lifetime defaultTTL ttl)) where
  sound s' e hs := by
    rw [AList.lookup_insert_eq_ite] at hs
    split at hs
    case isTrue hss =>
      cases hs
      exact Expires.snoc_iff.mpr (.inl ⟨ttl, hss ▸ rfl, rfl⟩)
    case isFalse hne =>
      exact Expires.snoc_iff.mpr (.inr ⟨fun hc => hne hc.2.symm, h.sound s' e hs⟩)
  complete s' e he := by
    rw [AList.lookup_insert_eq_ite]
    rcases Expires.snoc_iff.mp he with ⟨ttl', hadd, he⟩ | ⟨hc, he⟩
    case inl =>
      cases hadd
      rw [if_pos rfl, he]
      exact .inl rfl
    case inr =>
      rw [if_neg fun hss => hc ⟨rfl, hss.symm⟩]
      exact (h.complete s' e he).imp_right later

theorem remove (h : Tracks defaultTTL log g subs) :
    Tracks defaultTTL (log ++ [⟨now, .remove g s⟩]) g (subs.erase s) where
  sound s' e hs := by
    rw [AList.lookup_erase_eq_ite] at hs
    split at hs
    case isTrue => cases hs
    case isFalse hne =>
      exact Expires.snoc_iff.mpr (.inr ⟨fun hc => hne hc.2.symm, h.sound s' e hs⟩)
  complete s' e he := by
    rw [AList.lookup_erase_eq_ite]
    rcases Expires.snoc_iff.mp he with ⟨ttl', hadd, _⟩ | ⟨hc, he⟩
    case inl => cases hadd
    case inr =>
      rw [if_neg fun hss => hc ⟨rfl, hss.symm⟩]
      exact (h.complete s' e he).imp_right later

theorem evict (h : Tracks defaultTTL log g subs) :
    Tracks defaultTTL (log ++ [⟨now, .evict⟩]) g (subs.filterEntries fun _ expiry =>
      ¬expiry < now) where
  sound s e hs := by
    rw [AList.lookup_filterEntries, Option.filter_eq_some_iff] at hs
    exact (Expires.snoc_iff_of_not id).mpr (h.sound s e hs.1)
  complete s e he := by
    rcases h.complete s e ((Expires.snoc_iff_of_not id).mp he) with hs | hgone
    case inr => exact .inr (later hgone)
    case inl =>
      by_cases hlt : e < now
      case pos => exact .inr ⟨_, List.mem_append_right _ (List.mem_singleton.mpr rfl), hlt⟩
      case neg =>
        rw [AList.lookup_filterEntries, hs]
        exact .inl (by simp [Option.filter, hlt])

end Tracks

namespace Registry

structure Follows (groups : List GroupID) (defaultTTL : Duration) (log : List Call)
    (r : Registry) : Prop where
  subscribed : r.subscribedGroups = groups
  default    : r.defaultTTL = defaultTTL
  groups     : ∀ g, g ∈ r.entries ↔ g ∈ groups
  tracks     : ∀ g subs, r.entries.lookup g = some subs → Tracks defaultTTL log g subs

namespace Follows

theorem new : (Registry.new groups defaultTTL).Follows groups defaultTTL [] := by
  have hl (m : Dict GroupID (Dict Bytes32 Time)) (g : GroupID) :
      (groups.foldl (fun m g => m.insert g ∅) m).lookup g =
        if g ∈ groups then some ∅ else m.lookup g := by
    induction groups generalizing m
    case nil => simp
    case cons g' groups hi =>
      rw [List.foldl_cons, hi, AList.lookup_insert_eq_ite]
      by_cases hg : g = g' <;> simp [hg]
  refine ⟨rfl, rfl, fun g => ?_, fun g subs hs => ?_⟩
  case refine_1 =>
    simp only [AList.mem_iff_lookup, Registry.new, hl]
    split <;> simp_all
  case refine_2 =>
    simp only [Registry.new, hl] at hs
    split at hs
    case isTrue  => cases hs; exact .nil
    case isFalse => cases hs

-- A call on one group leaves the others alone.
theorem onGroup {f : Dict Bytes32 Time → Dict Bytes32 Time} (h : r.Follows groups defaultTTL log)
    (hc : ∀ g' s, c.Concerns g' s → g' = g)
    (hf : ∀ subs, Tracks defaultTTL log g subs → Tracks defaultTTL (log ++ [c]) g (f subs)) :
    (r.onGroup g f).Follows groups defaultTTL (log ++ [c]) := by
  have hother {g' : GroupID} {subs : Dict Bytes32 Time} (hg : g' ≠ g)
      (hs : r.entries.lookup g' = some subs) :
      Tracks defaultTTL (log ++ [c]) g' subs :=
    (h.tracks g' subs hs).other fun s hcs => hg (hc g' s hcs)
  simp only [Registry.onGroup]
  split
  case h_1 subs hl =>
    refine ⟨h.subscribed, h.default, fun g' => ?_, fun g' subs' hs => ?_⟩
    case refine_1 =>
      rw [AList.mem_insert, ← h.groups]
      exact ⟨fun hg => hg.elim (fun e => e ▸ AList.mem_iff_lookup.mpr ⟨subs, hl⟩) id, .inr⟩
    case refine_2 =>
      rw [AList.lookup_insert_eq_ite] at hs
      split at hs
      case isTrue hg   => cases hs; exact hg ▸ hf subs (h.tracks g subs hl)
      case isFalse hne => exact hother hne hs
  case h_2 hl =>
    exact ⟨h.subscribed, h.default, h.groups,
      fun g' subs hs => hother (fun e => nomatch (e ▸ hs).symm.trans hl) hs⟩

-- A call on a group that is not subscribed has no map to change.
theorem unsubscribed (h : r.Follows groups defaultTTL log) (hg : g ∉ groups)
    (hc : ∀ g' s, c.Concerns g' s → g' = g) : r.Follows groups defaultTTL (log ++ [c]) := by
  refine ⟨h.subscribed, h.default, h.groups,
    fun g' subs hs => (h.tracks g' subs hs).other fun s hcs => ?_⟩
  have hmem := (h.groups g').mp (AList.mem_iff_lookup.mpr ⟨subs, hs⟩)
  exact hg (hc g' s hcs ▸ hmem)

theorem step (h : r.Follows groups defaultTTL log) :
    (r.step c).Follows groups defaultTTL (log ++ [c]) := by
  have ⟨now, op⟩ := c
  cases op
  case add g s ttl =>
    simp only [Registry.step, Registry.add, h.subscribed, h.default]
    split
    case isTrue hg => exact h.unsubscribed hg fun _ _ hc => hc.1.symm
    case isFalse   => exact h.onGroup (fun _ _ hc => hc.1.symm) fun _ => .add
  case remove g s =>
    simp only [Registry.step, Registry.remove, h.subscribed]
    split
    case isTrue hg => exact h.unsubscribed hg fun _ _ hc => hc.1.symm
    case isFalse   => exact h.onGroup (fun _ _ hc => hc.1.symm) fun _ => .remove
  case evict =>
    refine ⟨h.subscribed, h.default, fun g => ?_, fun g subs hs => ?_⟩
    case refine_1 =>
      rw [← h.groups]
      simp [AList.mem_iff_lookup, Registry.step, Registry.evict, AList.lookup_mapEntries]
    case refine_2 =>
      simp only [Registry.step, Registry.evict, AList.lookup_mapEntries] at hs
      have ⟨subs', hl, e⟩ := Option.map_eq_some_iff.mp hs
      exact e ▸ (h.tracks g subs' hl).evict
  case contains s =>
    exact ⟨h.subscribed, h.default, h.groups,
      fun g subs hs => (h.tracks g subs hs).other fun _ => id⟩

theorem exec :
    (Run.exec Registry.step (Registry.new groups defaultTTL) log).Follows groups
      defaultTTL log := by
  induction log using List.reverseRecOn
  case nil => exact .new
  case append_singleton log c hi =>
    rw [Run.exec, List.foldl_append]
    exact hi.step

-- What is gone has expired for a reader that is not behind the calls.
theorem contains_iff (h : r.Follows groups defaultTTL log) (ht : ∀ c ∈ log, c.now ≤ t) :
    r.contains t s = true ↔ ∃ g ∈ groups, ∃ e, Expires defaultTTL log g s e ∧ t < e := by
  simp only [contains, List.any_eq_true, Option.any_eq_true]
  constructor
  case mp =>
    intro ⟨⟨g, subs⟩, hg, e, he, hlt⟩
    have hl := AList.mem_entries_iff.mp hg
    have hmem : g ∈ r.entries := AList.mem_iff_lookup.mpr ⟨subs, hl⟩
    exact ⟨g, (h.groups g).mp hmem, e, (h.tracks g subs hl).sound s e he, by simpa using hlt⟩
  case mpr =>
    intro ⟨g, hg, e, he, hlt⟩
    have ⟨subs, hl⟩ := AList.mem_iff_lookup.mp ((h.groups g).mpr hg)
    rcases (h.tracks g subs hl).complete s e he with hs | ⟨c, hc, hgone⟩
    case inl => exact ⟨⟨g, subs⟩, AList.mem_entries_iff.mpr hl, e, hs, by simpa using hlt⟩
    case inr => exact absurd (hgone.trans_le (ht c hc)) hlt.not_gt

end Follows
end Registry

-- The calls that say something about the subscribed groups.
def Call.announces (groups : List GroupID) (c : Call) : Bool :=
  match c.op with
  | .add g _ _  => groups.contains g
  | .remove g _ => groups.contains g
  | _           => false

theorem Call.announces_of_concerns (hg : g ∈ groups) (hc : c.Concerns g s) :
    c.announces groups = true := by
  have ⟨now, op⟩ := c
  cases op
  case add      => exact List.contains_iff_mem.mpr (hc.1.symm ▸ hg)
  case remove   => exact List.contains_iff_mem.mpr (hc.1.symm ▸ hg)
  case evict    => cases hc
  case contains => cases hc

theorem Expires.filter_iff (hg : g ∈ groups) :
    Expires defaultTTL (log.filter (·.announces groups)) g s e ↔ Expires defaultTTL log g s e := by
  induction log using List.reverseRecOn
  case nil => exact Iff.rfl
  case append_singleton log c hi =>
    rw [List.filter_append, List.filter_singleton]
    cases hc : c.announces groups
    case true => rw [cond_true, snoc_iff, snoc_iff, hi]
    case false =>
      have hno : ¬c.Concerns g s := by
        intro h
        exact Bool.false_ne_true (hc.symm.trans (Call.announces_of_concerns hg h))
      rw [cond_false, List.append_nil, hi, snoc_iff_of_not hno]

end SubtreeGroup
