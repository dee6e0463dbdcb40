import ShardListener.Manifest.Replay

namespace Manifest

variable {σ ω : Type} {h : Hooks σ ω} {prev next : Adopted σ} {w : ω} {v v' v'' : View σ}
variable {ns ns' : List (Note σ)}

-- The notifications of one tick.

def shardBitsNotes (prev next : Adopted σ) : List (Note σ) :=
  if prev.shardBits ≠ next.shardBits then [.shardBits prev.shardBits next.shardBits] else []

def sourceModeNotes (prev next : Adopted σ) : List (Note σ) :=
  if prev.sourceModeSSM ≠ next.sourceModeSSM then
    [.sourceMode prev.sourceModeSSM next.sourceModeSSM] else []

def pilotGroupsNotes (prev next : Adopted σ) : List (Note σ) :=
  let groups := diffUint16 prev.pilotGroups next.pilotGroups
  if groups.1 ≠ [] ∨ groups.2 ≠ [] then [.pilotGroups groups.1 groups.2] else []

def sourceSetNotes (prev next : Adopted σ) : List (Note σ) :=
  let sources := diffAddrs prev.sourceSet next.sourceSet
  if sources.1 ≠ [] ∨ sources.2 ≠ [] then [.sourceSet sources.1 sources.2] else []

def successorNotes [DecidableEq σ] (prev next : Adopted σ) : List (Note σ) :=
  if prev.successor ≠ next.successor then [.successor prev.successor next.successor] else []

def domainNotes (prev next : Adopted σ) (ids : List UInt8) : List (Note σ) :=
  ids.filterMap fun d =>
    if prev.width d ≠ next.width d then some (.domainShardBits d (prev.width d) (next.width d))
    else none

def notes [DecidableEq σ] (prev next : Adopted σ) : List (Note σ) :=
  shardBitsNotes prev next ++ (sourceModeNotes prev next ++ (pilotGroupsNotes prev next ++
    (sourceSetNotes prev next ++ (successorNotes prev next ++ domainNotes prev next domainIDs))))

theorem foldl_notify_ite {P : Prop} [Decidable P] {n : Note σ} :
    (if P then [n] else []).foldl h.notify w = if P then h.notify w n else w := by
  split <;> rfl

theorem domainNotes_eq :
    domainNotes prev next domainIDs =
      (domainShardBitsChanges prev.domains next.domains).map fun d =>
      .domainShardBits d.domain d.prev d.next := by
  rw [domainNotes, domainIDs, domainShardBitsChanges, List.filterMap_map, List.map_filterMap]
  refine List.filterMap_congr fun id _ => ?_
  dsimp only
  rw [apply_ite (Option.map _)]
  rfl

theorem fireHooks_eq [DecidableEq σ] :
    fireHooks h prev next w = (notes prev next).foldl h.notify w := by
  simp only [notes, shardBitsNotes, sourceModeNotes, pilotGroupsNotes, sourceSetNotes,
    successorNotes, List.foldl_append, foldl_notify_ite, domainNotes_eq, List.foldl_map]
  rfl

-- Notifications that are expected, and what is known after them.
structure Replays (v : View σ) (ns : List (Note σ)) (v' : View σ) : Prop where
  expected : Run.Along View.replay View.Expects v ns
  known    : Run.exec View.replay v ns = v'

namespace Replays

theorem nil : Replays v [] v :=
  ⟨trivial, rfl⟩

theorem append (hr : Replays v ns v') (hr' : Replays v' ns' v'') : Replays v (ns ++ ns') v'' where
  expected := Run.Along.append.mpr ⟨hr.expected, hr.known.symm ▸ hr'.expected⟩
  known    := by rw [Run.exec_append, hr.known, hr'.known]

theorem single {n : Note σ} (hn : v.Expects n) (e : v.replay n = v') : Replays v [n] v' :=
  ⟨⟨hn, trivial⟩, e⟩

-- A notification of what has changed, if it has.
theorem ite {P : Prop} [Decidable P] {n : Note σ} (hn : P → v.Expects n) (e : P → v.replay n = v')
    (hno : ¬P → v = v') : Replays v (if P then [n] else []) v' := by
  split
  case isTrue hp  => exact .single (hn hp) (e hp)
  case isFalse hp => exact hno hp ▸ .nil

end Replays

-- The two lists of a difference.
section

variable {α : Type} [DecidableEq α] [LE α] [DecidableLE α] {before after : List α}

theorem diff_changes [Std.Total fun a b : α => a ≤ b] [IsTrans α (· ≤ ·)]
    (hd : (diff (· ≤ ·) before after).1 ≠ [] ∨ (diff (· ≤ ·) before after).2 ≠ []) :
    View.Changes before.toFinset (diff (· ≤ ·) before after).1 (diff (· ≤ ·) before after).2 := by
  refine ⟨hd, fun a ha => ?_, fun a ha => ?_, List.pairwise_insertionSort ..,
    List.pairwise_insertionSort ..⟩
  case refine_1 =>
    have hm := (List.mem_insertionSort _).mp ha
    simpa using (List.mem_filter.mp hm).2
  case refine_2 =>
    have hm := (List.mem_insertionSort _).mp ha
    exact List.mem_toFinset.mpr (List.mem_filter.mp hm).1

theorem diff_replayed :
    before.toFinset \ (diff (· ≤ ·) before after).2.toFinset ∪
      (diff (· ≤ ·) before after).1.toFinset = after.toFinset := by
  ext a
  simp only [diff, Finset.mem_union, Finset.mem_sdiff, List.mem_toFinset,
    List.mem_insertionSort, List.mem_filter, decide_eq_true_eq]
  tauto

theorem toFinset_eq_of_diff
    (hd : ¬((diff (· ≤ ·) before after).1 ≠ [] ∨ (diff (· ≤ ·) before after).2 ≠ [])) :
    before.toFinset = after.toFinset := by
  obtain ⟨h₁, h₂⟩ := not_or.mp hd
  have hr : before.toFinset \ (diff (· ≤ ·) before after).2.toFinset ∪ _ = after.toFinset :=
    diff_replayed
  rwa [not_not.mp h₁, not_not.mp h₂, List.toFinset_nil, Finset.sdiff_empty, Finset.union_empty]
    at hr

end

namespace Replays

theorem shardBits (hv : v.shardBits = prev.shardBits) :
    Replays v (shardBitsNotes prev next) { v with shardBits := next.shardBits } :=
  .ite (fun hp => ⟨hv.symm, hp⟩) (fun _ => rfl) fun hp => by rw [← not_not.mp hp, ← hv]

theorem sourceMode (hv : v.sourceModeSSM = prev.sourceModeSSM) :
    Replays v (sourceModeNotes prev next) { v with sourceModeSSM := next.sourceModeSSM } :=
  .ite (fun hp => ⟨hv.symm, hp⟩) (fun _ => rfl) fun hp => by rw [← not_not.mp hp, ← hv]

theorem pilotGroups (hv : v.pilotGroups = prev.pilotGroups.toFinset) :
    Replays v (pilotGroupsNotes prev next) { v with pilotGroups := next.pilotGroups.toFinset } := by
  refine .ite (fun hp => ?_) (fun _ => ?_) fun hp => ?_
  case refine_1 => rw [View.Expects, hv]; exact diff_changes hp
  case refine_2 =>
    rw [View.replay, hv]; exact congrArg (fun g => { v with pilotGroups := g }) diff_replayed
  case refine_3 => rw [← toFinset_eq_of_diff hp, ← hv]

theorem sourceSet (hv : v.sourceSet = prev.sourceSet.toFinset) :
    Replays v (sourceSetNotes prev next) { v with sourceSet := next.sourceSet.toFinset } := by
  refine .ite (fun hp => ?_) (fun _ => ?_) fun hp => ?_
  case refine_1 => rw [View.Expects, hv]; exact diff_changes hp
  case refine_2 =>
    rw [View.replay, hv]; exact congrArg (fun s => { v with sourceSet := s }) diff_replayed
  case refine_3 => rw [← toFinset_eq_of_diff hp, ← hv]

theorem successor [DecidableEq σ] (hv : v.successor = prev.successor) :
    Replays v (successorNotes prev next) { v with successor := next.successor } :=
  .ite (fun hp => ⟨hv.symm, hp⟩) (fun _ => rfl) fun hp => by rw [← not_not.mp hp, ← hv]

theorem domain {d : UInt8} (hv : v.width d = prev.width d) :
    Replays v (domainNotes prev next [d])
      { v with width := Function.update v.width d (next.width d) } := by
  by_cases e : prev.width d = next.width d
  case pos =>
    have hnone : domainNotes prev next [d] = [] := by simp [domainNotes, e]
    rw [hnone, ← e, ← hv, Function.update_eq_self]
    exact .nil
  case neg =>
    have hone : domainNotes prev next [d] = [.domainShardBits d (prev.width d) (next.width d)] := by
      simp [domainNotes, e]
    rw [hone]
    exact .single ⟨hv.symm, e⟩ rfl

-- One domain after the other.
theorem domains {ids : List UInt8} (hn : ids.Nodup) (hv : ∀ d ∈ ids, v.width d = prev.width d) :
    Replays v (domainNotes prev next ids)
      { v with width := fun d => if d ∈ ids then next.width d else v.width d } := by
  induction ids generalizing v
  case nil => exact .nil
  case cons d ids hi =>
    obtain ⟨hnot, hn⟩ := List.nodup_cons.mp hn
    obtain ⟨hd, hrest⟩ := List.forall_mem_cons.mp hv
    have hkept (d' : UInt8) (hm : d' ∈ ids) :
        Function.update v.width d (next.width d) d' = prev.width d' := by
      have hne : d' ≠ d := fun e => hnot (e ▸ hm)
      rw [Function.update_of_ne hne, hrest d' hm]
    have hcons : domainNotes prev next (d :: ids) = domainNotes prev next [d] ++
        domainNotes prev next ids :=
      List.filterMap_append (l := [d])
    have hwidth :
        (fun d' =>
        if d' ∈ ids then next.width d' else Function.update v.width d (next.width d) d') =
        fun d' => if d' ∈ d :: ids then next.width d' else v.width d' := by
      funext d'
      by_cases e : d' = d
      case pos => subst e; simp
      case neg => simp [e]
    rw [hcons, ← hwidth]
    exact (Replays.domain hd).append (hi hn hkept)

theorem tick [DecidableEq σ] : Replays prev.view (notes prev next) next.view := by
  have hnodup : domainIDs.Nodup := by decide
  have hwidth (d : UInt8) (hd : d ∈ domainIDs) : prev.view.width d = prev.width d := if_pos hd
  have hview : next.view =
      { next.view with
        width := fun d => if d ∈ domainIDs then next.width d else prev.view.width d } := by
    refine View.ext rfl rfl rfl rfl rfl (funext fun d => ?_)
    by_cases hd : d ∈ domainIDs
    case pos => simp only [Adopted.view, if_pos hd]
    case neg => simp only [Adopted.view, if_neg hd]
  rw [hview]
  refine .append (.shardBits rfl) ?_
  refine .append (.sourceMode rfl) ?_
  refine .append (.pilotGroups rfl) ?_
  refine .append (.sourceSet rfl) ?_
  refine .append (.successor rfl) ?_
  exact .domains hnodup hwidth

end Replays

-- Whatever views are adopted one after the other, the hooks are told of changes only, each from
-- what they were told before, and who replays what they are told knows the view that was adopted
-- last.
theorem hooks_know_view [DecidableEq σ] (h : Hooks σ ω) (w : ω) (views : List (Adopted σ)) :
    ∃ ns : List (Note σ), (Run.exec (Applier.tick h) ⟨{}, w⟩ views).world = ns.foldl h.notify w ∧
      Run.Along View.replay View.Expects (Adopted.view {}) ns ∧
      Run.exec View.replay (Adopted.view {}) ns = (views.getLastD {}).view := by
  have hrun (a : Applier σ ω) : ∃ ns, (Run.exec (Applier.tick h) a views).world =
      ns.foldl h.notify a.world ∧ Replays a.prev.view ns (views.getLastD a.prev).view := by
    induction views generalizing a
    case nil => exact ⟨[], rfl, .nil⟩
    case cons next views hi =>
      obtain ⟨ns, hw, hr⟩ := hi (a.tick h next)
      refine ⟨notes a.prev next ++ ns, ?_, Replays.tick.append ?_⟩
      case refine_1 => rw [Run.exec_cons, hw, Applier.tick, fireHooks_eq, List.foldl_append]
      case refine_2 => rw [List.getLastD_cons]; exact hr
  obtain ⟨ns, hw, hr⟩ := hrun ⟨{}, w⟩
  exact ⟨ns, hw, hr.expected, hr.known⟩

end Manifest
