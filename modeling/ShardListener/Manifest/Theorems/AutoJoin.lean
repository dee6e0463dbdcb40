import ShardListener.Extensions.Run
import ShardListener.Manifest.AutoJoin

namespace Worker.Groups

variable {sys : Netjoin} {g g' : Groups} {group : IP} {groups : List (Option IP)}

-- What joining and leaving do on a running worker when the kernel accepts them.

theorem addGroup_of_running (hj : sys.join group) (hr : g.running) :
    g.addGroup sys group = .ok { g with joinedGroups := insert group g.joinedGroups } := by
  unfold addGroup
  rw [if_neg (not_not.mpr hr)]
  split
  case isTrue hm => rw [Finset.insert_eq_of_mem hm]
  case isFalse   => rfl

theorem removeGroup_of_running (hl : sys.leave group) (hr : g.running) :
    g.removeGroup sys group = .ok { g with joinedGroups := g.joinedGroups.erase group } := by
  unfold removeGroup
  rw [if_neg (not_not.mpr hr)]
  split
  case isTrue hm => rw [Finset.erase_eq_of_notMem hm]
  case isFalse   => rfl

-- The valid ones of some addresses.
def addresses (groups : List (Option IP)) : Finset IP :=
  (groups.filterMap id).toFinset

theorem foldlM_joinConfigured (h : groups.foldlM (joinConfigured sys) g = .ok g') :
    g'.running = g.running ∧ g'.joinedGroups = g.joinedGroups ∪ addresses groups := by
  induction groups generalizing g
  case nil =>
    cases h
    simp [addresses]
  case cons grp groups hi =>
    cases grp
    case none => cases h
    case some ga =>
      simp only [List.foldlM_cons, joinConfigured] at h
      split at h
      case isFalse => cases h
      case isTrue =>
        have ⟨hr, hg⟩ := hi h
        refine ⟨hr, ?_⟩
        rw [hg]
        simp [addresses, Finset.insert_union, Finset.union_insert]

-- A worker that runs has joined the configured groups.
theorem run_ok (h : run sys groups = .ok g) : g.running ∧ g.joinedGroups = addresses groups := by
  have ⟨hr, hg⟩ := foldlM_joinConfigured h
  exact ⟨hr, by rw [hg, Finset.empty_union]⟩

-- With valid addresses and a kernel that accepts them, a worker gets to run.
theorem run_accepted (hj : ∀ group, sys.join group) (hv : groups.all Option.isSome) :
    run sys groups = .ok ⟨true, addresses groups⟩ := by
  have hfold (g : Groups) : ∃ g', groups.foldlM (joinConfigured sys) g = .ok g' := by
    induction groups generalizing g
    case nil => exact ⟨g, rfl⟩
    case cons grp groups hi =>
      rw [List.all_cons, Bool.and_eq_true] at hv
      have ⟨hgrp, hrest⟩ := hv
      have ⟨ga, e⟩ := Option.isSome_iff_exists.mp hgrp
      subst e
      have ⟨g', hg'⟩ := hi hrest { g with joinedGroups := insert ga g.joinedGroups }
      refine ⟨g', ?_⟩
      rw [List.foldlM_cons, joinConfigured, if_pos (hj ga)]
      exact hg'
  have ⟨g', hg'⟩ := hfold { running := true }
  have ⟨hr, hg⟩ := run_ok hg'
  rw [run, hg', ← hg, ← hr]

theorem mem_addresses : group ∈ addresses groups ↔ some group ∈ groups := by
  simp [addresses]

end Worker.Groups

namespace Manifest

open Worker (Groups Netjoin)

-- The kernel accepts every join and every leave.
structure Accepts (sys : Netjoin) : Prop where
  join  : ∀ group, sys.join group
  leave : ∀ group, sys.leave group

-- The groups joined at start-up.
def startup (fab : Fabric) (cfg : Config) (beefJoinIdx : List GroupIdx) : Finset IP :=
  Groups.addresses (buildGroups fab cfg beefJoinIdx)

def pilotAddrs (fab : Fabric) (idxs : List UInt16) : Finset IP :=
  Groups.addresses (idxs.map fun idx => fab.addr idx.toNat)

-- The pilot groups that the hook leaves: those that the view drops, except the static ones.
def leaving (cfg : Config) (prev next : List UInt16) : List UInt16 :=
  prev.filter fun idx => idx ∉ next ∧ ¬inStaticInclude cfg.shardInclude idx

-- What a change of the pilot groups does to a worker.
def follow (fab : Fabric) (cfg : Config) (prev next : List UInt16) (w : Groups) : Groups :=
  { w with
    joinedGroups :=
      (w.joinedGroups ∪ pilotAddrs fab (next.filter (· ∉ prev))) \ pilotAddrs fab
        (leaving cfg prev next) }

variable {fab : Fabric} {sys : Netjoin} {cfg : Config} {beefJoinIdx : List GroupIdx} {a : IP}
variable {idx : UInt16} {idxs idxs' prev next : List UInt16} {w : Groups} {ws : List Groups}

theorem mem_pilotAddrs : a ∈ pilotAddrs fab idxs ↔ ∃ idx ∈ idxs, fab.addr idx.toNat = some a := by
  simp [pilotAddrs, Groups.mem_addresses]

theorem pilotAddrs_congr (h : ∀ idx, idx ∈ idxs ↔ idx ∈ idxs') :
    pilotAddrs fab idxs = pilotAddrs fab idxs' := by
  ext a
  simp only [mem_pilotAddrs, h]

theorem mem_leaving :
    idx ∈ leaving cfg prev next ↔
      idx ∈ prev ∧ idx ∉ next ∧ ¬inStaticInclude cfg.shardInclude idx := by
  simp [leaving]

-- A static group is joined at start-up: the list that names it is not empty.
theorem mem_startup_of_static (hi : inStaticInclude cfg.shardInclude idx)
    (ha : fab.addr idx.toNat = some a) : a ∈ startup fab cfg beefJoinIdx := by
  have hm : idx.toNat ∈ cfg.shardInclude := by simpa [inStaticInclude] using hi
  have hne : cfg.shardInclude ≠ [] := List.ne_nil_of_mem hm
  have hg : some a ∈ cfg.shardInclude.map fab.addr := List.mem_map.mpr ⟨_, hm, ha⟩
  rw [startup, Groups.mem_addresses]
  simp only [buildGroups, if_pos hne, List.mem_append]
  exact .inl (.inl (.inl hg))

theorem autoAdd_eq (hs : Accepts sys) (hr : w.running) :
    autoAdd fab sys idx w = { w with joinedGroups := w.joinedGroups ∪ pilotAddrs fab [idx] } := by
  simp only [autoAdd]
  split
  case h_1 hn =>
    have he : pilotAddrs fab [idx] = ∅ := by simp [pilotAddrs, Groups.addresses, hn]
    rw [he, Finset.union_empty]
  case h_2 ga hg =>
    have he : pilotAddrs fab [idx] = {ga} := by simp [pilotAddrs, Groups.addresses, hg]
    rw [Groups.addGroup_of_running (hs.join ga) hr, he, Finset.union_comm, ← Finset.insert_eq]
    rfl

theorem autoRemove_eq (hs : Accepts sys) (hr : w.running) :
    autoRemove fab sys cfg idx w =
      { w with
        joinedGroups := w.joinedGroups \ pilotAddrs fab
          ([idx].filter fun idx => ¬inStaticInclude cfg.shardInclude idx) } := by
  simp only [autoRemove]
  split
  case h_1 hn =>
    have he :
        pilotAddrs fab ([idx].filter fun idx => ¬inStaticInclude cfg.shardInclude idx) = ∅ := by
      ext a
      simp [mem_pilotAddrs, hn]
    rw [he, Finset.sdiff_empty]
  case h_2 ga hg =>
    split
    case isTrue hi => simp [hi, pilotAddrs, Groups.addresses]
    case isFalse hi =>
      rw [Groups.removeGroup_of_running (hs.leave ga) hr]
      simp [hi, hg, pilotAddrs, Groups.addresses, Finset.sdiff_singleton_eq_erase, Except.toOption]

theorem foldl_autoAdd (hs : Accepts sys) (hr : w.running) :
    idxs.foldl (fun w idx => autoAdd fab sys idx w) w =
      { w with joinedGroups := w.joinedGroups ∪ pilotAddrs fab idxs } := by
  induction idxs generalizing w
  case nil => simp [pilotAddrs, Groups.addresses]
  case cons idx idxs hi =>
    have e : pilotAddrs fab (idx :: idxs) = pilotAddrs fab [idx] ∪ pilotAddrs fab idxs := by
      ext a
      simp [mem_pilotAddrs]
    rw [List.foldl_cons, autoAdd_eq hs hr, e, ← Finset.union_assoc]
    exact hi hr

theorem foldl_autoRemove (hs : Accepts sys) (hr : w.running) :
    idxs.foldl (fun w idx => autoRemove fab sys cfg idx w) w =
      { w with
        joinedGroups := w.joinedGroups \ pilotAddrs fab
          (idxs.filter fun idx => ¬inStaticInclude cfg.shardInclude idx) } := by
  induction idxs generalizing w
  case nil => simp [pilotAddrs, Groups.addresses]
  case cons idx idxs hi =>
    have e :
        pilotAddrs fab ((idx :: idxs).filter fun idx => ¬inStaticInclude cfg.shardInclude idx) =
        pilotAddrs fab ([idx].filter fun idx => ¬inStaticInclude cfg.shardInclude idx) ∪
          pilotAddrs fab (idxs.filter fun idx => ¬inStaticInclude cfg.shardInclude idx) := by
      ext a
      simp [mem_pilotAddrs, or_and_right, exists_or]
    rw [List.foldl_cons, autoRemove_eq hs hr, e, ← Finset.sup_eq_union, ← sdiff_sdiff]
    exact hi hr

-- The loops over the workers treat each one alike.
theorem foldl_map_workers {f : UInt16 → Groups → Groups} :
    idxs.foldl (fun ws idx => ws.map (f idx)) ws =
      ws.map fun w => idxs.foldl (fun w idx => f idx w) w := by
  induction idxs generalizing ws
  case nil              => simp
  case cons idx idxs hi => rw [List.foldl_cons, hi, List.map_map]; rfl

theorem mem_diffUint16 :
    (idx ∈ (diffUint16 prev next).1 ↔ idx ∈ next ∧ idx ∉ prev) ∧
      (idx ∈ (diffUint16 prev next).2 ↔ idx ∈ prev ∧ idx ∉ next) := by
  simp [diffUint16, diff]

theorem pilotAddrs_added :
    pilotAddrs fab (diffUint16 prev next).1 = pilotAddrs fab (next.filter (· ∉ prev)) :=
  pilotAddrs_congr fun idx => by simp [mem_diffUint16]

theorem pilotAddrs_removed :
    pilotAddrs fab ((diffUint16 prev next).2.filter fun idx =>
      ¬inStaticInclude cfg.shardInclude idx) = pilotAddrs fab (leaving cfg prev next) :=
  pilotAddrs_congr fun idx => by simp [mem_diffUint16, mem_leaving, and_assoc]

theorem onPilotGroupsChange_eq (hs : Accepts sys) (ha : cfg.autoJoinFromManifest)
    (hr : ∀ w ∈ ws, w.running) :
    onPilotGroupsChange fab sys cfg (diffUint16 prev next).1 (diffUint16 prev next).2 ws =
      ws.map (follow fab cfg prev next) := by
  simp only [onPilotGroupsChange, ha, not_true_eq_false, if_false, foldl_map_workers, List.map_map]
  refine List.map_congr_left fun w hw => ?_
  rw [Function.comp_apply, foldl_autoAdd hs (hr w hw), follow, ← pilotAddrs_added,
    ← pilotAddrs_removed]
  exact foldl_autoRemove hs (hr w hw)

-- Without a change there is nothing to follow.
theorem follow_unchanged (h₁ : (diffUint16 prev next).1 = []) (h₂ : (diffUint16 prev next).2 = []) :
    follow fab cfg prev next w = w := by
  rw [follow, ← pilotAddrs_added, ← pilotAddrs_removed, h₁, h₂]
  simp [pilotAddrs, Groups.addresses]

section

variable {σ : Type} [DecidableEq σ] {l : Listener σ} {view : Adopted σ} {views : List (Adopted σ)}

-- A new view reaches the workers as a change of the pilot groups, and in no other way.
theorem adopt_workers (hs : Accepts sys) (ha : cfg.autoJoinFromManifest)
    (hr : ∀ w ∈ l.workers, w.running) :
    (l.adopt fab sys cfg view).workers =
      l.workers.map (follow fab cfg l.prev.pilotGroups view.pilotGroups) := by
  simp only [Listener.adopt, fireHooks, hooks, id_eq, ite_self, List.foldl_fixed]
  split
  case isTrue => exact onPilotGroupsChange_eq hs ha hr
  case isFalse hn =>
    have ⟨h₁, h₂⟩ := not_or.mp hn
    have e : follow fab cfg l.prev.pilotGroups view.pilotGroups = id :=
      funext fun w => follow_unchanged (not_not.mp h₁) (not_not.mp h₂)
    rw [e, List.map_id]

-- The step lemma: a worker that had joined the groups of start-up and those of the last view has
-- joined those for the new view, except for the ones it has left.
theorem joinedGroups_follow {S : Finset IP} (hw : w.joinedGroups = S ∪ pilotAddrs fab prev)
    (hstatic : ∀ idx a, inStaticInclude cfg.shardInclude idx →
      fab.addr idx.toNat = some a → a ∈ S) :
    (follow fab cfg prev next w).joinedGroups =
      (S ∪ pilotAddrs fab next) \ pilotAddrs fab (leaving cfg prev next) := by
  ext a
  simp only [follow, hw, Finset.mem_sdiff, Finset.mem_union, and_congr_left_iff]
  intro hn
  constructor
  case mp =>
    rintro ((hm | hm) | hm)
    case inl.inl => exact .inl hm
    case inl.inr =>
      -- A group of the last view is in the new one, or is static, or was left.
      have ⟨idx, hi, ha⟩ := mem_pilotAddrs.mp hm
      by_cases hnext : idx ∈ next
      case pos => exact .inr (mem_pilotAddrs.mpr ⟨idx, hnext, ha⟩)
      case neg =>
        by_cases hin : inStaticInclude cfg.shardInclude idx
        case pos => exact .inl (hstatic idx a hin ha)
        case neg => exact absurd (mem_pilotAddrs.mpr ⟨idx, mem_leaving.mpr ⟨hi, hnext, hin⟩, ha⟩) hn
    case inr =>
      have ⟨idx, hi, ha⟩ := mem_pilotAddrs.mp hm
      exact .inr (mem_pilotAddrs.mpr ⟨idx, List.mem_of_mem_filter hi, ha⟩)
  case mpr =>
    rintro (hm | hm)
    case inl => exact .inl (.inl hm)
    case inr =>
      have ⟨idx, hi, ha⟩ := mem_pilotAddrs.mp hm
      by_cases hprev : idx ∈ prev
      case pos => exact .inl (.inr (mem_pilotAddrs.mpr ⟨idx, hprev, ha⟩))
      case neg => exact .inr (mem_pilotAddrs.mpr ⟨idx, by simp [hi, hprev], ha⟩)

namespace Listener

variable (fab : Fabric) (cfg : Config) (beefJoinIdx : List GroupIdx)

-- Every worker has joined the groups of start-up and those of the current view, and no others.
def Joined (l : Listener σ) : Prop :=
  ∀ w ∈ l.workers, w.joinedGroups = startup fab cfg beefJoinIdx ∪ pilotAddrs fab l.prev.pilotGroups

-- A pilot group that the view drops, and that is not in the include list, does not have the address
-- of a group of start-up or of the new view.
def Spares (l : Listener σ) (view : Adopted σ) : Prop :=
  ∀ idx ∈ l.prev.pilotGroups, idx ∉ view.pilotGroups → ¬inStaticInclude cfg.shardInclude idx →
    ∀ a ∈ fab.addr idx.toNat, a ∉ startup fab cfg beefJoinIdx ∪ pilotAddrs fab view.pilotGroups

variable {fab cfg beefJoinIdx}

omit [DecidableEq σ] in
theorem spares_iff :
    l.Spares fab cfg beefJoinIdx view ↔
      Disjoint (startup fab cfg beefJoinIdx ∪ pilotAddrs fab view.pilotGroups)
        (pilotAddrs fab (leaving cfg l.prev.pilotGroups view.pilotGroups)) := by
  simp only [Spares, Finset.disjoint_right, mem_pilotAddrs, mem_leaving,
    forall_exists_index, and_imp]
  constructor
  case mp  => exact fun h a idx hp hn hi ha => h idx hp hn hi a ha
  case mpr => exact fun h idx hp hn hi a ha => h idx hp hn hi ha

instance : Decidable (l.Joined fab cfg beefJoinIdx) :=
  inferInstanceAs (Decidable (∀ w ∈ _, _ = _))

-- Over the groups of the view and their addresses, not over all groups and addresses.
instance : Decidable (l.Spares fab cfg beefJoinIdx view) :=
  have (idx : UInt16) : Decidable (∀ a ∈ fab.addr idx.toNat,
      a ∉ startup fab cfg beefJoinIdx ∪ pilotAddrs fab view.pilotGroups) :=
        Option.decidableForallMem _
  List.decidableBAll (fun idx => idx ∉ view.pilotGroups → ¬inStaticInclude cfg.shardInclude idx →
    ∀ a ∈ fab.addr idx.toNat, a ∉ startup fab cfg beefJoinIdx ∪ pilotAddrs fab view.pilotGroups)
    l.prev.pilotGroups

theorem joined_adopt_iff (hs : Accepts sys) (ha : cfg.autoJoinFromManifest) (hne : l.workers ≠ [])
    (hr : ∀ w ∈ l.workers, w.running) (hj : l.Joined fab cfg beefJoinIdx) :
    (l.adopt fab sys cfg view).Joined fab cfg beefJoinIdx ↔ l.Spares fab cfg beefJoinIdx view := by
  have hstep (w : Groups) (hw : w ∈ l.workers) :
      (follow fab cfg l.prev.pilotGroups view.pilotGroups w).joinedGroups = _ :=
    joinedGroups_follow (hj w hw) fun idx a hi ha => mem_startup_of_static hi ha
  rw [spares_iff, ← Finset.sdiff_eq_self_iff_disjoint, Joined, adopt_workers hs ha hr,
    List.forall_mem_map]
  constructor
  case mp =>
    intro h
    have ⟨w, hw⟩ := List.exists_mem_of_ne_nil _ hne
    exact (hstep w hw).symm.trans (h w hw)
  case mpr =>
    intro h w hw
    exact (hstep w hw).trans h

-- For every history of views: the workers always have the groups of start-up and those of the
-- current view, exactly if no view drops a pilot group that has to stay.
theorem joined_iff_spares {n : Nat} (hn : n ≠ 0) (hs : Accepts sys) (ha : cfg.autoJoinFromManifest)
    (hw : Groups.run sys (buildGroups fab cfg beefJoinIdx) = .ok w) :
    Run.Always (adopt fab sys cfg) (Joined fab cfg beefJoinIdx) ⟨List.replicate n w, {}⟩ views ↔
      Run.Along (adopt fab sys cfg) (Spares fab cfg beefJoinIdx)
        ⟨List.replicate n w, {}⟩ views := by
  have ⟨hrun, hjoined⟩ := Groups.run_ok hw
  let J (l : Listener σ) := l.workers ≠ [] ∧ ∀ w ∈ l.workers, w.running
  have hj (l : Listener σ) (view : Adopted σ) (h : J l) : J (l.adopt fab sys cfg view) := by
    simp only [J, adopt_workers hs ha h.2, List.forall_mem_map]
    exact ⟨mt List.map_eq_nil_iff.mp h.1, h.2⟩
  refine Run.always_iff_along hj (fun l view h hl => joined_adopt_iff hs ha h.1 h.2 hl) ⟨?_, ?_⟩ ?_
  case refine_1 => simpa using hn
  case refine_2 => intro w' hm; rwa [List.eq_of_mem_replicate hm]
  case refine_3 =>
    intro w' hm
    rw [List.eq_of_mem_replicate hm, hjoined]
    simp [startup, pilotAddrs, Groups.addresses]

end Listener
end

-- A fabric whose addresses are the indices themselves.
def plainFabric : Fabric where
  addr idx                 := some (BitVec.ofNat 128 idx)
  groupBlockBroadcast      := some 0xFFFE
  groupSubtreeDataAnnounce := some 0xFFFD

def acceptAll : Netjoin where
  join _  := true
  leave _ := true

def pilots (idxs : List UInt16) : Adopted Unit :=
  { pilotGroups := idxs }

-- The listener includes group 0. The pilots announce it and two others, and drop them one by one.
theorem Listener.joined_static_include :
    let cfg : Config := { numGroups := 4, shardInclude := [0] }
    Run.Always (Listener.adopt plainFabric acceptAll cfg) (Listener.Joined plainFabric cfg [9])
      ⟨List.replicate 2 ⟨true, startup plainFabric cfg [9]⟩, {}⟩
      [pilots [0, 2, 5], pilots [2, 5], pilots [5], pilots []] := by
  intro cfg
  have hw : Groups.run acceptAll (buildGroups plainFabric cfg [9]) =
      .ok ⟨true, startup plainFabric cfg [9]⟩ := Groups.run_accepted (fun _ => rfl) rfl
  exact (Listener.joined_iff_spares (by decide) ⟨fun _ => rfl, fun _ => rfl⟩ rfl hw).mpr
    (by decide +kernel)

-- With an empty include list, the worker has joined all groups. It leaves the one that the pilots
-- had announced as well.
theorem Listener.all_groups_not_joined :
    let cfg : Config := { numGroups := 4 }
    let w : Groups := ⟨true, startup plainFabric cfg []⟩
    Groups.run acceptAll (buildGroups plainFabric cfg []) = .ok w ∧
      ¬Run.Always (Listener.adopt plainFabric acceptAll cfg) (Listener.Joined plainFabric cfg [])
        ⟨[w], {}⟩ [pilots [1], pilots []] :=
  ⟨Groups.run_accepted (fun _ => rfl) rfl, fun h => absurd h.last (by decide +kernel)⟩

end Manifest
