import ShardListener.Manifest.Sources
import ShardListener.Manifest.Theorems.AutoJoin

namespace Worker.Memberships

variable {sys : Kernel} {m m' : Memberships} {group : IP} {srcs : List IP} {sources : IP → List IP}
variable {grps : List (Option IP)}

-- What is left of a worker when a call of the two is done, with or without an error.

theorem addGroup_cases :
    (m.addGroup sys group srcs).toOption.getD m = m ∨
      (m.addGroup sys group srcs).toOption.getD m =
        { m with joined := m.joined.insert group srcs } := by
  unfold addGroup
  split
  case isTrue => exact .inl rfl
  case isFalse =>
    split
    case isTrue => exact .inl rfl
    case isFalse =>
      split
      case isTrue  => exact .inr rfl
      case isFalse => exact .inl rfl

theorem removeGroup_cases :
    (m.removeGroup sys group).toOption.getD m = m ∨
      (m.removeGroup sys group).toOption.getD m = { m with joined := m.joined.erase group } := by
  unfold removeGroup
  split
  case isTrue => exact .inl rfl
  case isFalse =>
    split
    case isTrue => exact .inl rfl
    case isFalse =>
      split
      case isTrue  => exact .inr rfl
      case isFalse => exact .inl rfl

theorem lookup_foldlM_joinConfigured (h : grps.foldlM (joinConfigured sys sources) m = .ok m') :
    m'.joined.lookup group = if some group ∈ grps then some (sources group)
      else m.joined.lookup group := by
  induction grps generalizing m
  case nil => cases h; rfl
  case cons grp grps hi =>
    cases grp
    case none => cases h
    case some ga =>
      simp only [List.foldlM_cons, joinConfigured] at h
      split at h
      case isFalse => cases h
      case isTrue =>
        rw [hi h, AList.lookup_insert_eq_ite]
        by_cases e : group = ga
        case pos => subst e; simp
        case neg => simp [e]

-- The worker starts with the configured groups, each with its sources.
theorem lookup_run (h : run sys sources grps = .ok m) :
    m.joined.lookup group = if some group ∈ grps then some (sources group) else none :=
  lookup_foldlM_joinConfigured h

end Worker.Memberships

namespace Manifest

open Worker (Kernel Memberships Netjoin Groups)

variable {boot : Bootstrap} {cfg : SSMConfig} {beef : List GroupIdx} {sys : Kernel}
variable {own : Option IP}
variable {m m' m'' : Memberships} {S T : UInt16 → Prop} {idx : UInt16} {idxs : List UInt16}
variable {ms : List Memberships}
variable {srcs : List IP}

-- What changes is at the groups of some indices, and what is joined there is joined without
-- sources.
structure Touches (boot : Bootstrap) (S : UInt16 → Prop) (m m' : Memberships) : Prop where
  elsewhere : ∀ group, (∀ idx, S idx → boot.groupAddr idx ≠ group) →
    m'.joined.lookup group = m.joined.lookup group
  sources   : ∀ group srcs, m'.joined.lookup group = some srcs →
    m.joined.lookup group = some srcs ∨ srcs = []

namespace Touches

theorem refl : Touches boot S m m :=
  ⟨fun _ _ => rfl, fun _ _ => .inl⟩

theorem trans (h : Touches boot S m m') (h' : Touches boot S m' m'') : Touches boot S m m'' where
  elsewhere g hg    := (h'.elsewhere g hg).trans (h.elsewhere g hg)
  sources g srcs hg := (h'.sources g srcs hg).elim (h.sources g srcs) .inr

theorem mono (hs : ∀ idx, S idx → T idx) (h : Touches boot S m m') : Touches boot T m m' :=
  ⟨fun g hg => h.elsewhere g fun idx hidx => hg idx (hs idx hidx), h.sources⟩

theorem insert (hs : S idx) :
    Touches boot S m { m with joined := m.joined.insert (boot.groupAddr idx) [] } where
  elsewhere g hg    := AList.lookup_insert_ne (hg idx hs).symm
  sources g srcs hg := by
    rw [AList.lookup_insert_eq_ite] at hg
    split at hg
    case isTrue  => cases hg; exact .inr rfl
    case isFalse => exact .inl hg

theorem erase (hs : S idx) :
    Touches boot S m { m with joined := m.joined.erase (boot.groupAddr idx) } where
  elsewhere g hg    := AList.lookup_erase_ne (hg idx hs).symm
  sources g srcs hg := by
    rw [AList.lookup_erase_eq_ite] at hg
    split at hg
    case isTrue  => cases hg
    case isFalse => exact .inl hg

theorem sourcedAdd (hs : S idx) : Touches boot S m (sourcedAdd boot sys idx m) := by
  unfold Manifest.sourcedAdd
  rcases Memberships.addGroup_cases with e | e
  case inl => rw [e]; exact .refl
  case inr => rw [e]; exact .insert hs

theorem sourcedRemove (hs : S idx) : Touches boot S m (sourcedRemove boot cfg sys idx m) := by
  unfold Manifest.sourcedRemove
  split
  case isTrue => exact .refl
  case isFalse =>
    rcases Memberships.removeGroup_cases with e | e
    case inl => rw [e]; exact .refl
    case inr => rw [e]; exact .erase hs

end Touches

-- Every worker has become one of those after it, by changes at the groups of some indices.
def Follow (boot : Bootstrap) (S : UInt16 → Prop) (ms ms' : List Memberships) : Prop :=
  ∀ m' ∈ ms', ∃ m ∈ ms, Touches boot S m m'

namespace Follow

variable {ms' ms'' : List Memberships}

theorem refl : Follow boot S ms ms :=
  fun m hm => ⟨m, hm, .refl⟩

theorem trans (h : Follow boot S ms ms') (h' : Follow boot S ms' ms'') : Follow boot S ms ms'' := by
  intro m'' hm''
  obtain ⟨m', hm', ht'⟩ := h' m'' hm''
  obtain ⟨m, hm, ht⟩ := h m' hm'
  exact ⟨m, hm, ht.trans ht'⟩

theorem mono (hs : ∀ idx, S idx → T idx) (h : Follow boot S ms ms') : Follow boot T ms ms' := by
  intro m' hm'
  obtain ⟨m, hm, ht⟩ := h m' hm'
  exact ⟨m, hm, ht.mono hs⟩

-- A loop over indices, with a loop over the workers in it.
theorem foldl {f : UInt16 → Memberships → Memberships} (hs : ∀ idx ∈ idxs, S idx)
    (hf : ∀ idx m, S idx → Touches boot S m (f idx m)) :
    Follow boot S ms (idxs.foldl (fun ms idx => ms.map (f idx)) ms) := by
  induction idxs generalizing ms
  case nil => exact .refl
  case cons idx idxs hi =>
    obtain ⟨hidx, hrest⟩ := List.forall_mem_cons.mp hs
    refine trans (fun m' hm' => ?_) (hi hrest)
    obtain ⟨m, hm, rfl⟩ := List.mem_map.mp hm'
    exact ⟨m, hm, hf idx m hidx⟩

end Follow

section

variable {σ : Type} [DecidableEq σ] {l : Applier σ (List Memberships)} {v : Kernel × Adopted σ}
variable {vs : List (Kernel × Adopted σ)}

-- A new view changes memberships at its pilot groups and those of the last view.
theorem follow_subscribe :
    Follow boot (fun idx => idx ∈ l.prev.pilotGroups ∨ idx ∈ v.2.pilotGroups) l.world
      (subscribe boot cfg l v).world := by
  simp only [subscribe, Applier.tick, fireHooks, sourcedHooks, id_eq, ite_self, List.foldl_fixed]
  split
  case isFalse => exact .refl
  case isTrue =>
    split
    case isTrue => exact .refl
    case isFalse =>
      refine .trans (.foldl (fun idx hidx => ?_) fun idx m hs => .sourcedAdd hs)
        (.foldl (fun idx hidx => ?_) fun idx m hs => .sourcedRemove hs)
      case refine_1 => exact .inr (mem_diffUint16.1.mp hidx).1
      case refine_2 => exact .inl (mem_diffUint16.2.mp hidx).1

theorem follow_subscribes :
    Follow boot (fun idx => idx ∈ l.prev.pilotGroups ∨ ∃ v ∈ vs, idx ∈ v.2.pilotGroups) l.world
      (Run.exec (subscribe boot cfg) l vs).world := by
  induction vs generalizing l
  case nil => exact .refl
  case cons v vs hi =>
    refine .trans (follow_subscribe.mono fun idx hidx => ?_) (hi.mono fun idx hidx => ?_)
    case refine_1 => exact hidx.imp_right fun h => ⟨v, List.mem_cons_self, h⟩
    case refine_2 =>
      rcases hidx with h | ⟨v', hv', h⟩
      case inl => exact .inr ⟨v, List.mem_cons_self, h⟩
      case inr => exact .inr ⟨v', List.mem_cons_of_mem _ hv', h⟩

end

-- The indices of the groups of start-up.
def startupIndices (cfg : SSMConfig) (beef : List GroupIdx) : List UInt16 :=
  (if cfg.shardInclude ≠ [] then cfg.shardInclude else List.range cfg.numGroups).map Nat.toUInt16 ++
    [groupBlockBroadcast] ++ (if cfg.subtreeDataEnabled then [groupSubtreeDataAnnounce] else []) ++
    beef.map Nat.toUInt16

-- The sources that are meant for a group: those of the control groups, and the static ones for the
-- data plane, if there are any.

def Rosters.control (r : Rosters own) (idx : UInt16) : List IP :=
  if idx = groupBlockBroadcast then r.manifest.srcs
  else if idx = groupSubtreeGroupAnnounce ∨ idx = groupSubtreeDataAnnounce then r.subtreeAnn.srcs
  else if idx = groupBeacon then r.beacon.srcs
  else []

def Rosters.sourcesOf (cfg : SSMConfig) (beef : List GroupIdx) (r : Rosters own) (idx : UInt16) :
    List IP :=
  if idx ∈ (List.range cfg.numGroups ++ beef).map Nat.toUInt16 ∧ r.static.srcs ≠ [] then
    r.static.srcs
  else r.control idx

theorem buildGroups_fabric :
    buildGroups boot.fabric cfg.toConfig beef = (startupIndices cfg beef).map fun idx =>
      some (boot.groupAddr idx) := by
  simp only [buildGroups, startupIndices, Bootstrap.fabric, List.map_append, List.map_map]
  split <;> split <;> rfl

section

variable {gs : Dict IP (Roster own)} {r : Roster own} {i : UInt16}

-- What is found for a group.
def found (gs : Dict IP (Roster own)) (group : IP) : List IP :=
  ((gs.lookup group).map Roster.srcs).getD []

theorem found_put (hinj : Function.Injective boot.groupAddr) :
    found (put boot.groupAddr gs i r) (boot.groupAddr idx) =
      if idx = i ∧ r.srcs ≠ [] then r.srcs else found gs (boot.groupAddr idx) := by
  unfold put
  split
  case isTrue h => rw [if_neg fun hi => hi.2 h]
  case isFalse h =>
    by_cases e : idx = i
    case pos =>
      subst e
      rw [if_pos ⟨rfl, h⟩, found, AList.lookup_insert]
      rfl
    case neg =>
      rw [if_neg fun hi => e hi.1, found, AList.lookup_insert_ne (hinj.ne e)]
      rfl

theorem found_foldl_put (hinj : Function.Injective boot.groupAddr) {is : List GroupIdx}
    (hr : r.srcs ≠ []) :
    found (is.foldl (fun gs i => put boot.groupAddr gs i.toUInt16 r) gs) (boot.groupAddr idx) =
      if idx ∈ is.map Nat.toUInt16 then r.srcs else found gs (boot.groupAddr idx) := by
  induction is generalizing gs
  case nil => rfl
  case cons i is hi =>
    rw [List.foldl_cons, hi, found_put hinj]
    by_cases e : idx = i.toUInt16
    case pos => simp [e, hr]
    case neg => simp [e]

end

-- A list that is empty is not put in.
theorem ite_and_ne_nil {P : Prop} [Decidable P] {l l' : List IP} (h : P → l' = []) :
    (if P ∧ l ≠ [] then l else l') = if P then l else l' := by
  by_cases hp : P
  case neg => rw [if_neg fun hi => hp hi.1, if_neg hp]
  case pos =>
    rw [if_pos hp, h hp]
    by_cases hl : l = []
    case pos => rw [if_neg fun hi => hi.2 hl, hl]
    case neg => rw [if_pos ⟨hp, hl⟩]

theorem found_groupSources (hinj : Function.Injective boot.groupAddr) {r : Rosters own} :
    found (groupSources boot cfg beef r) (boot.groupAddr idx) = r.sourcesOf cfg beef idx := by
  have hempty : found (∅ : Dict IP (Roster own)) (boot.groupAddr idx) = [] := rfl
  have hcontrol :
      found
        (put boot.groupAddr
          (put boot.groupAddr
            (put boot.groupAddr (put boot.groupAddr ∅ groupBeacon r.beacon)
              groupSubtreeDataAnnounce r.subtreeAnn)
            groupSubtreeGroupAnnounce r.subtreeAnn)
          groupBlockBroadcast r.manifest)
        (boot.groupAddr idx) = r.control idx := by
    simp only [found_put hinj, hempty, Rosters.control, ite_or]
    rw [ite_and_ne_nil, ite_and_ne_nil, ite_and_ne_nil, ite_and_ne_nil]
    all_goals
      rintro rfl
      rfl
  unfold groupSources Rosters.sourcesOf
  split
  case isTrue h => rw [hcontrol, if_neg fun hi => hi.2 h]
  case isFalse h =>
    rw [found_foldl_put hinj h, hcontrol]
    by_cases e : idx ∈ (List.range cfg.numGroups ++ beef).map Nat.toUInt16
    case pos => rw [if_pos e, if_pos ⟨e, h⟩]
    case neg => rw [if_neg e, if_neg fun hi => e hi.1]

-- The node's own source is not among them.
theorem not_mem_sourcesOf {a : IP} (ha : a ∈ own) {r : Rosters own} :
    a ∉ r.sourcesOf cfg beef idx := by
  unfold Rosters.sourcesOf
  split
  case isTrue => exact r.static.guarded a ha
  case isFalse =>
    unfold Rosters.control
    repeat' split
    case isTrue                  => exact r.manifest.guarded a ha
    case isFalse.isTrue          => exact r.subtreeAnn.guarded a ha
    case isFalse.isFalse.isTrue  => exact r.beacon.guarded a ha
    case isFalse.isFalse.isFalse => exact List.not_mem_nil

section

variable {σ : Type} [DecidableEq σ] {s : Sources} {w : Memberships} {n : Nat} {group : IP}
variable {vs : List (Kernel × Adopted σ)}

theorem groups_of_buildSSMSources (hs : buildSSMSources boot cfg beef = .ok s) :
    s.groups = groupSources boot cfg beef s.rosters := by
  unfold buildSSMSources at hs
  cases ho : ownSource boot cfg
  case error => rw [ho] at hs; cases hs
  case ok own =>
    rw [ho] at hs
    cases hr : resolveAll boot cfg own
    case error => simp only [bind, Except.bind, hr] at hs; cases hs
    case ok r  => simp only [bind, Except.bind, hr] at hs; cases hs; rfl

theorem lookup_start (hinj : Function.Injective boot.groupAddr)
    (hs : buildSSMSources boot cfg beef = .ok s) (hw : start boot cfg sys beef s = .ok w) :
    w.joined.lookup group = some srcs ↔
      ∃ idx ∈ startupIndices cfg beef, boot.groupAddr idx = group ∧
        s.rosters.sourcesOf cfg beef idx = srcs := by
  have hfound (idx : UInt16) : s.lookup (boot.groupAddr idx) =
      s.rosters.sourcesOf cfg beef idx := by
    rw [← found_groupSources hinj, ← groups_of_buildSSMSources hs]
    rfl
  rw [Memberships.lookup_run hw, buildGroups_fabric, Option.ite_none_right_eq_some, List.mem_map]
  constructor
  case mp =>
    rintro ⟨⟨idx, hidx, e⟩, hsrcs⟩
    obtain rfl := Option.some.inj e
    exact ⟨idx, hidx, rfl, (hfound idx).symm.trans (Option.some.inj hsrcs)⟩
  case mpr =>
    rintro ⟨idx, hidx, rfl, rfl⟩
    exact ⟨⟨idx, hidx, rfl⟩, congrArg some (hfound idx)⟩

end

-- The node and another one publish the data plane, and the node alone the manifests.

def pairBoot : Bootstrap where
  parseAddr _       := some 1
  resolve entries   := some ((List.range entries.length).map fun i => BitVec.ofNat 128 (i + 1))
  groupAddr idx     := BitVec.ofNat 128 idx.toNat

def pairConfig : SSMConfig :=
  { numGroups := 2, localSource := "self", ssmBootstrapManifest := ["self"],
    ssmPublishersStatic := ["self", "other"] }

def pairKernel : Kernel :=
  ⟨fun _ _ => true, fun _ => true⟩

def pairSources : Sources :=
  let own := some 1
  let rosters : Rosters own := ⟨.none, excludeOwnSource [1] own, .none, excludeOwnSource [1, 2] own⟩
  ⟨own, rosters, groupSources pairBoot pairConfig [] rosters⟩

theorem pairBoot_injective : Function.Injective pairBoot.groupAddr := by
  intro i j h
  have hn : i.toNat % 2 ^ 128 = j.toNat % 2 ^ 128 := congrArg BitVec.toNat h
  have hi := i.toNat_lt
  have hj := j.toNat_lt
  exact UInt16.toNat_inj.mp (by omega)

-- Without the sources, the memberships are the joined groups.
section

variable {sys : Netjoin} {group : IP} {e : Worker.GroupError}

-- A kernel that does not look at the sources.
def sourceless (sys : Netjoin) : Kernel where
  join group _ := sys.join group
  leave        := sys.leave

theorem mem_joinedGroups : group ∈ m.groups.joinedGroups ↔ group ∈ m.joined := by
  simp only [Memberships.groups, List.mem_toFinset, AList.mem_keys]

theorem groups_insert :
    Memberships.groups { m with joined := m.joined.insert group srcs } =
      { m.groups with joinedGroups := insert group m.groups.joinedGroups } := by
  refine congrArg (Groups.mk m.running) (Finset.ext fun g => ?_)
  simp only [List.mem_toFinset, Finset.mem_insert, Memberships.groups,
    ← AList.mem_keys, AList.mem_insert]

theorem groups_erase :
    Memberships.groups { m with joined := m.joined.erase group } =
      { m.groups with joinedGroups := m.groups.joinedGroups.erase group } := by
  refine congrArg (Groups.mk m.running) (Finset.ext fun g => ?_)
  simp only [List.mem_toFinset, Finset.mem_erase, Memberships.groups,
    ← AList.mem_keys, AList.mem_erase]

theorem groups_ok :
    Except.map Memberships.groups (.ok m : Except Worker.GroupError Memberships) = .ok m.groups :=
  rfl

theorem groups_addGroup :
    (m.addGroup (sourceless sys) group srcs).map Memberships.groups =
      m.groups.addGroup sys group := by
  simp only [Memberships.addGroup, Groups.addGroup, mem_joinedGroups,
    apply_ite (Except.map Memberships.groups), groups_ok, groups_insert]
  rfl

theorem groups_removeGroup :
    (m.removeGroup (sourceless sys) group).map Memberships.groups =
      m.groups.removeGroup sys group := by
  simp only [Memberships.removeGroup, Groups.removeGroup, mem_joinedGroups,
    apply_ite (Except.map Memberships.groups), groups_ok, groups_erase]
  rfl

theorem groups_getD {r : Except Worker.GroupError Memberships} :
    (r.toOption.getD m).groups = (r.map Memberships.groups).toOption.getD m.groups := by
  cases r
  case error => rfl
  case ok    => rfl

theorem groups_sourcedAdd :
    (sourcedAdd boot (sourceless sys) idx m).groups = autoAdd boot.fabric sys idx m.groups := by
  rw [sourcedAdd, groups_getD, groups_addGroup]
  simp only [autoAdd, Bootstrap.fabric, Nat.toUInt16_eq, UInt16.ofNat_toNat]

theorem groups_sourcedRemove :
    (sourcedRemove boot cfg (sourceless sys) idx m).groups =
      autoRemove boot.fabric sys cfg.toConfig idx m.groups := by
  simp only [sourcedRemove, autoRemove, Bootstrap.fabric, Nat.toUInt16_eq, UInt16.ofNat_toNat]
  split
  case isTrue  => rfl
  case isFalse => rw [groups_getD, groups_removeGroup]

theorem groups_foldl {f : UInt16 → Memberships → Memberships} {g : UInt16 → Groups → Groups}
    (h : ∀ idx m, (f idx m).groups = g idx m.groups) :
    (idxs.foldl (fun ms idx => ms.map (f idx)) ms).map Memberships.groups =
      idxs.foldl (fun ws idx => ws.map (g idx)) (ms.map Memberships.groups) := by
  induction idxs generalizing ms
  case nil => rfl
  case cons idx idxs hi =>
    rw [List.foldl_cons, List.foldl_cons, hi, List.map_map, List.map_map]
    exact congrArg (idxs.foldl _) (List.map_congr_left fun m _ => h idx m)

theorem groups_start {s : Sources} :
    (start boot cfg (sourceless sys) beef s).map Memberships.groups =
      Groups.run sys (buildGroups boot.fabric cfg.toConfig beef) := by
  have hfold (grps : List (Option IP)) (m : Memberships) :
      (grps.foldlM (Memberships.joinConfigured (sourceless sys) s.lookup) m).map
        Memberships.groups = grps.foldlM (Groups.joinConfigured sys) m.groups := by
    induction grps generalizing m
    case nil => rfl
    case cons grp grps hi =>
      cases grp
      case none => rfl
      case some ga =>
        simp only [List.foldlM_cons, Memberships.joinConfigured, Groups.joinConfigured, sourceless]
        split
        case isFalse => rfl
        case isTrue =>
          refine (hi _).trans ?_
          rw [groups_insert]
          rfl
  exact hfold _ _

section

variable {σ : Type} [DecidableEq σ] {l : Applier σ (List Memberships)} {view : Adopted σ}
variable {views : List (Adopted σ)}

def withoutSources (l : Applier σ (List Memberships)) : Listener σ where
  workers := l.world.map Memberships.groups
  prev    := l.prev

theorem groups_subscribe :
    (subscribe boot cfg l (sourceless sys, view)).world.map Memberships.groups =
      ((withoutSources l).adopt boot.fabric sys cfg.toConfig view).workers := by
  dsimp only [subscribe, Applier.tick, Listener.adopt, withoutSources]
  simp only [fireHooks, sourcedHooks, hooks, id_eq, ite_self, List.foldl_fixed, onPilotGroupsChange]
  split
  case isFalse => rfl
  case isTrue =>
    split
    case isTrue  => rfl
    case isFalse =>
      have hadd (idx : UInt16) (m : Memberships) :
          (sourcedAdd boot (sourceless sys) idx m).groups = _ :=
        groups_sourcedAdd
      have hremove (idx : UInt16) (m : Memberships) :
          (sourcedRemove boot cfg (sourceless sys) idx m).groups = _ :=
        groups_sourcedRemove
      rw [groups_foldl hremove, groups_foldl hadd]

theorem withoutSources_subscribe :
    withoutSources (subscribe boot cfg l (sourceless sys, view)) =
      (withoutSources l).adopt boot.fabric sys cfg.toConfig view :=
  congrArg (Listener.mk · view) groups_subscribe

-- In every run, the memberships are at the joined groups.
theorem withoutSources_exec :
    withoutSources (Run.exec (subscribe boot cfg) l (views.map (sourceless sys, ·))) =
      Run.exec (Listener.adopt boot.fabric sys cfg.toConfig) (withoutSources l) views := by
  induction views generalizing l
  case nil              => rfl
  case cons v views hi =>
    rw [List.map_cons, Run.exec_cons, Run.exec_cons, hi, withoutSources_subscribe]

end
end
end Manifest
