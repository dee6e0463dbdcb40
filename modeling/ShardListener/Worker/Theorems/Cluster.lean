import ShardListener.TxDedup.Theorems.Store
import ShardListener.Worker.Theorems.Claims

-- What the listeners of one deployment forward, whatever the other deployments do.
namespace Cluster

open Worker TxDedup

variable {ι : Type}

section

variable (key : Bytes32) (D : ι → Prop) [DecidablePred D]

-- How often, by whom and when a frame that is claimed under the key is forwarded in a step, among
-- the listeners in `D`.
def forwarded (wire : Wire) (cfg : ι → Settings) (c : Cluster ι) : Act ι → List (ι × Time)
  | .event i ev clock =>
    if D i ∧ ev.frameClaim wire (cfg i) (c i) = some key then
      let n := (c i).react wire (cfg i) ev
      List.replicate (n.worker.forwards wire key - (c i).worker.forwards wire key) (i, clock)
    else []
  | .mark ..          => []

-- The same for a run.
def forwards [DecidableEq ι] (wire : Wire) (cfg : ι → Settings) :
    Cluster ι → List (Act ι) → List (ι × Time) :=
  Run.outputs (step wire cfg) (forwarded key D wire cfg)

-- The claims of the listeners in `D` to the key that are granted.
def granted (x : Call ι) : Option (ι × Time) :=
  if D x.caller ∧ x.id = key ∧ x.answer = some .claimed then some (x.caller, x.clock) else none

end

-- The frames under the key that are put together can be encoded again, and the key is none that a
-- bundle is claimed under.
def Act.Proper (wire : Wire) (cfg : ι → Settings) (key : Bytes32) (c : Cluster ι) : Act ι → Prop
  | .event i ev _ =>
    ev.Reencodes wire (cfg i) key (c i) ∧ key ∉ (c i).bundleClaims wire (cfg i) ev
  | .mark ..      => True

-- The listeners in `D` have no dedup set.
def Setless (D : ι → Prop) (c : Cluster ι) : Prop :=
  ∀ i, D i → (c i).worker.dedupSet = none

variable {wire : Wire} {cfg : ι → Settings} {store : ι → Store} {key : Bytes32} {c : Cluster ι}
variable {i : ι}
variable {ev : Node.Event} {clock : Time} {a : Act ι} {D : ι → Prop} {as : List (Act ι)}
variable {x : Call ι}

theorem mem_calls_event (store : ι → Store) (clock : Time) (ht : (cfg i).txDedup)
    (hk : ev.frameClaim wire (cfg i) (c i) = some key) :
    ⟨i, (store i).egress, key, clock, some (ev.answer key)⟩ ∈
      c.calls wire cfg store (.event i ev clock) := by
  rw [calls, if_pos ht, hk]
  exact List.mem_map.mpr ⟨key, List.mem_cons_self, rfl⟩

-- A claim is one of an event, for a frame or for a bundle.
theorem claims_of_mem_calls (hx : x ∈ c.calls wire cfg store a) {answer : Claim}
    (ha : x.answer = some answer) :
    ∃ i ev clock, a = .event i ev clock ∧ (cfg i).txDedup ∧
      x = ⟨i, (store i).egress, x.id, clock, some (ev.answer x.id)⟩ ∧
      (ev.frameClaim wire (cfg i) (c i) = some x.id ∨
        x.id ∈ (c i).bundleClaims wire (cfg i) ev) := by
  cases a
  case mark =>
    obtain ⟨_, _, rfl⟩ := List.mem_map.mp hx
    cases ha
  case event i ev clock =>
    simp only [calls] at hx
    split at hx
    case isFalse   => cases hx
    case isTrue ht =>
      obtain ⟨id, hid, rfl⟩ := List.mem_map.mp hx
      refine ⟨i, ev, clock, rfl, ht, rfl, ?_⟩
      exact (List.mem_append.mp hid).imp_left Option.mem_toList.mp

theorem space_of_mark (hx : x ∈ c.calls wire cfg store a) (ha : x.answer = none) :
    (store x.caller).ingress = some x.space := by
  cases a
  case mark =>
    obtain ⟨space, hs, rfl⟩ := List.mem_map.mp hx
    exact Option.mem_toList.mp hs
  case event =>
    simp only [calls] at hx
    split at hx
    case isFalse => cases hx
    case isTrue  =>
      obtain ⟨_, _, rfl⟩ := List.mem_map.mp hx
      cases ha

theorem Founded.of_taken {window : Duration} {log rest : List (Call ι)}
    (h : Founded window key (log ++ x :: rest)) (hid : x.id = key) (ha : x.answer = some .taken) :
    ∃ y ∈ log, y.space.head = x.space.head ∧ y.id = key ∧ y.answer ≠ some .taken ∧
      x.clock < y.clock + window := by
  have hx := (Run.Along.append.mp h).2.1 hid ha
  rwa [Run.exec_concat, List.nil_append] at hx

section

variable [DecidablePred D]

-- A listener that forwards a frame has claimed it and not been refused, and has done so once.
theorem forwarded_event (ht : D i → (cfg i).txDedup) :
    c.forwarded key D wire cfg (.event i ev clock) = [] ∨
      c.forwarded key D wire cfg (.event i ev clock) = [(i, clock)] ∧ D i ∧
        ev.frameClaim wire (cfg i) (c i) = some key ∧ ev.answer key ≠ .taken := by
  simp only [forwarded]
  split
  case isFalse => exact .inl rfl
  case isTrue h =>
    obtain ⟨hD, hk⟩ := h
    have hs := Node.serves_react (ht hD) hk
    rcases Nat.lt_or_ge ((c i).worker.forwards wire key)
      (((c i).react wire (cfg i) ev).worker.forwards wire key) with hlt | hge
    case inl =>
      have e := hs.once.antisymm hlt
      exact .inr ⟨by rw [e, Nat.add_sub_cancel_left, List.replicate_one], hD, hk, hs.only hlt⟩
    case inr => exact .inl (by rw [Nat.sub_eq_zero_of_le hge, List.replicate_zero])

theorem mem_forwarded (hD : D i) (ht : (cfg i).txDedup) (hr : ev.Reencodes wire (cfg i) key (c i))
    (hs : (c i).worker.dedupSet = none) (hk : ev.frameClaim wire (cfg i) (c i) = some key)
    (hg : ev.answer key ≠ .taken) :
    (i, clock) ∈ c.forwarded key D wire cfg (.event i ev clock) := by
  have hlt := (Node.serves_react ht hk).sure hr hs hg
  rw [forwarded, if_pos ⟨hD, hk⟩]
  exact List.mem_replicate.mpr ⟨(Nat.sub_pos_of_lt hlt).ne', rfl⟩

-- Each forward has a claim of its own.
theorem forwarded_sublist (ht : ∀ i, D i → (cfg i).txDedup)
    (hr : Reliable D key (c.calls wire cfg store a)) :
    (c.forwarded key D wire cfg a).Sublist
      ((c.calls wire cfg store a).filterMap (granted key D)) := by
  cases a
  case mark => exact List.nil_sublist _
  case event i ev clock =>
    rcases @forwarded_event ι wire cfg key c i ev clock D _ (ht i) with e | ⟨e, hD, hk, hg⟩
    case inl => rw [e]; exact List.nil_sublist _
    case inr =>
      have hmem := mem_calls_event store clock (ht i hD) hk
      have hclaimed : ev.answer key = .claimed := by
        have hno := hr _ hmem hD rfl
        cases h : ev.answer key
        case claimed => rfl
        case taken   => exact absurd h hg
        case error   => exact absurd (congrArg some h) hno
      rw [e, List.singleton_sublist]
      refine List.mem_filterMap.mpr ⟨_, hmem, ?_⟩
      rw [granted, if_pos ⟨hD, rfl, congrArg some hclaimed⟩]

theorem granted_eq_some {y : ι × Time} (h : granted key D x = some y) :
    (D x.caller ∧ x.id = key ∧ x.answer = some .claimed) ∧ y = (x.caller, x.clock) := by
  obtain ⟨hx, h⟩ := Option.ite_none_right_eq_some.mp h
  exact ⟨hx, (Option.some_inj.mp h).symm⟩

end

variable [DecidableEq ι]

theorem space_of_mem_log {answer : Claim} (hx : x ∈ c.log wire cfg store as)
    (ha : x.answer = some answer) : x.space = (store x.caller).egress := by
  obtain ⟨_, _, _, _, hx⟩ := Run.mem_outputs_iff.mp hx
  obtain ⟨i, ev, clock, _, _, e, _⟩ := claims_of_mem_calls hx ha
  rw [e]

theorem Setless.step (h : Setless D c) : Setless D (c.step wire cfg a) := by
  cases a
  case mark => exact h
  case event i ev clock =>
    intro j hj
    by_cases hji : j = i
    case pos =>
      subst hji
      rw [Cluster.step, Function.update_self]
      exact Node.bare_react (h j hj)
    case neg =>
      rw [Cluster.step, Function.update_of_ne hji]
      exact h j hj

theorem Setless.exec (h : Setless D c) : Setless D (Run.exec (Cluster.step wire cfg) c as) :=
  Run.exec_of_step (Setless D) (fun _ _ => Setless.step) h

section

variable [DecidablePred D]

theorem forwards_sublist (ht : ∀ i, D i → (cfg i).txDedup)
    (hr : Reliable D key (c.log wire cfg store as)) :
    (c.forwards key D wire cfg as).Sublist ((c.log wire cfg store as).filterMap (granted key D)) :=
  Run.outputs_sublist (fun _ _ => forwarded_sublist ht) (Run.along_of_outputs hr)

-- What is claimed and not refused is forwarded.
theorem mem_forwards_of_claim {answer : Claim} (hs : Setless D c)
    (hp : Run.Along (step wire cfg) (fun c a => a.Proper wire cfg x.id c) c as)
    (hx : x ∈ c.log wire cfg store as) (hD : D x.caller) (ha : x.answer = some answer)
    (hg : answer ≠ .taken) : (x.caller, x.clock) ∈ c.forwards x.id D wire cfg as := by
  obtain ⟨before, a, after, rfl, hmem⟩ := Run.mem_outputs_iff.mp hx
  have hp := (Run.Along.append.mp hp).2.1
  refine Run.mem_outputs_iff.mpr ⟨before, a, after, rfl, ?_⟩
  obtain ⟨i, ev, clock, rfl, ht, e, hk⟩ := claims_of_mem_calls hmem ha
  have hcaller : x.caller = i := congrArg Call.caller e
  have hclock : x.clock = clock := congrArg Call.clock e
  have hanswer : some (ev.answer x.id) = some answer := (congrArg Call.answer e).symm.trans ha
  rw [hcaller] at hD
  rw [hcaller, hclock]
  exact mem_forwarded hD ht hp.1 (hs.exec i hD) (hk.resolve_right hp.2)
    (Option.some_inj.mp hanswer ▸ hg)

end

section

variable {config : ι → Config} {pre d : String} {window : Duration}

-- Two forwards of a frame by listeners of one deployment are at least the lifetime of a claim
-- apart, if the store is exclusive and answers.
theorem forwards_apart (hstore : ∀ i, newWithConfig (config i) = .ok (store i))
    (hpre : ∀ i, (config i).deploymentID = d → (config i).egressPrefix = pre)
    (ht : ∀ i, (config i).deploymentID = d → (cfg i).txDedup)
    (hx : Exclusive key (c.log wire cfg store as))
    (hr : Reliable (fun i => (config i).deploymentID = d) key (c.log wire cfg store as)) :
    (c.forwards key (fun i => (config i).deploymentID = d) wire cfg as).Pairwise
      fun x y => x.2 + (config x.1).egressTTL ≤ y.2 := by
  refine .sublist (forwards_sublist ht hr) (List.pairwise_filterMap.mpr ?_)
  refine hx.imp_of_mem fun {x y} hx hy hxy u hu v hv => ?_
  obtain ⟨⟨hD, hid, ha⟩, rfl⟩ := granted_eq_some hu
  obtain ⟨⟨hD', hid', ha'⟩, rfl⟩ := granted_eq_some hv
  have hspace := (space_of_mem_log hx ha).trans (egress_of_newWithConfig (hstore _))
  have hspace' := (space_of_mem_log hy ha').trans (egress_of_newWithConfig (hstore _))
  have hhead : x.space.head = y.space.head := by
    rw [hspace, hspace']
    exact (egressHead_eq_iff ((hpre _ hD).trans (hpre _ hD').symm)).mpr (hD.trans hD'.symm)
  have hle := hxy hhead hid hid' ha ha'
  rwa [hspace] at hle

-- A wire on which every datagram is one and the same transaction frame, for the examples.
def claimWire : Wire :=
  { Wire.blank with
    decode := fun _ => some ⟨FrameVer.v2, .fill 1, 5, 1, .zero, []⟩
    encode := fun _ => some [7] }

-- Two listeners of the deployment `a`, and one of the deployment `b`.
def trio (i : Fin 3) : Config :=
  { egressTTL := 10, deploymentID := if i = 2 then "b" else "a" }

def trioStore (i : Fin 3) : Store :=
  ⟨⟨(trio i).egressHead, 10⟩, none⟩

theorem trioStore_eq (i : Fin 3) : newWithConfig (trio i) = .ok (trioStore i) := by
  simp [newWithConfig, trio, trioStore]

def trioCfg (_ : Fin 3) : Settings :=
  { Settings.blank with txDedup := true }

def trioCluster : Cluster (Fin 3) :=
  fun _ => Node.wired none

-- The transaction arrives at a listener, with the answer to its claim.
def arrival (answer : Claim) : Node.Event :=
  .datagram { Env.blank with claim := fun _ => answer } []

-- It is forwarded by the first listener, and by the second one when it comes again after a while.
theorem two_forwards_apart :
    let as := [.event 0 (arrival .claimed) 0, .event 1 (arrival .taken) 3,
      .event 2 (arrival .claimed) 4, .event 1 (arrival .claimed) 12]
    let fs :=
      trioCluster.forwards (.fill 1) (fun i => (trio i).deploymentID = "a") claimWire trioCfg as
    fs = [(0, 0), (1, 12)] ∧ fs.Pairwise fun x y => x.2 + (trio x.1).egressTTL ≤ y.2 := by
  refine ⟨by decide +kernel, ?_⟩
  exact forwards_apart trioStore_eq (fun _ _ => rfl) (fun _ _ => rfl) (by decide +kernel)
    (by decide +kernel)

-- Whatever a listener claims for a frame, its deployment has forwarded within the time for which
-- the store refuses a claim: the listener itself, also if the store fails, or one of the others.
-- The other deployments make no difference.
theorem forwarded_in_deployment (as : List (Act ι))
    (hstore : ∀ j, newWithConfig (config j) = .ok (store j))
    (hpre : ∀ j, (config j).egressPrefix = pre)
    (hmark : ∀ j k, (store j).ingress = some k → k.head ≠ (store i).egress.head)
    (hs : Setless (fun j => (config j).deploymentID = (config i).deploymentID) c) (hw : 0 < window)
    (hp : Run.Along (step wire cfg) (fun c a => a.Proper wire cfg key c) c
      (as ++ [.event i ev clock]))
    (hf : Founded window key (c.log wire cfg store (as ++ [.event i ev clock])))
    (ht : (cfg i).txDedup)
    (hk : ev.frameClaim wire (cfg i) (Run.exec (step wire cfg) c as i) = some key) :
    ∃ x ∈ c.forwards key (fun j => (config j).deploymentID = (config i).deploymentID) wire cfg
        (as ++ [.event i ev clock]), clock < x.2 + window := by
  have hhead (j : ι) : (store j).egress.head = (store i).egress.head ↔
      (config j).deploymentID = (config i).deploymentID := by
    rw [egress_of_newWithConfig (hstore j), egress_of_newWithConfig (hstore i)]
    exact egressHead_eq_iff ((hpre j).trans (hpre i).symm)
  obtain ⟨hp, hlast, _⟩ := Run.Along.append.mp hp
  simp only [forwards, Run.outputs_append, List.mem_append]
  by_cases ha : ev.answer key = .taken
  case neg =>
    refine ⟨(i, clock), .inr (List.mem_append_left _ ?_), lt_add_of_pos_right _ hw⟩
    exact mem_forwarded rfl ht hlast.1 (hs.exec i rfl) hk ha
  case pos =>
    rw [log, Run.outputs_append, Run.outputs, calls, if_pos ht, hk] at hf
    obtain ⟨x, hx, hsame, rfl, hnot, hlt⟩ := hf.of_taken rfl (congrArg some ha)
    cases hx' : x.answer
    case none =>
      obtain ⟨_, _, _, _, hcall⟩ := Run.mem_outputs_iff.mp hx
      exact absurd hsame (hmark _ _ (space_of_mark hcall hx'))
    case some answer =>
      rw [space_of_mem_log hx hx'] at hsame
      refine ⟨_, .inl (mem_forwards_of_claim hs hp hx ((hhead _).mp hsame) hx' ?_), hlt⟩
      rintro rfl
      exact hnot hx'

-- The second listener drops the transaction, since the first one has forwarded it.
theorem second_listener_forwarded :
    let as :=
      [.event 0 (arrival .claimed) 0, .event 2 (arrival .claimed) 2, .event 1 (arrival .taken) 3]
    ∃ x ∈ trioCluster.forwards (.fill 1) (fun j => (trio j).deploymentID = (trio 1).deploymentID)
        claimWire trioCfg as, 3 < x.2 + 10 :=
  forwarded_in_deployment [.event 0 (arrival .claimed) 0, .event 2 (arrival .claimed) 2]
    trioStore_eq (fun _ => rfl) (by simp [trioStore]) (fun _ _ => rfl) (by decide)
    ⟨⟨nofun, List.not_mem_nil⟩, ⟨nofun, List.not_mem_nil⟩, ⟨nofun, List.not_mem_nil⟩, trivial⟩
    (by decide +kernel) rfl rfl

end
end Cluster
