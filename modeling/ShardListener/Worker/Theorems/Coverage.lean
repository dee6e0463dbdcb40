import ShardListener.Worker.Theorems.Rebucket

namespace Worker

variable {wire : Wire} {cfg : Settings} {env : Env} {w : Worker} {b b' : Bundle} {j : Job}
variable {js : List Job}

-- The fields of a bundle that are 64 bits wide.
def InRange (b : Bundle) : Prop :=
  b.hashKey < 2 ^ 64 ∧ b.seqNum < 2 ^ 64

instance : DecidablePred InRange :=
  fun _ => inferInstanceAs (Decidable (_ ∧ _))

theorem mod_eq_of_digits {m n k : ℕ} (h : ∀ i < k, m / 256 ^ i % 256 = n / 256 ^ i % 256) :
    m % 256 ^ k = n % 256 ^ k := by
  induction k
  case zero => simp [Nat.mod_one]
  case succ k hi =>
    rw [Nat.mod_pow_succ, Nat.mod_pow_succ, hi fun i hk => h i (hk.trans k.lt_succ_self),
      h k k.lt_succ_self]

theorem bigEndian_inj {m n : ℕ} (hm : m < 2 ^ 64) (hn : n < 2 ^ 64)
    (h : bigEndian m = bigEndian n) : m = n := by
  have hd : ∀ i < 8, m / 256 ^ i % 256 = n / 256 ^ i % 256 := by
    intro i hi
    have h := congrArg (·[7 - i]?) h
    simp only [bigEndian, List.getElem?_map] at h
    rw [List.getElem?_range (by omega)] at h
    have h := congrArg UInt8.toNat (Option.some.inj h)
    simpa [Nat.sub_sub_self (Nat.le_of_lt_succ hi)] using h
  have e := mod_eq_of_digits hd
  rwa [Nat.mod_eq_of_lt (by simpa using hm), Nat.mod_eq_of_lt (by simpa using hn)] at e

-- The id of a bundle is its stamp.
theorem bundleID_inj (hb : InRange b) (hb' : InRange b') (h : bundleID b = bundleID b') :
    b.hashKey = b'.hashKey ∧ b.seqNum = b'.seqNum := by
  have h := congrArg Bytes32.bytes h
  simp only [bundleID, List.append_assoc] at h
  have ⟨hk, h⟩ := List.append_inj h (by simp [bigEndian])
  have ⟨hn, _⟩ := List.append_inj h (by simp [bigEndian])
  exact ⟨bigEndian_inj hb.1 hb'.1 hk, bigEndian_inj hb.2 hb'.2 hn⟩

-- The local dedup set, if there is one, suppresses none of the deliveries to come.
def Clear (w : Worker) (js : List Job) : Prop :=
  ∀ s ∈ w.dedupSet, (js.map (dedupKey ·.bundle)).Nodup ∧ ∀ j ∈ js, dedupKey j.bundle ∉ s.entries

theorem Clear.suppress (hc : Clear w (j :: js)) :
    (w.suppress env (dedupKey j.bundle)).1 = false := by
  simp only [Worker.suppress]
  split
  case h_1 => rfl
  case h_2 s hs =>
    split
    case isTrue => rfl
    case isFalse =>
      by_contra hd
      exact (hc s hs).2 j List.mem_cons_self (Dedup.Set.mem_of_seenAndAdd (by simpa using hd))

-- A delivery leaves the set alone, or adds its key.
theorem dedupSet_deliver_or {s : Dedup.Set} (hs : w.dedupSet = some s) :
    (w.deliver wire cfg env j).dedupSet = some s ∨
      (w.deliver wire cfg env j).dedupSet =
        some (s.seenAndAdd env.instant.now (dedupKey j.bundle)).2 := by
  rw [dedupSet_deliver]
  split
  case isFalse => exact .inl hs
  case isTrue =>
    by_cases hn : (dedupKey j.bundle).seqNum = 0
    case pos => simp [Worker.suppress, hs, hn]
    case neg => exact .inr (suppress_deduplicates hs hn).dedupSet

theorem dedupSet_of_deliver {s' : Dedup.Set} (hs : (w.deliver wire cfg env j).dedupSet = some s') :
    ∃ s ∈ w.dedupSet, ∀ k ∈ s'.entries, k ∈ s.entries ∨ k = dedupKey j.bundle := by
  cases hw : w.dedupSet
  case none => simp [dedupSet_deliver, Worker.suppress, hw] at hs
  case some s =>
    refine ⟨s, rfl, ?_⟩
    have he : (w.deliver wire cfg env j).dedupSet = some s ∨ _ := dedupSet_deliver_or hw
    cases he
    case inl e => cases e.symm.trans hs; exact fun k hk => .inl hk
    case inr e =>
      cases e.symm.trans hs
      exact fun k hk => (Dedup.Set.mem_seenAndAdd hk).imp_right And.left

theorem Clear.deliver (hc : Clear w (j :: js)) : Clear (w.deliver wire cfg env j) js := by
  intro s' hs'
  have ⟨s, hs, hk⟩ := dedupSet_of_deliver hs'
  have ⟨hn, hm⟩ := hc s hs
  have ⟨hj, hn⟩ := List.nodup_cons.mp hn
  refine ⟨hn, ?_⟩
  intro i hi hi'
  cases hk _ hi'
  case inl hk => exact hm i (List.mem_cons_of_mem _ hi) hk
  case inr e  => exact hj (List.mem_map.mpr ⟨i, hi, e⟩)

-- The worker has not processed anything yet.
structure Fresh (w : Worker) : Prop where
  rebucketed : w.rebucketed = []
  dedupSet   : ∀ s ∈ w.dedupSet, ∃ capacity ttl, s = .new capacity ttl

theorem Fresh.clear (hf : w.Fresh) (h : w.dedupSet = none ∨ (js.map (dedupKey ·.bundle)).Nodup) :
    Clear w js := by
  intro s hs
  have ⟨capacity, ttl, e⟩ := hf.dedupSet s hs
  have hn := h.resolve_left fun h => nomatch h.symm.trans hs
  exact ⟨hn, fun j _ => e ▸ Dedup.Set.not_mem_new⟩

end Worker

namespace Deployment

open Worker

variable {wire : Wire} {cfg : Settings} {d : Deployment} {x : Turn} {xs : List Turn} {b : Bundle}
variable {side : Side} {split : Bundle → List Bundle} {stream : List Bytes}

-- What a listener delivers in a run.
def turns (xs : List Turn) (side : Side) : List Job :=
  (xs.filter (·.side = side)).map Turn.job

-- Every member of the bundle is handed over by one of the listeners.
def Served (d : Deployment) (b : Bundle) : Prop :=
  ∀ m ∈ b.members, ∃ side, m ∈ (d.workers side).handed

-- The environment in which a turn is taken.
def envOf (d : Deployment) (x : Turn) : Env :=
  { x.env with claim := answer d.claimed }

theorem workers_step_self :
    (d.step wire cfg x).workers x.side = (d.workers x.side).deliver wire cfg (d.envOf x) x.job := by
  simp [step, envOf]

theorem workers_step_of_ne (h : side ≠ x.side) :
    (d.step wire cfg x).workers side = d.workers side := by
  simp [step, h]

theorem turns_cons_self : turns (x :: xs) x.side = x.job :: turns xs x.side := by
  simp [turns]

theorem turns_cons_of_ne (h : side ≠ x.side) : turns (x :: xs) side = turns xs side := by
  simp [turns, h.symm]

-- The store refuses a bundle that passes the filter only if its id has been claimed.
theorem mem_claimed_of_not_granted (hd : cfg.filt.deny b.groupIdx (bundleProbe b) = none)
    (hg : ¬Granted cfg (d.envOf x) b) : bundleID b ∈ d.claimed := by
  have h : ¬(b.seqNum = 0 ∨ cfg.txDedup = false ∨ answer d.claimed (bundleID b) ≠ .taken) :=
    fun h => hg ⟨hd, h⟩
  by_contra hn
  exact h (.inr (.inr (by simp [answer, hn])))

-- The ids in the store are those of bundles of the deployment whose members have been handed over,
-- and the local dedup sets will not suppress any bundle.
structure Covered (J : Job → Prop) (d : Deployment) (xs : List Turn) : Prop where
  clear   : ∀ side, Clear (d.workers side) (turns xs side)
  claimed : ∀ key ∈ d.claimed, ∃ j, J j ∧ bundleID j.bundle = key ∧ d.Served j.bundle

section Cover

variable {J : Job → Prop} (hw : wire.Coalesces) (he : ∀ j, J j → j.Encodable wire)
include hw he

theorem handed_step {m : Bytes} (hx : J x.job) (h : m ∈ (d.workers side).handed) :
    m ∈ ((d.step wire cfg x).workers side).handed := by
  by_cases e : side = x.side
  case pos =>
    subst e
    rw [workers_step_self, handed_deliver hw (he _ hx)]
    exact List.mem_append_left _ h
  case neg => rwa [workers_step_of_ne e]

theorem Served.step (hx : J x.job) (h : d.Served b) : (d.step wire cfg x).Served b := by
  intro m hm
  have ⟨side, h⟩ := h m hm
  exact ⟨side, handed_step hw he hx h⟩

theorem Served.exec (hx : ∀ x ∈ xs, J x.job) (h : d.Served b) :
    (Run.exec (Deployment.step wire cfg) d xs).Served b := by
  induction xs generalizing d
  case nil => exact h
  case cons x xs hi =>
    have ⟨hx, hxs⟩ := List.forall_mem_cons.mp hx
    exact hi hxs (h.step hw he hx)

variable (hj : ∀ j j', J j → J j' → bundleID j.bundle = bundleID j'.bundle →
  j.bundle.members = j'.bundle.members)
include hj

-- The bundle of a turn that passes the filter is handed over now, or was before by the listener
-- that has claimed its id.
theorem Covered.served (hc : Covered J d (x :: xs)) (hx : J x.job)
    (hd : cfg.filt.deny x.job.bundle.groupIdx (bundleProbe x.job.bundle) = none) :
    (d.step wire cfg x).Served x.job.bundle := by
  by_cases hg : Granted cfg (d.envOf x) x.job.bundle
  case pos =>
    intro m hm
    refine ⟨x.side, ?_⟩
    have hf : Forwards cfg (d.envOf x) (d.workers x.side) x.job.bundle :=
      ⟨hg, (turns_cons_self ▸ hc.clear x.side).suppress⟩
    rw [workers_step_self, handed_deliver hw (he _ hx), if_pos hf]
    exact List.mem_append_right _ hm
  case neg =>
    have ⟨j, hj', e, hs⟩ := hc.claimed _ (mem_claimed_of_not_granted hd hg)
    intro m hm
    rw [hj _ _ hx hj' e.symm] at hm
    exact hs.step hw he hx m hm

theorem Covered.step (hc : Covered J d (x :: xs)) (hx : J x.job) :
    Covered J (d.step wire cfg x) xs := by
  constructor
  case clear =>
    intro side
    by_cases e : side = x.side
    case pos =>
      subst e
      rw [workers_step_self]
      exact (turns_cons_self ▸ hc.clear x.side).deliver
    case neg =>
      rw [workers_step_of_ne e]
      exact turns_cons_of_ne e ▸ hc.clear side
  case claimed =>
    intro key hk
    have hold : key ∈ d.claimed → _ := fun hk =>
      have ⟨j, hj', e, hs⟩ := hc.claimed key hk
      (⟨j, hj', e, hs.step hw he hx⟩ : ∃ j, J j ∧ bundleID j.bundle = key ∧
        (d.step wire cfg x).Served j.bundle)
    simp only [Deployment.step] at hk
    split at hk
    case isFalse => exact hold hk
    case isTrue ha =>
      cases hk
      case head    => exact ⟨x.job, hx, rfl, hc.served hw he hj hx ha.2.1⟩
      case tail hk => exact hold hk

theorem Covered.exec (hc : Covered J d xs) (hxs : ∀ x ∈ xs, J x.job) :
    ∀ x ∈ xs, cfg.filt.deny x.job.bundle.groupIdx (bundleProbe x.job.bundle) = none →
      (Run.exec (Deployment.step wire cfg) d xs).Served x.job.bundle := by
  induction xs generalizing d
  case nil => exact fun x hx => nomatch hx
  case cons x xs hi =>
    have ⟨hx, hxs⟩ := List.forall_mem_cons.mp hxs
    simp only [Run.exec_cons]
    refine List.forall_mem_cons.mpr ⟨?_, hi (hc.step hw he hj hx) hxs⟩
    exact fun hd => (hc.served hw he hj hx hd).exec hw he hxs

end Cover

-- Each listener receives a part of a stream of stamped bundles, and each datagram reaches one of
-- them. Their deliveries are interleaved in any way.
structure Shares (wire : Wire) (cfg : Settings) (split : Bundle → List Bundle) (stream : List Bytes)
    (raws : Side → List Bytes) (w : Side → Worker) (xs : List Turn) : Prop where
  coalesces  : wire.Coalesces
  rebuckets  : wire.Rebuckets split
  identified : Identified wire cfg split stream
  sublist    : ∀ side, (raws side).Sublist stream
  covers     : ∀ raw ∈ stream, ∃ side, raw ∈ raws side
  fresh      : ∀ side, (w side).Fresh
  schedule   : ∀ side, turns xs side = agenda wire cfg (w side).rebucketed (raws side)
  inRange    : ∀ side, ∀ j ∈ turns xs side, InRange j.bundle

-- Every member in the stream that passes the filter is handed over by one of the listeners.
def Complete (wire : Wire) (cfg : Settings) (split : Bundle → List Bundle) (stream : List Bytes)
    (d : Deployment) : Prop :=
  ∀ raw ∈ stream, ∀ b ∈ wire.decodeBundle raw, ∀ c ∈ units cfg split b,
    cfg.filt.deny c.groupIdx (bundleProbe c) = none → d.Served c

theorem aligned_sides {raws : Side → List Bytes}
    (hp : ∀ k, Aligned wire cfg (raws .left) (raws .right) k) (s s' : Side) (k : HashKey) :
    Aligned wire cfg (raws s) (raws s') k := by
  cases s <;> cases s'
  case left.left   => exact .inl List.prefix_rfl
  case left.right  => exact hp k
  case right.left  => exact (hp k).symm
  case right.right => exact .inl List.prefix_rfl

namespace Shares

variable {raws : Side → List Bytes} {w : Side → Worker} {x : Turn}
variable (hs : Shares wire cfg split stream raws w xs)
include hs

theorem turns_eq (side : Side) : turns xs side = agenda wire cfg [] (raws side) :=
  (hs.fresh side).rebucketed ▸ hs.schedule side

theorem encodable {j : Job} (hj : j ∈ turns xs side) : j.Encodable wire :=
  encodable_of_mem_agenda hs.coalesces (hs.turns_eq side ▸ hj)

theorem members_eq {j j' : Job} {side' : Side}
    (hp : ∀ k, Aligned wire cfg (raws .left) (raws .right) k) (hj : j ∈ turns xs side)
    (hj' : j' ∈ turns xs side') (e : bundleID j.bundle = bundleID j'.bundle) :
    j.bundle.members = j'.bundle.members := by
  have ⟨hk, hn⟩ := bundleID_inj (hs.inRange side j hj) (hs.inRange side' j' hj') e
  rw [hs.turns_eq] at hj hj'
  exact congrArg Bundle.members (job_eq_of_stamp hs.identified (hs.sublist side) (hs.sublist side')
    hs.rebuckets hj hj' hk hn (aligned_sides hp side side'))

end Shares

theorem mem_turns (hx : x ∈ xs) : x.job ∈ turns xs x.side :=
  List.mem_map.mpr ⟨x, List.mem_filter.mpr ⟨hx, decide_eq_true rfl⟩, rfl⟩

-- Every member that passes the filter is handed over by one of the listeners if, of every flow of
-- another generation, one listener receives the first bundles of those that the other one receives,
-- and no listener with a local dedup set delivers two bundles under one key of it.
theorem complete_of_aligned {w : Side → Worker} {raws : Side → List Bytes}
    (hs : Shares wire cfg split stream raws w xs)
    (hp : ∀ k, Aligned wire cfg (raws .left) (raws .right) k)
    (hk : ∀ side, (w side).dedupSet = none ∨ ((turns xs side).map (dedupKey ·.bundle)).Nodup) :
    Complete wire cfg split stream (Run.exec (step wire cfg) ⟨w, []⟩ xs) := by
  intro raw hraw b hb c hc hd
  have ⟨side, hside⟩ := hs.covers raw hraw
  have ⟨j, hj, n, e⟩ := exists_job [] hs.rebuckets hside hb hc
  rw [← hs.turns_eq side] at hj
  have ⟨x, hx, ex⟩ := List.mem_map.mp hj
  have hd' : cfg.filt.deny x.job.bundle.groupIdx (bundleProbe x.job.bundle) = none := by
    rw [ex, e]
    exact hd
  have hcov : Covered (fun j => ∃ side, j ∈ turns xs side) ⟨w, []⟩ xs :=
    ⟨fun side => (hs.fresh side).clear (hk side), fun _ h => nomatch h⟩
  have hserved := hcov.exec hs.coalesces (fun j ⟨_, h⟩ => hs.encodable h)
    (fun j j' ⟨_, h⟩ ⟨_, h'⟩ => hs.members_eq hp h h') (fun x h => ⟨x.side, mem_turns h⟩) x
    (List.mem_filter.mp hx).1 hd'
  rw [ex, e] at hserved
  exact hserved

-- Two listeners that share a store.
def sharing : Settings :=
  { Settings.blank with txDedup := true }

-- The turns in which a listener processes the datagrams.
def hear (side : Side) (raws : List Bytes) : List Turn :=
  (agenda bundleWire sharing [] raws).map (⟨side, Env.blank, ·⟩)

-- The bundle `seq` of a flow of another generation.
def coarse (seq : UInt8) : Bytes :=
  [1, 7, seq, 10 + seq]

-- What the two listeners receive.
def received (l r : List Bytes) : Side → List Bytes
  | .left  => l
  | .right => r

-- Both bundles reach the listener on the left, and one of them the other listener.
theorem shares_coarse {seq : UInt8} (hs : seq = 1 ∨ seq = 2) :
    Shares bundleWire sharing bundleChildren [coarse 1, coarse 2]
      (received [coarse 1, coarse 2] [coarse seq]) (fun _ => {})
      (hear .right [coarse seq] ++ hear .left [coarse 1, coarse 2]) where
  coalesces  := bundleWire_coalesces
  rebuckets  := bundleWire_rebuckets
  identified := ⟨by decide, by decide, by decide⟩
  sublist    := by rcases hs with rfl | rfl <;> rintro ⟨⟩ <;> decide
  covers _ h := ⟨.left, h⟩
  fresh _    := ⟨rfl, nofun⟩
  schedule   := by rcases hs with rfl | rfl <;> rintro ⟨⟩ <;> rfl
  inRange    := by rcases hs with rfl | rfl <;> rintro ⟨⟩ <;> decide +kernel

-- The listener on the right loses the second bundle.
theorem complete_after_loss :
    Complete bundleWire sharing bundleChildren [coarse 1, coarse 2]
      (Run.exec (step bundleWire sharing) ⟨fun _ => {}, []⟩
        (hear .right [coarse 1] ++ hear .left [coarse 1, coarse 2])) :=
  have hp := (List.prefix_append [coarse 1] [coarse 2]).filterMap bundleWire.decodeBundle
  complete_of_aligned (shares_coarse (.inl rfl)) (fun _ => .inr ((hp.filter _).filter _))
    fun _ => .inl rfl

-- It loses the first one. Its child of the second has the stamp of the other listener's child of
-- the first, which is then refused as claimed, and the member 11 is lost.
theorem loss_not_complete :
    Shares bundleWire sharing bundleChildren [coarse 1, coarse 2]
        (received [coarse 1, coarse 2] [coarse 2]) (fun _ => {})
        (hear .right [coarse 2] ++ hear .left [coarse 1, coarse 2]) ∧
      ¬Complete bundleWire sharing bundleChildren [coarse 1, coarse 2]
        (Run.exec (step bundleWire sharing) ⟨fun _ => {}, []⟩
          (hear .right [coarse 2] ++ hear .left [coarse 1, coarse 2])) := by
  refine ⟨shares_coarse (.inr rfl), fun h => ?_⟩
  have ⟨side, hm⟩ :=
    h (coarse 1) (by decide) _ rfl ⟨0, 0, .zero, 107, 1, [[11]]⟩ (by decide) rfl [11]
    (by decide)
  cases side <;> revert hm <;> decide +kernel

end Deployment
