import ShardListener.Worker.Theorems.Coverage

namespace Worker

variable {wire : Wire} {cfg : Settings} {env : Env} {w w' : Worker} {b : Bundle} {j : Job}
variable {h : HashKey} {n : SeqNum}

-- The stamp of a frame that is sent downstream.
def Egress.stamp : Egress → Option (HashKey × SeqNum)
  | .send _ f => some (f.hashKey, f.seqNum)
  | _         => none

def stamps (w : Worker) : List (HashKey × SeqNum) :=
  w.egress.filterMap Egress.stamp

-- The number of members that were sent in a flow.
def sentOf (w : Worker) (h : HashKey) : SeqNum :=
  (w.egressSeq.lookup h).getD 0

-- A worker counts what it sends: in every flow, the stamps are the numbers up to the last one.
structure Counts (w : Worker) : Prop where
  nodup : w.stamps.Nodup
  mem   : ∀ h n, (h, n) ∈ w.stamps ↔ 0 < n ∧ n ≤ w.sentOf h

theorem sentOf_of_eq (hs : w.egressSeq = w'.egressSeq) : w.sentOf h = w'.sentOf h :=
  congrArg (fun m : Dict HashKey SeqNum => (m.lookup h).getD 0) hs

theorem Counts.of_eq (hc : w'.Counts) (he : w.egress = w'.egress)
    (hs : w.egressSeq = w'.egressSeq) : w.Counts := by
  have e : w.stamps = w'.stamps := congrArg (List.filterMap Egress.stamp) he
  constructor
  case nodup => exact e ▸ hc.nodup
  case mem   => intro h n; rw [e, sentOf_of_eq hs]; exact hc.mem h n

theorem sentOf_sendMember {mf : Frame} :
    (sendMember wire cfg b w mf).sentOf h = w.sentOf h + if h = b.hashKey then 1 else 0 := by
  have hs : (sendMember wire cfg b w mf).egressSeq =
      w.egressSeq.insert b.hashKey (w.sentOf b.hashKey + 1) := by
    simp only [sendMember]
    repeat' split
    all_goals rfl
  simp only [sentOf, hs, AList.lookup_insert_eq_ite]
  split
  case isTrue e  => subst e; rfl
  case isFalse e => rfl

theorem stamps_sendMember {mf : Frame} (ha : cfg.bundleAware = false)
    (he : ∀ seq, (wire.encode { mf with seqNum := seq }).isSome) :
    (sendMember wire cfg b w mf).stamps = w.stamps ++ [(mf.hashKey, w.sentOf b.hashKey + 1)] := by
  have ⟨raw, he⟩ := Option.isSome_iff_exists.mp (he ((w.egressSeq.lookup b.hashKey).getD 0 + 1))
  simp only [sendMember, he, ha, Bool.false_eq_true, if_false]
  split
  case isTrue  => simp [stamps, emit, Egress.stamp, sentOf]
  case isFalse => simp [stamps, emit, Egress.stamp, sentOf]

theorem Counts.sendMember {mf : Frame} (hc : w.Counts) (ha : cfg.bundleAware = false)
    (he : ∀ seq, (wire.encode { mf with seqNum := seq }).isSome) (hk : mf.hashKey = b.hashKey) :
    (sendMember wire cfg b w mf).Counts := by
  have hs := stamps_sendMember (b := b) (w := w) ha he
  constructor
  case nodup =>
    rw [hs, hk]
    refine hc.nodup.append (List.nodup_singleton _) (List.disjoint_singleton.mpr fun hm => ?_)
    exact absurd ((hc.mem _ _).mp hm).2 (Nat.not_succ_le_self _)
  case mem =>
    intro h n
    rw [hs, hk, sentOf_sendMember, List.mem_append, hc.mem, List.mem_singleton, Prod.mk.injEq]
    dsimp only [SeqNum] at *
    split
    case isTrue e =>
      subst e
      simp only [true_and]
      omega
    case isFalse e => simp [e]

-- The members of a bundle take the next numbers of its flow.
theorem counts_sendMembers {mfs : List Frame} (hc : w.Counts) (ha : cfg.bundleAware = false)
    (he : ∀ f ∈ mfs, ∀ seq, (wire.encode { f with seqNum := seq }).isSome)
    (hk : ∀ f ∈ mfs, f.hashKey = b.hashKey) :
    (mfs.foldl (Worker.sendMember wire cfg b) w).Counts ∧
      ∀ h, (mfs.foldl (Worker.sendMember wire cfg b) w).sentOf h =
        w.sentOf h + if h = b.hashKey then mfs.length else 0 := by
  induction mfs generalizing w
  case nil => exact ⟨hc, by simp⟩
  case cons mf mfs hi =>
    have ⟨he, hes⟩ := List.forall_mem_cons.mp he
    have ⟨hk, hks⟩ := List.forall_mem_cons.mp hk
    have ⟨hc', hs⟩ := hi (hc.sendMember (b := b) ha he hk) hes hks
    refine ⟨hc', fun h => ?_⟩
    rw [List.foldl_cons, hs h, sentOf_sendMember, List.length_cons]
    split
    case isTrue  => simp only [Nat.add_assoc, Nat.add_comm]
    case isFalse => rfl

theorem counts_sendBundle {raw : Option Bytes} (hw : wire.Coalesces) (ha : cfg.bundleAware = false)
    (hc : w.Counts) :
    (w.sendBundle wire cfg b raw).Counts ∧
      ∀ h, (w.sendBundle wire cfg b raw).sentOf h =
        w.sentOf h + if h = b.hashKey then b.members.length else 0 := by
  have hl : (wire.decoalesce b).length = b.members.length := by
    rw [← hw.members b, List.length_map]
  have hm := counts_sendMembers hc ha (hw.encode b) (hw.hashKey b)
  rw [hl] at hm
  simpa [sendBundle, ha] using hm

-- The members of a bundle are counted exactly if it is forwarded.
theorem counts_deliver (hw : wire.Coalesces) (ha : cfg.bundleAware = false) (hc : w.Counts) :
    (w.deliver wire cfg env j).Counts ∧
      ∀ h, (w.deliver wire cfg env j).sentOf h = w.sentOf h +
        if Forwards cfg env w j.bundle ∧ h = j.bundle.hashKey then j.bundle.members.length
        else 0 := by
  have hd : Alike (w.deliver wire cfg env j) (w.outcome wire cfg env j.bundle j.raw) :=
    alike_deliver
  suffices ho : (w.outcome wire cfg env j.bundle j.raw).Counts ∧
      ∀ h, (w.outcome wire cfg env j.bundle j.raw).sentOf h = w.sentOf h +
        if Forwards cfg env w j.bundle ∧ h = j.bundle.hashKey then j.bundle.members.length
        else 0 from
    ⟨ho.1.of_eq hd.egress hd.egressSeq, fun h => (sentOf_of_eq hd.egressSeq).trans (ho.2 h)⟩
  have hs : (w.suppress env (dedupKey j.bundle)).2.Counts :=
    hc.of_eq suppress_egress.1 suppress_egress.2
  have hq : ∀ h, (w.suppress env (dedupKey j.bundle)).2.sentOf h = w.sentOf h :=
    fun h => sentOf_of_eq suppress_egress.2
  by_cases hg : Granted cfg env j.bundle
  case neg => simpa [outcome, Forwards, hg] using hc
  case pos =>
    by_cases hdup : (w.suppress env (dedupKey j.bundle)).1 = true
    case pos => simpa [outcome, Forwards, hg, hdup, hq] using hs
    case neg =>
      simpa [outcome, Forwards, hg, hdup, hq] using
        counts_sendBundle (b := j.bundle) hw ha hs

end Worker

namespace Deployment

open Worker

variable {wire : Wire} {cfg : Settings} {d : Deployment} {x : Turn} {xs : List Turn} {side : Side}

-- No two frames that the listeners have sent downstream have one stamp.
def Distinct (d : Deployment) : Prop :=
  ((d.workers .left).stamps ++ (d.workers .right).stamps).Nodup

-- The other listener.
def other : Side → Side
  | .left  => .right
  | .right => .left

-- If the bundle is forwarded and has members, then the other listener has not sent any in its flow.
def Sole (cfg : Settings) (d : Deployment) (x : Turn) : Prop :=
  Forwards cfg (d.envOf x) (d.workers x.side) x.job.bundle → x.job.bundle.members ≠ [] →
    (d.workers (other x.side)).sentOf x.job.bundle.hashKey = 0

instance : DecidablePred Distinct :=
  fun _ => inferInstanceAs (Decidable (List.Nodup _))

instance : Decidable (Sole cfg d x) :=
  inferInstanceAs (Decidable (_ → _ → _))

-- Both number the members of a flow from 1 on, so that one of them has to be silent in it.
theorem distinct_iff (hc : ∀ side, (d.workers side).Counts) :
    d.Distinct ↔ ∀ h, (d.workers .left).sentOf h = 0 ∨ (d.workers .right).sentOf h = 0 := by
  rw [Distinct, List.nodup_append']
  constructor
  case mp =>
    intro ⟨_, _, hd⟩ h
    by_contra hn
    have ⟨hl, hr⟩ := not_or.mp hn
    have hl : (h, 1) ∈ (d.workers .left).stamps :=
      ((hc .left).mem h 1).mpr ⟨Nat.one_pos, Nat.pos_of_ne_zero hl⟩
    have hr : (h, 1) ∈ (d.workers .right).stamps :=
      ((hc .right).mem h 1).mpr ⟨Nat.one_pos, Nat.pos_of_ne_zero hr⟩
    exact hd hl hr
  case mpr =>
    intro hz
    refine ⟨(hc .left).nodup, (hc .right).nodup, ?_⟩
    intro ⟨h, n⟩ hl hr
    have ⟨hn, hl⟩ := ((hc .left).mem h n).mp hl
    have ⟨_, hr⟩ := ((hc .right).mem h n).mp hr
    have hz := hz h
    dsimp only [SeqNum] at *
    omega

theorem counts_step (hw : wire.Coalesces) (ha : cfg.bundleAware = false)
    (hc : ∀ side, (d.workers side).Counts) (side : Side) :
    ((d.step wire cfg x).workers side).Counts := by
  by_cases e : side = x.side
  case pos =>
    subst e
    rw [workers_step_self]
    exact (counts_deliver hw ha (hc x.side)).1
  case neg =>
    rw [workers_step_of_ne e]
    exact hc side

theorem sentOf_step (hw : wire.Coalesces) (ha : cfg.bundleAware = false)
    (hc : ∀ side, (d.workers side).Counts) (side : Side) (h : HashKey) :
    ((d.step wire cfg x).workers side).sentOf h = (d.workers side).sentOf h +
      if side = x.side ∧ Forwards cfg (d.envOf x) (d.workers x.side) x.job.bundle ∧
        h = x.job.bundle.hashKey then x.job.bundle.members.length else 0 := by
  by_cases e : side = x.side
  case pos =>
    subst e
    rw [workers_step_self, (counts_deliver hw ha (hc x.side)).2]
    simp only [true_and]
  case neg =>
    rw [workers_step_of_ne e]
    simp [e]

-- A turn keeps the stamps distinct exactly if the other listener is silent in the flow.
theorem distinct_step_iff (hw : wire.Coalesces) (ha : cfg.bundleAware = false)
    (hc : ∀ side, (d.workers side).Counts) (hd : d.Distinct) :
    (d.step wire cfg x).Distinct ↔ d.Sole cfg x := by
  have hd := (distinct_iff hc).mp hd
  simp only [distinct_iff (counts_step hw ha hc), sentOf_step hw ha hc, Sole]
  constructor
  case mp =>
    intro hz hf hm
    have hz := hz x.job.bundle.hashKey
    cases hs : x.side
    all_goals
      rw [hs] at hf hz
      simpa [hf, hm, other] using hz
  case mpr =>
    intro hz h
    by_cases hf : Forwards cfg (d.envOf x) (d.workers x.side) x.job.bundle ∧
      h = x.job.bundle.hashKey ∧ x.job.bundle.members ≠ []
    case pos =>
      have ⟨hf, e, hm⟩ := hf
      have hz := hz hf hm
      subst e
      cases hs : x.side
      case left  => exact .inr (by simpa [hs, other] using hz)
      case right => exact .inl (by simpa [hs, other] using hz)
    case neg =>
      have h₀ :
          ∀ side, (if side = x.side ∧ Forwards cfg (d.envOf x) (d.workers x.side) x.job.bundle ∧
          h = x.job.bundle.hashKey then x.job.bundle.members.length else 0) = 0 := by
        intro side
        split
        case isFalse => rfl
        case isTrue hc =>
          by_contra hl
          exact hf ⟨hc.2.1, hc.2.2, fun e => hl (by simp [e])⟩
      simpa only [h₀, Nat.add_zero] using hd h

-- In a run of two listeners that share a store and split the bundles for one downstream, the stamps
-- of the frames are distinct throughout, exactly if every bundle with members that a listener
-- forwards is of a flow in which the other one has not sent anything.
theorem distinct_iff_sole {w : Side → Worker} (hw : wire.Coalesces) (ha : cfg.bundleAware = false)
    (he : ∀ side, (w side).egress = []) (hs : ∀ side, (w side).egressSeq = ∅) :
    Run.Always (step wire cfg) Distinct ⟨w, []⟩ xs ↔
      Run.Along (step wire cfg) (Sole cfg) ⟨w, []⟩ xs := by
  have h₀ : ∀ side, (w side).Counts := by
    intro side
    constructor
    case nodup => simp [stamps, he]
    case mem =>
      intro h n
      simpa [stamps, he, sentOf, hs] using fun hn : 0 < n => hn.ne'
  apply Run.always_iff_along (J := fun d => ∀ side, (d.workers side).Counts)
  case hj => exact fun d x hc => counts_step hw ha hc
  case hs => exact fun d x hc hd => distinct_step_iff hw ha hc hd
  case h₀ => exact h₀
  case h  => simp [Distinct, stamps, he]

-- The bundle `seq` of a flow of the local generation.
def aligned (seq : UInt8) : Bytes :=
  [0, 7, seq, 10 + seq]

theorem distinct_one_winner :
    Run.Always (step bundleWire sharing) Distinct ⟨fun _ => {}, []⟩
      (hear .left [aligned 1, aligned 2] ++ hear .right [aligned 1, aligned 2]) :=
  (distinct_iff_sole bundleWire_coalesces rfl (fun _ => rfl) fun _ => rfl).mpr (by decide +kernel)

-- The first bundle is won by the listener on the left and the second one by the other. Both have
-- the stamp 1 of the flow for its member.
theorem two_winners_not_distinct :
    let xs := hear .left [aligned 1] ++ hear .right [aligned 1, aligned 2] ++ hear .left [aligned 2]
    (∀ side, turns xs side = agenda bundleWire sharing [] [aligned 1, aligned 2]) ∧
      (∀ x ∈ xs, ¬Foreign sharing x.job.bundle ∧ x.job.bundle.seqNum ≠ 0) ∧
      ¬Run.Always (step bundleWire sharing) Distinct ⟨fun _ => {}, []⟩ xs := by
  refine ⟨?_, by decide +kernel, fun h => absurd h.last (by decide +kernel)⟩
  rintro ⟨⟩ <;> rfl

end Deployment
