import ShardListener.Worker.Deployment
import ShardListener.Worker.Theorems.Suppression

-- What is assumed of the bundle codec: it splits a bundle into its members, in the flow of the
-- bundle, and the encoders do not fail on what comes out of it.
structure Wire.Coalesces (wire : Wire) : Prop where
  members      : ∀ b, (wire.decoalesce b).map Frame.payload = b.members
  hashKey      : ∀ b, ∀ f ∈ wire.decoalesce b, f.hashKey = b.hashKey
  encode       : ∀ b, ∀ f ∈ wire.decoalesce b, ∀ seq, (wire.encode { f with seqNum := seq }).isSome
  encodeBundle : ∀ bs b, ∀ c ∈ wire.rebucket bs b, (wire.encodeBundle c).isSome

namespace Worker

-- The key under which the dedup set remembers a bundle.
def dedupKey (b : Bundle) : Dedup.Key :=
  ⟨b.groupIdx, b.subtreeID, b.seqNum⟩

-- The members that a call on an egress sink hands over.
def Egress.members : Egress → List Bytes
  | .send _ f       => [f.payload]
  | .sendBundle _ b => b.members
  | _               => []

def handed (w : Worker) : List Bytes :=
  w.egress.flatMap Egress.members

variable {wire : Wire} {cfg : Settings} {env : Env} {w w' : Worker} {b : Bundle}
variable {raw : Option Bytes}

-- The two agree in what the delivery of bundles reads and writes.
structure Alike (w w' : Worker) : Prop where
  dedupSet  : w.dedupSet = w'.dedupSet
  egressSeq : w.egressSeq = w'.egressSeq
  egress    : w.egress = w'.egress

namespace Alike

theorem refl : Alike w w :=
  ⟨rfl, rfl, rfl⟩

theorem symm (h : Alike w w') : Alike w' w :=
  ⟨h.dedupSet.symm, h.egressSeq.symm, h.egress.symm⟩

theorem trans {w'' : Worker} (h : Alike w w') (h' : Alike w' w'') : Alike w w'' :=
  ⟨h.dedupSet.trans h'.dedupSet, h.egressSeq.trans h'.egressSeq, h.egress.trans h'.egress⟩

theorem handed (h : Alike w w') : w.handed = w'.handed :=
  congrArg (List.flatMap Egress.members) h.egress

theorem count {m : Metric} (h : Alike w w') : Alike (w.count m) w' :=
  ⟨h.dedupSet, h.egressSeq, h.egress⟩

theorem observe {track : Bool} {g : GroupIdx} {subtreeID : Bytes32} {hashKey : HashKey}
    {seqNum : SeqNum} (h : Alike w w') :
    Alike (if track then w.observeFrom cfg env g subtreeID hashKey seqNum else w) w' := by
  split
  case isTrue  => exact ⟨h.dedupSet, h.egressSeq, h.egress⟩
  case isFalse => exact h

theorem claim {key : Bytes32} (h : Alike w w') : Alike (w.claim cfg env key).2 w' := by
  simp only [Worker.claim]
  repeat' split
  all_goals exact ⟨h.dedupSet, h.egressSeq, h.egress⟩

theorem suppress (env : Env) (key : Dedup.Key) (h : Alike w w') :
    (w.suppress env key).1 = (w'.suppress env key).1 ∧
      Alike (w.suppress env key).2 (w'.suppress env key).2 := by
  simp only [Worker.suppress, h.dedupSet]
  split
  case h_1 => exact ⟨rfl, h⟩
  case h_2 =>
    split
    case isTrue => exact ⟨rfl, h⟩
    case isFalse =>
      refine ⟨rfl, ?_⟩
      dsimp only
      split
      case isTrue  => exact ⟨rfl, h.egressSeq, h.egress⟩
      case isFalse => exact ⟨rfl, h.egressSeq, h.egress⟩

theorem emit {e : Egress} (h : Alike w w') : Alike (w.emit e) (w'.emit e) :=
  ⟨h.dedupSet, h.egressSeq, congrArg (· ++ [e]) h.egress⟩

theorem stamp {d : Dict HashKey SeqNum} (h : Alike w w') :
    Alike { w with egressSeq := d } { w' with egressSeq := d } :=
  ⟨h.dedupSet, rfl, h.egress⟩

theorem sendMember {mf : Frame} (h : Alike w w') :
    Alike (sendMember wire cfg b w mf) (Worker.sendMember wire cfg b w' mf) := by
  simp only [Worker.sendMember, h.egressSeq]
  split
  case h_1 => exact h.stamp
  case h_2 =>
    repeat' split
    case isTrue.isTrue   => exact h.stamp.emit
    case isTrue.isFalse  => exact h.stamp.emit.emit
    case isFalse.isTrue  => exact h.stamp
    case isFalse.isFalse => exact h.stamp.emit

theorem sendMembers {mfs : List Frame} (h : Alike w w') :
    Alike (mfs.foldl (Worker.sendMember wire cfg b) w)
      (mfs.foldl (Worker.sendMember wire cfg b) w') := by
  induction mfs generalizing w w'
  case nil            => exact h
  case cons mf mfs hi => exact hi h.sendMember

theorem sendBundle (h : Alike w w') :
    Alike (w.sendBundle wire cfg b raw) (w'.sendBundle wire cfg b raw) := by
  have hw : Alike (w.passBundle wire cfg b raw) (w'.passBundle wire cfg b raw) := by
    simp only [passBundle]
    split
    case isFalse => exact h
    case isTrue =>
      split
      case h_1 => exact h
      case h_2 => exact h.emit
  simp only [Worker.sendBundle]
  split
  case isTrue  => exact hw.sendMembers
  case isFalse => exact hw

end Alike

-- The bundle passes the filter and the cross-listener store.
def Granted (cfg : Settings) (env : Env) (b : Bundle) : Prop :=
  cfg.filt.deny b.groupIdx (bundleProbe b) = none ∧
    (b.seqNum = 0 ∨ cfg.txDedup = false ∨ env.claim (bundleID b) ≠ .taken)

instance : DecidablePred (Granted cfg env) :=
  fun _ => inferInstanceAs (Decidable (_ ∧ _))

-- What the delivery of a bundle comes to.
def outcome (wire : Wire) (cfg : Settings) (env : Env) (w : Worker) (b : Bundle)
    (raw : Option Bytes) : Worker :=
  if Granted cfg env b then
    let d := w.suppress env (dedupKey b)
    if d.1 then d.2 else d.2.sendBundle wire cfg b raw
  else w

theorem claim_fst {key : Bytes32} :
    (w.claim cfg env key).1 = false ↔ cfg.txDedup = true ∧ env.claim key = .taken := by
  simp only [claim]
  split
  case isFalse h => simp [h]
  case isTrue h =>
    split
    case h_1 e => simp [e]
    case h_2 e => simp [e]
    case h_3 e => simp [e, h]

theorem Alike.deliverBundle {track : Bool} (h : Alike w w') :
    Alike (w.deliverBundle wire cfg env b raw track) (w'.outcome wire cfg env b raw) := by
  simp only [Worker.deliverBundle, outcome, Granted]
  split
  case h_1 e => simp only [e, reduceCtorEq, false_and, if_false]; exact h.count
  case h_2 e =>
    simp only [e, true_and]
    have hc : Alike (if b.seqNum = 0 then (true, w) else w.claim cfg env (bundleID b)).2 w' := by
      split
      case isTrue  => exact h
      case isFalse => exact h.claim
    have hg : (if b.seqNum = 0 then (true, w) else w.claim cfg env (bundleID b)).1 = false ↔
        ¬(b.seqNum = 0 ∨ cfg.txDedup = false ∨ env.claim (bundleID b) ≠ .taken) := by
      split
      case isTrue h₀  => simp [h₀]
      case isFalse h₀ => rw [claim_fst]; simp [h₀]
    generalize (if b.seqNum = 0 then (true, w) else w.claim cfg env (bundleID b)) = c at hc hg ⊢
    by_cases hgr : b.seqNum = 0 ∨ cfg.txDedup = false ∨ env.claim (bundleID b) ≠ .taken
    case neg =>
      rw [if_pos (hg.mpr hgr), if_neg hgr]
      exact hc.observe
    case pos =>
      obtain ⟨hd, hs⟩ := hc.suppress env (dedupKey b)
      have hk : (⟨b.groupIdx, b.subtreeID, b.seqNum⟩ : Dedup.Key) = dedupKey b := rfl
      rw [if_neg fun hf => hg.mp hf hgr, if_pos hgr, hk, hd]
      split
      case isTrue  => exact hs.observe
      case isFalse => exact hs.observe.sendBundle

theorem alike_deliver {j : Job} :
    Alike (w.deliver wire cfg env j) (w.outcome wire cfg env j.bundle j.raw) :=
  Alike.refl.deliverBundle

theorem Alike.deliver {j : Job} (h : Alike w w') :
    Alike (w.deliver wire cfg env j) (w'.deliver wire cfg env j) :=
  h.deliverBundle.trans alike_deliver.symm

theorem Alike.foldl_deliver {js : List Job} (h : Alike w w') :
    Alike (js.foldl (Worker.deliver wire cfg env) w)
      (js.foldl (Worker.deliver wire cfg env) w') := by
  induction js generalizing w w'
  case nil          => exact h
  case cons j js hi => exact hi h.deliver

theorem Alike.observeFrom {g : GroupIdx} {subtreeID : Bytes32} {hashKey : HashKey} {seqNum : SeqNum}
    (h : Alike w w') : Alike (w.observeFrom cfg env g subtreeID hashKey seqNum) w' :=
  ⟨h.dedupSet, h.egressSeq, h.egress⟩

theorem foldl_children {cs : List Bundle} :
    cs.foldl (fun w child => w.deliverBundle wire cfg env child none false) w =
      (cs.map (⟨·, none, false⟩)).foldl (Worker.deliver wire cfg env) w := by
  rw [List.foldl_map]
  rfl

-- A datagram is processed by delivering the bundles of its agenda.
theorem alike_processBundle {raw : Bytes} :
    Alike (w.processBundle wire cfg env raw)
      ((agenda wire cfg w.rebucketed [raw]).foldl (Worker.deliver wire cfg env) w) := by
  cases hb : wire.decodeBundle raw
  case none =>
    simp only [processBundle, agenda, hb]
    exact Alike.refl.count
  case some b =>
    by_cases hf : Foreign cfg b
    case pos =>
      have hc : b.shardBits ≠ 0 ∧ b.shardBits ≠ cfg.engine.shardBits := hf
      simp only [processBundle, agenda, jobs, hb, if_pos hf, if_pos hc, List.append_nil]
      rw [foldl_children]
      apply Alike.observeFrom
      apply Alike.foldl_deliver
      split
      case isTrue  => exact ⟨rfl, rfl, rfl⟩
      case isFalse => exact ⟨rfl, rfl, rfl⟩
    case neg =>
      have hc : ¬(b.shardBits ≠ 0 ∧ b.shardBits ≠ cfg.engine.shardBits) := hf
      simp only [processBundle, agenda, jobs, hb, if_neg hf, if_neg hc, List.append_nil]
      exact Alike.deliver (j := ⟨b, some raw, true⟩) Alike.refl.count

-- The history of the re-bucketer grows by the bundles of other generations.

theorem rebucketed_sendMembers {mfs : List Frame} :
    (mfs.foldl (sendMember wire cfg b) w).rebucketed = w.rebucketed := by
  induction mfs generalizing w
  case nil => rfl
  case cons mf mfs hi =>
    refine hi.trans ?_
    simp only [sendMember]
    repeat' split
    all_goals rfl

theorem rebucketed_sendBundle : (w.sendBundle wire cfg b raw).rebucketed = w.rebucketed := by
  simp only [sendBundle]
  repeat' split
  all_goals first | rfl | exact rebucketed_sendMembers

theorem rebucketed_suppress {key : Dedup.Key} :
    (w.suppress env key).2.rebucketed = w.rebucketed := by
  simp only [suppress]
  repeat' split
  all_goals rfl

theorem rebucketed_claim {key : Bytes32} : (w.claim cfg env key).2.rebucketed = w.rebucketed := by
  simp only [claim]
  repeat' split
  all_goals rfl

theorem rebucketed_deliver {j : Job} : (w.deliver wire cfg env j).rebucketed = w.rebucketed := by
  simp only [deliver, deliverBundle]
  split
  case h_1 => rfl
  case h_2 =>
    have hc : (if j.bundle.seqNum = 0 then (true, w)
        else w.claim cfg env (bundleID j.bundle)).2.rebucketed = w.rebucketed := by
      split
      case isTrue  => rfl
      case isFalse => exact rebucketed_claim
    generalize (if j.bundle.seqNum = 0 then (true, w)
      else w.claim cfg env (bundleID j.bundle)) = c at hc ⊢
    have hd : (c.2.suppress env ⟨j.bundle.groupIdx, j.bundle.subtreeID,
        j.bundle.seqNum⟩).2.rebucketed = w.rebucketed := rebucketed_suppress.trans hc
    repeat' split
    all_goals first | exact hc | exact hd | exact rebucketed_sendBundle.trans hd

theorem rebucketed_foldl_deliver {js : List Job} :
    (js.foldl (Worker.deliver wire cfg env) w).rebucketed = w.rebucketed := by
  induction js generalizing w
  case nil          => rfl
  case cons j js hi => exact hi.trans rebucketed_deliver

theorem rebucketed_processBundle {raw : Bytes} :
    (w.processBundle wire cfg env raw).rebucketed = w.rebucketed ++ foreigns wire cfg [raw] := by
  cases hb : wire.decodeBundle raw
  case none => simp [processBundle, foreigns, hb, drop, count]
  case some b =>
    by_cases hf : Foreign cfg b
    case pos =>
      have hc : b.shardBits ≠ 0 ∧ b.shardBits ≠ cfg.engine.shardBits := hf
      simp only [processBundle, foreigns, hb, if_pos hc, observeFrom, foldl_children,
        rebucketed_foldl_deliver]
      split
      case isTrue  => simp [hf, hb, count]
      case isFalse => simp [hf, hb, count]
    case neg =>
      have hc : ¬(b.shardBits ≠ 0 ∧ b.shardBits ≠ cfg.engine.shardBits) := hf
      have hr : (w.processBundle wire cfg env raw).rebucketed = w.rebucketed := by
        simp only [processBundle, hb, if_neg hc]
        exact rebucketed_deliver (j := ⟨b, some raw, true⟩)
      simpa [foreigns, hb, hf] using hr

-- The bundle passes the dedup stages, too.
def Forwards (cfg : Settings) (env : Env) (w : Worker) (b : Bundle) : Prop :=
  Granted cfg env b ∧ (w.suppress env (dedupKey b)).1 = false

instance : DecidablePred (Forwards cfg env w) :=
  fun _ => inferInstanceAs (Decidable (_ ∧ _))

-- The bundle can be handed over whole.
def Job.Encodable (wire : Wire) (j : Job) : Prop :=
  (j.raw.or (wire.encodeBundle j.bundle)).isSome

theorem handed_emit {e : Egress} : (w.emit e).handed = w.handed ++ e.members := by
  simp [handed, emit]

theorem handed_sendMember {mf : Frame}
    (he : ∀ seq, (wire.encode { mf with seqNum := seq }).isSome) :
    (sendMember wire cfg b w mf).handed =
      w.handed ++ if cfg.bundleAware then [] else [mf.payload] := by
  have ⟨raw, he⟩ := Option.isSome_iff_exists.mp (he ((w.egressSeq.lookup b.hashKey).getD 0 + 1))
  simp only [sendMember, he]
  repeat' split
  all_goals simp [handed, emit, Egress.members]

theorem handed_sendMembers {mfs : List Frame}
    (he : ∀ f ∈ mfs, ∀ seq, (wire.encode { f with seqNum := seq }).isSome) :
    (mfs.foldl (sendMember wire cfg b) w).handed =
      w.handed ++ if cfg.bundleAware then [] else mfs.map Frame.payload := by
  induction mfs generalizing w
  case nil => simp
  case cons mf mfs hi =>
    have ⟨hm, he⟩ := List.forall_mem_cons.mp he
    rw [List.foldl_cons, hi he, handed_sendMember hm]
    split
    case isTrue  => simp
    case isFalse => simp

theorem handed_sendBundle (hw : wire.Coalesces) (he : (raw.or (wire.encodeBundle b)).isSome) :
    (w.sendBundle wire cfg b raw).handed = w.handed ++ b.members := by
  have ⟨raw', he⟩ := Option.isSome_iff_exists.mp he
  simp only [sendBundle, he]
  cases hb : cfg.bundleAware
  case false => simp [handed_sendMembers (hw.encode b), hb, hw.members]
  case true =>
    simp only [if_true, reduceCtorEq, false_or]
    split
    case isTrue  => simp [handed_sendMembers (hw.encode b), hb, handed_emit, Egress.members]
    case isFalse => simp [handed_emit, Egress.members]

theorem handed_suppress {key : Dedup.Key} : (w.suppress env key).2.handed = w.handed :=
  congrArg (List.flatMap Egress.members) suppress_egress.1

-- What a delivery hands over, and what it does to the dedup set.

theorem handed_deliver {j : Job} (hw : wire.Coalesces) (he : j.Encodable wire) :
    (w.deliver wire cfg env j).handed =
      w.handed ++ if Forwards cfg env w j.bundle then j.bundle.members else [] := by
  refine alike_deliver.handed.trans ?_
  simp only [outcome, Forwards]
  by_cases hg : Granted cfg env j.bundle
  case neg => simp [hg]
  case pos =>
    by_cases hs : (w.suppress env (dedupKey j.bundle)).1 = true
    case pos => simp [hg, hs, handed_suppress]
    case neg => simp [hg, hs, handed_sendBundle hw he, handed_suppress]

theorem dedupSet_deliver {j : Job} :
    (w.deliver wire cfg env j).dedupSet =
      if Granted cfg env j.bundle then (w.suppress env (dedupKey j.bundle)).2.dedupSet
      else w.dedupSet := by
  refine alike_deliver.dedupSet.trans ?_
  simp only [outcome]
  repeat' split
  all_goals first | rfl | exact quiet_sendBundle.1

end Worker
