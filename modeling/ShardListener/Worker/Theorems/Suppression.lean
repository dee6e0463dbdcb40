import ShardListener.Dedup.Theorems.Set
import ShardListener.Extensions.Run
import ShardListener.Worker.Theorems.Lossless

namespace Worker

-- A decoded frame of a class that is deduplicated. A bundle comes with its datagram, or is the
-- child of a re-bucketed one.
inductive Item
  | tx (raw : Bytes) (f : Frame)
  | bundle (b : Bundle) (raw : Option Bytes) (track : Bool)
  | beef (raw : Bytes) (f : BEEFFrame)
deriving DecidableEq

inductive Item.Kind
  | tx | bundle | beef
deriving DecidableEq

namespace Item

variable (wire : Wire) (cfg : Settings) (env : Env)

def kind : Item → Kind
  | tx ..     => .tx
  | bundle .. => .bundle
  | beef ..   => .beef

def hashKey : Item → HashKey
  | tx _ f       => f.hashKey
  | bundle b _ _ => b.hashKey
  | beef _ f     => f.hashKey

def seqNum : Item → SeqNum
  | tx _ f       => f.seqNum
  | bundle b _ _ => b.seqNum
  | beef _ f     => f.seqNum

-- The two are of one class and carry the same stamp.
def SameFrame (x y : Item) : Prop :=
  x.kind = y.kind ∧ x.hashKey = y.hashKey ∧ x.seqNum = y.seqNum

instance {x y : Item} : Decidable (x.SameFrame y) :=
  inferInstanceAs (Decidable (_ ∧ _ ∧ _))

def process (w : Worker) : Item → Worker
  | tx raw f           => w.deliverTx cfg env raw f
  | bundle b raw track => w.deliverBundle wire cfg env b raw track
  | beef raw f         => w.deliverBeef wire cfg env raw f

-- The frame is stamped and passes the checks that come before the dedup stages.
def Admitted : Item → Prop
  | tx _ f       =>
    f.version = FrameVer.v2 ∧ f.seqNum ≠ 0 ∧ cfg.filt.deny (cfg.engine.groupIndex f.txID) f = none
  | bundle b _ _ => b.seqNum ≠ 0 ∧ cfg.filt.deny b.groupIdx (bundleProbe b) = none
  | beef _ f     =>
    f.seqNum ≠ 0 ∧ cfg.beefEngine.isSome ∧
      ¬(cfg.beefVerifyContent ∧ wire.sha256d f.payload ≠ f.contentID) ∧
      beefElection wire cfg f = none

instance : DecidablePred (Admitted wire cfg)
  | tx ..     => inferInstanceAs (Decidable (_ ∧ _ ∧ _))
  | bundle .. => inferInstanceAs (Decidable (_ ∧ _))
  | beef ..   => inferInstanceAs (Decidable (_ ∧ _ ∧ _ ∧ _))

-- The key under which the set remembers the frame. The HashKey is not part of it.
def key : Item → Dedup.Key
  | tx _ f       => ⟨cfg.engine.groupIndex f.txID, f.subtreeID, f.seqNum⟩
  | bundle b _ _ => ⟨b.groupIdx, b.subtreeID, b.seqNum⟩
  | beef _ f     => ⟨cfg.beefEngine.elim 0 (·.groupIndex f.topicID), f.topicID, f.seqNum⟩

-- The calls on the egress for the frame.
def handOver (w : Worker) : Item → Worker
  | tx raw f       => w.forward cfg raw f (cfg.engine.groupIndex f.txID)
  | bundle b raw _ => w.sendBundle wire cfg b raw
  | beef raw f     => w.emit (.sendBeef raw f)

-- Processing the frame counts it as a duplicate.
def Dropped (w : Worker) (x : Item) : Prop :=
  .deduped ∈ (x.process wire cfg env w).metrics.drop w.metrics.length

instance {w : Worker} : DecidablePred (Dropped wire cfg env w) :=
  fun _ => inferInstanceAs (Decidable (_ ∈ _))

-- The call is with the frame or, for a bundle, with one of its members under a number of its own.
def goesBy : Item → Egress → Bool
  | tx raw f, .send raw' f'        => raw' = raw ∧ f' = f
  | bundle b _ _, .sendBundle _ b' => b' = b
  | bundle b _ _, .send _ f        =>
    (wire.decoalesce b).any fun mf => f = { mf with seqNum := f.seqNum }
  | bundle b _ _, .mcast _ f _     =>
    (wire.decoalesce b).any fun mf => f = { mf with seqNum := f.seqNum }
  | beef raw f, .sendBeef raw' f'  => raw' = raw ∧ f' = f
  | _, _                           => false

-- Processing the frame hands it to the egress: it is in one of the calls that are made.
def Handed (w : Worker) (x : Item) : Prop :=
  ((x.process wire cfg env w).egress.drop w.egress.length).any (x.goesBy wire)

instance {w : Worker} : DecidablePred (Handed wire cfg env w) :=
  fun _ => inferInstanceAs (Decidable (_ = true))

-- Something of the frame can be written for a sink. A sink that takes bundles gets the datagram, or
-- the encoding of a child, which has none; for the others, the members are encoded one by one,
-- under the next numbers of the flow.
def Encodable (w : Worker) : Item → Prop
  | bundle b raw _ =>
    cfg.bundleAware ∧ (raw.or (wire.encodeBundle b)).isSome ∨
      (cfg.bundleAware = false ∨ cfg.mcastEgr) ∧
        ∃ m ∈ (wire.decoalesce b).zipIdx ((w.egressSeq.lookup b.hashKey).getD 0 + 1),
          (wire.encode { m.1 with seqNum := m.2 }).isSome
  | _              => True

instance {w : Worker} : DecidablePred (Encodable wire cfg w)
  | tx ..     => .isTrue trivial
  | bundle .. => inferInstanceAs (Decidable (_ ∨ _))
  | beef ..   => .isTrue trivial

end Item

variable {wire : Wire} {cfg : Settings} {env : Env} {w w' w₁ w₂ : Worker}

-- What a step does to the dedup set and to the recorder: besides `deduped`, it counts only `ms`.
structure Deduplicates (s : Dedup.Set) (now : Time) (key : Dedup.Key) (ms : List Metric)
    (w w' : Worker) : Prop where
  dedupSet : w'.dedupSet = some (s.seenAndAdd now key).2
  metrics  :
    w'.metrics = w.metrics ++ ms ++ if (s.seenAndAdd now key).1 then [.deduped] else []

variable {s : Dedup.Set} {key : Dedup.Key}

theorem Deduplicates.quiet {now : Time} {ms : List Metric} (hd : Deduplicates s now key ms w w₁)
    (hq : Quiet w₁ w₂) : Deduplicates s now key ms w w₂ :=
  ⟨hq.1.trans hd.dedupSet, hq.2.trans hd.metrics⟩

theorem Deduplicates.count {now : Time} {m : Metric}
    (hd : Deduplicates s now key [] (w.count m) w₁) : Deduplicates s now key [m] w w₁ :=
  ⟨hd.dedupSet, by simpa [Worker.count] using hd.metrics⟩

theorem suppress_fst (hs : w.dedupSet = some s) (hpos : key.seqNum ≠ 0) :
    (w.suppress env key).1 = (s.seenAndAdd env.instant.now key).1 := by
  simp only [suppress, hs, if_neg hpos]

theorem suppress_deduplicates (hs : w.dedupSet = some s) (hpos : key.seqNum ≠ 0) :
    Deduplicates s env.instant.now key [] w (w.suppress env key).2 := by
  simp only [suppress, hs, if_neg hpos]
  split
  case isTrue h  => exact ⟨rfl, by simp [h, count]⟩
  case isFalse h => exact ⟨rfl, by simp [h]⟩

theorem suppress_egress :
    (w.suppress env key).2.egress = w.egress ∧ (w.suppress env key).2.egressSeq = w.egressSeq := by
  unfold suppress
  split
  case h_1 => exact ⟨rfl, rfl⟩
  case h_2 =>
    split
    case isTrue  => exact ⟨rfl, rfl⟩
    case isFalse => dsimp only; split <;> exact ⟨rfl, rfl⟩

theorem dedupFrame_eq {f : Frame} {g : GroupIdx} (ht : cfg.txDedup = false)
    (hv : f.version = FrameVer.v2) :
    let d := w.suppress env ⟨g, f.subtreeID, f.seqNum⟩
    w.dedupFrame cfg env f g = (!d.1, d.2) := by
  simp [dedupFrame, hv, claim_of_no_store ht]

namespace Item

variable {raw : Bytes} {x : Item}

-- An admitted frame is looked up under its key; then it is handed over or not, and is observed.

theorem process_tx {f : Frame} (ht : cfg.txDedup = false) (ha : (tx raw f).Admitted wire cfg) :
    let d := w.suppress env ((tx raw f).key cfg)
    (tx raw f).process wire cfg env w =
      (if d.1 then d.2 else (tx raw f).handOver wire cfg d.2).observeFrom cfg env
        (cfg.engine.groupIndex f.txID) f.subtreeID f.hashKey f.seqNum := by
  have ⟨hv, _, hd⟩ := ha
  simp only [process, deliverTx, hd, dedupFrame_eq ht hv, if_pos hv, key, handOver]
  by_cases h : (w.suppress env ⟨cfg.engine.groupIndex f.txID, f.subtreeID, f.seqNum⟩).1 = true
  case pos => simp [h]
  case neg => simp [h]

theorem process_bundle {b : Bundle} {raw : Option Bytes} {track : Bool} (ht : cfg.txDedup = false)
    (ha : (bundle b raw track).Admitted wire cfg) :
    let d := w.suppress env ((bundle b raw track).key cfg)
    let w' :=
      if track then d.2.observeFrom cfg env b.groupIdx b.subtreeID b.hashKey b.seqNum else d.2
    (bundle b raw track).process wire cfg env w =
      if d.1 then w' else (bundle b raw track).handOver wire cfg w' := by
  have ⟨hpos, hd⟩ := ha
  simp only [process, deliverBundle, hd, if_neg hpos, claim_of_no_store ht, key, handOver]
  rfl

theorem process_beef {f : BEEFFrame} (ht : cfg.txDedup = false)
    (ha : (beef raw f).Admitted wire cfg) :
    let d := (w.count (.received .brc148)).suppress env ((beef raw f).key cfg)
    (beef raw f).process wire cfg env w =
      (if d.1 then d.2 else (beef raw f).handOver wire cfg d.2).observeBeef cfg env
        ((beef raw f).key cfg).groupIdx f := by
  have ⟨_, he, hc, hel⟩ := ha
  have ⟨engine, he⟩ := Option.isSome_iff_exists.mp he
  simp only [process, deliverBeef, he, if_neg hc, hel, claim_of_no_store ht, key, handOver,
    Option.elim_some]
  cases ((w.count (.received .brc148)).suppress env
    ⟨engine.groupIndex f.topicID, f.topicID, f.seqNum⟩).1 <;> rfl

theorem Admitted.stamped (ha : x.Admitted wire cfg) : (x.key cfg).seqNum ≠ 0 := by
  cases x
  case tx     => exact ha.2.1
  case bundle => exact ha.1
  case beef   => exact ha.1

theorem quiet_handOver : Quiet w (x.handOver wire cfg w) := by
  cases x
  case tx     => exact quiet_forward
  case bundle => exact quiet_sendBundle
  case beef   => exact .refl

-- What is counted of an admitted frame before it is looked up.
def received : Item → List Metric
  | beef .. => [.received .brc148]
  | _       => []

theorem deduplicates_process (env : Env) (ht : cfg.txDedup = false) (ha : x.Admitted wire cfg)
    (hs : w.dedupSet = some s) :
    Deduplicates s env.instant.now (x.key cfg) x.received w (x.process wire cfg env w) := by
  cases x
  case tx raw f =>
    rw [process_tx ht ha]
    exact (suppress_deduplicates hs ha.stamped).quiet (quiet_handOver.ite.trans .refl)
  case bundle b raw track =>
    rw [process_bundle ht ha]
    exact ((suppress_deduplicates hs ha.stamped).quiet quiet_observeFrom).quiet quiet_handOver.ite
  case beef raw f =>
    rw [process_beef ht ha]
    have hw : (w.count (.received .brc148)).dedupSet = some s := hs
    exact (suppress_deduplicates hw ha.stamped).count.quiet (quiet_handOver.ite.trans .refl)

theorem dropped_iff (ht : cfg.txDedup = false) (ha : x.Admitted wire cfg)
    (hs : w.dedupSet = some s) :
    x.Dropped wire cfg env w ↔ (s.seenAndAdd env.instant.now (x.key cfg)).1 = true := by
  have hm := (deduplicates_process env ht ha hs).metrics
  have hr : .deduped ∉ x.received := by cases x <;> simp [received]
  simp only [Dropped, hm, List.append_assoc, List.drop_left, List.mem_append, hr, false_or]
  split
  case isTrue h  => simp [h]
  case isFalse h => simp [h]

-- What becomes of an admitted frame: it is dropped and the egress is not called, or it is handed
-- over.
theorem egress_process (env : Env) (ht : cfg.txDedup = false) (ha : x.Admitted wire cfg)
    (hs : w.dedupSet = some s) :
    ∃ w₁, w₁.egress = w.egress ∧ w₁.egressSeq = w.egressSeq ∧
      (x.process wire cfg env w).egress =
        if x.Dropped wire cfg env w then w₁.egress else (x.handOver wire cfg w₁).egress := by
  simp only [dropped_iff ht ha hs]
  cases x
  case tx raw f =>
    refine ⟨(w.suppress env ((tx raw f).key cfg)).2, suppress_egress.1, suppress_egress.2, ?_⟩
    rw [process_tx ht ha, ← suppress_fst hs ha.stamped]
    split <;> rfl
  case bundle b raw track =>
    let w₁ := (w.suppress env ((bundle b raw track).key cfg)).2
    let w₂ := if track then w₁.observeFrom cfg env b.groupIdx b.subtreeID b.hashKey b.seqNum else w₁
    have hw : w₂.egress = w₁.egress ∧ w₂.egressSeq = w₁.egressSeq := by
      dsimp only [w₂]
      split <;> exact ⟨rfl, rfl⟩
    refine ⟨w₂, hw.1.trans suppress_egress.1, hw.2.trans suppress_egress.2, ?_⟩
    rw [process_bundle ht ha, ← suppress_fst hs ha.stamped]
    split <;> rfl
  case beef raw f =>
    let w₁ := ((w.count (.received .brc148)).suppress env ((beef raw f).key cfg)).2
    have hw : (w.count (.received .brc148)).dedupSet = some s := hs
    refine ⟨w₁, suppress_egress.1, suppress_egress.2, ?_⟩
    rw [process_beef ht ha, ← suppress_fst hw ha.stamped]
    split <;> rfl

end Item

-- From `w` to `w'` there are further calls, one of them with the frame if `P`.
def Hands (wire : Wire) (x : Item) (P : Prop) (w w' : Worker) : Prop :=
  ∃ ks, w'.egress = w.egress ++ ks ∧ (P → ∃ k ∈ ks, x.goesBy wire k)

namespace Hands

variable {x : Item} {P Q : Prop}

theorem of_egress_eq (h : w'.egress = w.egress) (hp : ¬P) : Hands wire x P w w' :=
  ⟨[], by rw [h, List.append_nil], fun h => absurd h hp⟩

theorem emit {k : Egress} (hk : P → x.goesBy wire k) : Hands wire x P w (w.emit k) :=
  ⟨[k], rfl, fun hp => ⟨k, List.mem_singleton_self k, hk hp⟩⟩

theorem mono (h : Hands wire x P w w') (hq : Q → P) : Hands wire x Q w w' := by
  obtain ⟨ks, e, hk⟩ := h
  exact ⟨ks, e, hk ∘ hq⟩

theorem trans (h₁ : Hands wire x P w w₁) (h₂ : Hands wire x Q w₁ w₂) :
    Hands wire x (P ∨ Q) w w₂ := by
  obtain ⟨ks₁, e₁, hk₁⟩ := h₁
  obtain ⟨ks₂, e₂, hk₂⟩ := h₂
  refine ⟨ks₁ ++ ks₂, by rw [e₂, e₁, List.append_assoc], fun h => ?_⟩
  rcases h with hp | hq
  case inl =>
    obtain ⟨k, hk, hg⟩ := hk₁ hp
    exact ⟨k, List.mem_append_left _ hk, hg⟩
  case inr =>
    obtain ⟨k, hk, hg⟩ := hk₂ hq
    exact ⟨k, List.mem_append_right _ hk, hg⟩

theorem calls (h : Hands wire x P w w') (hp : P) :
    (w'.egress.drop w.egress.length).any (x.goesBy wire) := by
  obtain ⟨ks, e, hk⟩ := h
  rw [e, List.drop_left, List.any_eq_true]
  exact hk hp

end Hands

-- The members of a bundle.
section

variable {b : Bundle} {raw : Option Bytes} {track : Bool} {mf : Frame} {mfs : List Frame}

theorem hands_sendMember (hm : mf ∈ wire.decoalesce b)
    (hs : cfg.bundleAware = false ∨ cfg.mcastEgr) :
    Hands wire (.bundle b raw track)
      (wire.encode { mf with seqNum := (w.egressSeq.lookup b.hashKey).getD 0 + 1 }).isSome w
      (sendMember wire cfg b w mf) := by
  have hmem (seq : SeqNum) : (wire.decoalesce b).any fun m =>
      { mf with seqNum := seq } = { m with seqNum := seq } :=
    List.any_eq_true.mpr ⟨mf, hm, decide_eq_true rfl⟩
  simp only [sendMember]
  split
  case h_1 he => exact .of_egress_eq rfl (by simp [he])
  case h_2 raw' he =>
    split
    case isTrue =>
      split
      case isTrue  => exact .emit fun _ => hmem _
      case isFalse =>
        refine Hands.mono (.trans (.emit ?_) (.emit (P := False) False.elim)) .inl
        exact fun _ => hmem _
    case isFalse hn =>
      have ha : ¬cfg.bundleAware = true := by simpa [hn] using hs
      rw [if_neg ha]
      exact .emit fun _ => hmem _

theorem egressSeq_sendMember :
    ((sendMember wire cfg b w mf).egressSeq.lookup b.hashKey).getD 0 =
      (w.egressSeq.lookup b.hashKey).getD 0 + 1 := by
  have hs : (sendMember wire cfg b w mf).egressSeq =
      w.egressSeq.insert b.hashKey ((w.egressSeq.lookup b.hashKey).getD 0 + 1) := by
    simp only [sendMember]
    repeat' split
    all_goals rfl
  rw [hs, AList.lookup_insert, Option.getD_some]

theorem hands_sendMembers (hm : ∀ mf ∈ mfs, mf ∈ wire.decoalesce b)
    (hs : cfg.bundleAware = false ∨ cfg.mcastEgr) :
    Hands wire (.bundle b raw track)
      (∃ m ∈ mfs.zipIdx ((w.egressSeq.lookup b.hashKey).getD 0 + 1),
        (wire.encode { m.1 with seqNum := m.2 }).isSome) w
      (mfs.foldl (sendMember wire cfg b) w) := by
  induction mfs generalizing w
  case nil => exact .of_egress_eq rfl (by simp)
  case cons mf mfs hi =>
    obtain ⟨hmf, hmfs⟩ := List.forall_mem_cons.mp hm
    refine ((hands_sendMember hmf hs).trans (hi hmfs)).mono fun he => ?_
    rw [egressSeq_sendMember]
    simpa only [List.zipIdx_cons, List.mem_cons, exists_eq_or_imp] using he

theorem hands_sendBundle :
    Hands wire (.bundle b raw track) (Item.Encodable wire cfg w (.bundle b raw track)) w
      (w.sendBundle wire cfg b raw) := by
  have hp : Hands wire (.bundle b raw track)
      (cfg.bundleAware ∧ (raw.or (wire.encodeBundle b)).isSome) w
      (w.passBundle wire cfg b raw) := by
    unfold passBundle
    split
    case isTrue =>
      split
      case h_1 he => exact .of_egress_eq rfl (by simp [he])
      case h_2    => exact .emit fun _ => decide_eq_true rfl
    case isFalse ha => exact .of_egress_eq rfl fun h => ha h.1
  have hseq : (w.passBundle wire cfg b raw).egressSeq = w.egressSeq := by
    unfold passBundle
    repeat' split
    all_goals rfl
  simp only [sendBundle]
  split
  case isTrue hs =>
    refine (hp.trans (hands_sendMembers (fun _ => id) hs)).mono fun he => ?_
    rw [hseq]
    exact he.imp_right And.right
  case isFalse hs => exact hp.mono fun he => he.resolve_right fun h => hs h.1

end

namespace Item

variable {x : Item}

theorem hands_handOver :
    Hands wire x (x.Encodable wire cfg w) w (x.handOver wire cfg w) := by
  cases x
  case bundle => exact hands_sendBundle
  case beef   => exact .emit fun _ => decide_eq_true ⟨rfl, rfl⟩
  case tx raw f =>
    have hs : Hands wire (.tx raw f) True w (w.emit (.send raw f)) :=
      .emit fun _ => decide_eq_true ⟨rfl, rfl⟩
    simp only [handOver, forward]
    split
    case isTrue  => exact (hs.trans (.emit (P := False) False.elim)).mono .inl
    case isFalse => exact hs

-- An admitted frame that is not dropped is handed over, if it can be encoded.
theorem handed_of_not_dropped (ht : cfg.txDedup = false) (ha : x.Admitted wire cfg)
    (hs : w.dedupSet = some s) (hd : ¬x.Dropped wire cfg env w) (he : x.Encodable wire cfg w) :
    x.Handed wire cfg env w := by
  obtain ⟨w₁, hw, hseq, e⟩ := egress_process env ht ha hs
  have he₁ : x.Encodable wire cfg w₁ := by
    cases x
    case bundle => simpa only [Encodable, hseq] using he
    all_goals trivial
  rw [Handed, e, if_neg hd, ← hw]
  exact hands_handOver.calls he₁

end Item

-- A worker, with the frames it has handed to the egress.
structure Session where
  worker : Worker
  handed : List Item

namespace Session

variable (wire : Wire) (cfg : Settings)

def step (s : Session) (x : Env × Item) : Session where
  worker := x.2.process wire cfg x.1 s.worker
  handed := if x.2.Handed wire cfg x.1 s.worker then s.handed ++ [x.2] else s.handed

-- A frame is dropped only if it was handed over before.
def Sound (s : Session) (x : Env × Item) : Prop :=
  x.2.Dropped wire cfg x.1 s.worker → ∃ y ∈ s.handed, y.SameFrame x.2

-- No other frame that was handed over has the key of this one.
def Unambiguous (s : Session) (x : Env × Item) : Prop :=
  ∀ y ∈ s.handed, y.key cfg = x.2.key cfg → y.SameFrame x.2

-- The frame is dropped, or something of it can be encoded.
def Sendable (s : Session) (x : Env × Item) : Prop :=
  ¬x.2.Dropped wire cfg x.1 s.worker → x.2.Encodable wire cfg s.worker

instance {s : Session} {x : Env × Item} : Decidable (Sound wire cfg s x) :=
  inferInstanceAs (Decidable (_ → _))

instance {s : Session} {x : Env × Item} : Decidable (Unambiguous cfg s x) :=
  inferInstanceAs (Decidable (∀ y ∈ _, _))

instance {s : Session} {x : Env × Item} : Decidable (Sendable wire cfg s x) :=
  inferInstanceAs (Decidable (_ → _))

variable {wire : Wire} {cfg : Settings} {s : Session} {x : Env × Item}

-- The dedup set remembers only keys of frames that were handed over.
def Remembers (cfg : Settings) (s : Session) : Prop :=
  ∃ set, s.worker.dedupSet = some set ∧ ∀ k ∈ set.entries, ∃ y ∈ s.handed, y.key cfg = k

theorem handed_step {y : Item} (hy : y ∈ s.handed) : y ∈ (s.step wire cfg x).handed := by
  simp only [Session.step]
  split
  case isTrue  => exact List.mem_append_left _ hy
  case isFalse => exact hy

theorem Remembers.step (hr : s.Remembers cfg) (ht : cfg.txDedup = false)
    (ha : x.2.Admitted wire cfg) (he : s.Sendable wire cfg x) :
    (s.step wire cfg x).Remembers cfg := by
  have ⟨set, hs, hk⟩ := hr
  refine ⟨_, (Item.deduplicates_process x.1 ht ha hs).dedupSet, ?_⟩
  intro k hm
  rcases Dedup.Set.mem_seenAndAdd hm with hm | ⟨e, hnew⟩
  case inl =>
    have ⟨y, hy, hyk⟩ := hk k hm
    exact ⟨y, handed_step hy, hyk⟩
  case inr =>
    have hd : ¬x.2.Dropped wire cfg x.1 s.worker := by simp [Item.dropped_iff ht ha hs, hnew]
    refine ⟨x.2, ?_, e.symm⟩
    rw [Session.step, if_pos (Item.handed_of_not_dropped ht ha hs hd (he hd))]
    exact List.mem_append_right _ List.mem_cons_self

theorem Remembers.sound (hr : s.Remembers cfg) (ht : cfg.txDedup = false)
    (ha : x.2.Admitted wire cfg) (hu : s.Unambiguous cfg x) : s.Sound wire cfg x := by
  have ⟨set, hs, hk⟩ := hr
  intro hd
  have hm := Dedup.Set.mem_of_seenAndAdd ((Item.dropped_iff ht ha hs).mp hd)
  have ⟨y, hy, hyk⟩ := hk _ hm
  exact ⟨y, hy, hu y hy hyk⟩

-- In every run in which no frame has the key of another one that was handed over before, and in
-- which something can be encoded of every frame that is not dropped, a frame is dropped only if it
-- was handed over before.
theorem sound_of_unambiguous {w : Worker} {capacity : Int} {ttl : Duration} {xs : List (Env × Item)}
    (ht : cfg.txDedup = false) (hs : w.dedupSet = some (.new capacity ttl))
    (ha : ∀ x ∈ xs, x.2.Admitted wire cfg)
    (hu : Run.Along (step wire cfg) (Unambiguous cfg) ⟨w, []⟩ xs)
    (he : Run.Along (step wire cfg) (Sendable wire cfg) ⟨w, []⟩ xs) :
    Run.Along (step wire cfg) (Sound wire cfg) ⟨w, []⟩ xs := by
  have h₀ : Remembers cfg ⟨w, []⟩ := ⟨_, hs, fun k hm => absurd hm Dedup.Set.not_mem_new⟩
  exact Run.along_of_preserved (fun s x hr ha hp => hr.step ht ha hp.2)
    (fun s x hr ha hp => hr.sound ht ha hp.1) h₀ ha (hu.and he)

-- A transaction frame of the sender `hashKey`; all of them are of one group and subtree.
def stamped (hashKey : HashKey) (seqNum : SeqNum) : Env × Item :=
  (Env.blank, .tx [] ⟨FrameVer.v2, .zero, hashKey, seqNum, .zero, []⟩)

-- A bundle of the same sender, for a sink that takes bundles.
def bundled (hashKey : HashKey) (seqNum : SeqNum) : Env × Item :=
  (Env.blank, .bundle ⟨0, 1, .zero, hashKey, seqNum, []⟩ (some []) true)

def bundleSink : Settings :=
  { Settings.blank with bundleAware := true }

-- A worker that remembers 8 frames for good.
def remembering : Worker where
  dedupSet := some (.new 8 0)

-- The second copies of the frame 1 and of the bundle 1 are dropped.
theorem sound_one_sender :
    Run.Along (step Wire.blank bundleSink) (Sound Wire.blank bundleSink) ⟨remembering, []⟩
      [stamped 1 1, bundled 1 1, stamped 1 2, stamped 1 1, bundled 1 1] :=
  sound_of_unambiguous rfl rfl (by decide) (by decide) (by decide)

-- The first frame of the sender 2 is dropped because the sender 1 has sent its first frame.
theorem two_senders_not_sound :
    (∀ x ∈ [stamped 1 1, stamped 2 1], x.2.Admitted Wire.blank Settings.blank) ∧
      ¬Run.Along (step Wire.blank Settings.blank) (Sound Wire.blank Settings.blank)
        ⟨remembering, []⟩ [stamped 1 1, stamped 2 1] := by
  decide

end Session
end Worker
