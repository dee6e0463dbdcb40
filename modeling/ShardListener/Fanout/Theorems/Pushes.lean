import ShardListener.Fanout.Theorems.Flow

-- The members of a flow while tables are pushed.
namespace Fanout

open Worker (Egress)

variable {ρ ε : Type} {env : Env ρ ε} {headerSink : ρ → Bool} {s s' s'' : Sink ρ ε} {h : HashKey}
variable {k : Call}

-- One subscriber may stand in the tables with one entry after the other.
section

variable {sub : ρ → Prop} [DecidablePred sub]

-- The calls on the sinks of the subscriber with frames of the flow.
def sentTo (sub : ρ → Prop) [DecidablePred sub] (h : HashKey) (es : List (Entry ρ ε)) :
    List Egress :=
  ((es.filter (sub ·.consumer)).flatMap Entry.calls).filter fun k => (seqIn h k).isSome

theorem sentTo_append {es es' : List (Entry ρ ε)} :
    sentTo sub h (es ++ es') = sentTo sub h es ++ sentTo sub h es' := by
  simp only [sentTo, List.filter_append, List.flatMap_append]

theorem sentTo_of_none {es : List (Entry ρ ε)} (hes : ∀ e ∈ es, ∀ k ∈ e.calls, seqIn h k = none) :
    sentTo sub h es = [] := by
  refine List.filter_eq_nil_iff.mpr fun k hk => ?_
  obtain ⟨e, he, hke⟩ := List.mem_flatMap.mp hk
  rw [hes e (List.mem_filter.mp he).1 k hke]
  exact Bool.false_ne_true

-- The subscriber stands once in the table, with an entry that gets the members of the flow.
def Holds (env : Env ρ ε) (sub : ρ → Prop) [DecidablePred sub] (h : HashKey) (g : GroupIdx)
    (subtreeID : Bytes32) (table : List ρ) : Prop :=
  ∃ d, table.filter (sub ·) = [d] ∧ (env.consumer d).shards.Nodup ∧ ¬Whole env d ∧
    Admits env d h g subtreeID

-- The subscriber gets the members, with the SeqNums that follow.
structure Continues (env : Env ρ ε) (sub : ρ → Prop) [DecidablePred sub] (h : HashKey)
    (ps : List Bytes) (s s' : Sink ρ ε) : Prop where
  sent    : ∃ es ms, s'.log = s.log ++ es ∧ sentTo sub h es = ms.map EncodedMember.call ∧
    Numbered env (s.counter h) ps ms
  counter : s'.counter h = s.counter h + ps.length

namespace Continues

variable {ps ps' : List Bytes}

theorem aside (ha : Aside h s s') : Continues env sub h [] s s' where
  sent    := by
    obtain ⟨es, he, hes⟩ := ha.log
    exact ⟨es, [], he, sentTo_of_none hes, .nil⟩
  counter := ha.counter

theorem trans (hc : Continues env sub h ps s s') (hc' : Continues env sub h ps' s' s'') :
    Continues env sub h (ps ++ ps') s s'' where
  sent    := by
    obtain ⟨es, ms, he, hs, hn⟩ := hc.sent
    obtain ⟨es', ms', he', hs', hn'⟩ := hc'.sent
    rw [hc.counter] at hn'
    refine ⟨es ++ es', ms ++ ms', by rw [he', he, List.append_assoc], ?_, hn.append hn'⟩
    rw [sentTo_append, hs, hs', List.map_append]
  counter := by rw [hc'.counter, hc.counter, List.length_append, Nat.add_assoc]

variable [DecidableEq ρ]

theorem bundled {x : Bytes × Bundle} (hw : env.wire.Stamps) (hi : s.Indexed env)
    (hs : Holds env sub x.2.hashKey x.2.groupIdx x.2.subtreeID s.consumers) :
    Continues env sub x.2.hashKey x.2.members s (s.bundled env x) := by
  obtain ⟨d, hd, hnodup, hwhole, hadmits⟩ := hs
  have hmem : d ∈ s.consumers ∧ sub d := by
    have h : d ∈ s.consumers.filter (sub ·) := hd ▸ List.mem_singleton_self d
    simpa using List.mem_filter.mp h
  have hcount : s.consumers.count d = 1 := by
    have h : (s.consumers.filter (sub ·)).count d = 1 := by rw [hd]; exact List.count_singleton_self
    rwa [count_filter_eq_ite, if_pos hmem.2] at h
  have htimes : times env x.2.groupIdx d = 1 :=
    (times_eq_one hadmits.1).mpr (List.nodup_iff_count_le_one.mp hnodup _)
  have hrouted : (s.routed x.2.groupIdx).count d = 1 := by
    rw [hi.routed_eq, count_routed, hcount, htimes]
  -- Nobody else that stands for the subscriber is served.
  have honly (c : ρ) (hc : c ∈ s.routed x.2.groupIdx) (hsub : sub c) : c = d := by
    have hpos : 0 < (s.routed x.2.groupIdx).count c := List.count_pos_iff.mpr hc
    rw [hi.routed_eq, count_routed] at hpos
    have hc : c ∈ s.consumers := List.count_pos_iff.mp (Nat.pos_of_mul_pos_right hpos)
    have h : c ∈ s.consumers.filter (sub ·) := List.mem_filter.mpr ⟨hc, decide_eq_true hsub⟩
    rw [hd] at h
    exact List.mem_singleton.mp h
  obtain ⟨ms, hcalls, hn, hcounter⟩ := bundled_of_takes hw.toSplits hrouted (hadmits.takes hwhole)
  refine ⟨?_, hcounter⟩
  have hissued : Issued env s x.2 x.1 (s.routed x.2.groupIdx) { sink := s } (s.passed env x) :=
    issued_passed
  obtain ⟨es, he, hes⟩ := hissued.log
  rw [passed_sink] at he
  refine ⟨es, ms, he, ?_, hn⟩
  rw [Sink.callsDuring, he, List.drop_left] at hcalls
  have hfilter : es.filter (sub ·.consumer) = es.filter (·.consumer = d) := by
    refine List.filter_congr fun e hm => decide_eq_decide.mpr ⟨honly _ (hes e hm).1, ?_⟩
    rintro rfl
    exact hmem.2
  rw [sentTo, hfilter]
  refine (congrArg _ hcalls).trans (List.filter_eq_self.mpr fun k hk => ?_)
  -- The calls with members are calls with frames of the flow.
  obtain ⟨e, hm, hke⟩ := List.mem_flatMap.mp (hcalls ▸ hk : k ∈ callsOn d es)
  rcases (hes e (List.mem_filter.mp hm).1).2 k hke with rfl | ⟨_, hmem⟩
  case inl =>
    obtain ⟨m, _, hm⟩ := List.mem_map.mp hk
    cases hm
  case inr =>
    obtain ⟨m, hm, rfl⟩ := List.mem_map.mp hmem
    have hkey : m.f.hashKey = x.2.hashKey := hashKey_decoalesce hw m hm
    simp only [EncodedMember.call, seqIn, hkey, if_true, Option.isSome_some]

theorem perform {flow : HashKey → GroupIdx × Bytes32} (hw : env.wire.Stamps) (hk : k.Bundles h)
    (hflow : ∀ raw b, k = .item (.bundle raw b) → flow b.hashKey = (b.groupIdx, b.subtreeID))
    (hi : s.Indexed env) (hs : Holds env sub h (flow h).1 (flow h).2 s.consumers) :
    Continues env sub h (k.brings h) s (s.perform env headerSink k).1 := by
  rcases foreign_or_bundle hk with ⟨hf, e⟩ | ⟨x, rfl, rfl⟩
  case inl => rw [e]; exact .aside (.perform hw hf)
  case inr =>
    have hg := hflow x.1 x.2 rfl
    have hb : (Call.item (.bundle x.1 x.2)).brings x.2.hashKey = x.2.members := if_pos rfl
    rw [hg] at hs
    rw [hb]
    exact .bundled hw hi hs

end Continues

-- The same for the operations one after the other.

variable {flow : HashKey → GroupIdx × Bytes32} {t : Sink ρ ε × List (Call × Result ε)} {op : Op ρ}
variable {ops : List (Op ρ)}

-- No frame of the flow comes on its own, and the flows have one group and one SubtreeID each.
def Call.Orderly (h : HashKey) (flow : HashKey → GroupIdx × Bytes32) (k : Call) : Prop :=
  k.Bundles h ∧ ∀ raw b, k = .item (.bundle raw b) → flow b.hashKey = (b.groupIdx, b.subtreeID)

def Op.brings (h : HashKey) : Op ρ → List Bytes
  | .call k  => k.brings h
  | .apply _ => []

def Op.Bundles (h : HashKey) : Op ρ → Prop
  | .call k  => k.Bundles h
  | .apply _ => True

theorem Bounded.exec (hw : env.wire.Stamps) (ho : ∀ op ∈ ops, op.Bundles h) (hi : t.1.Indexed env)
    (hb : Bounded h t.1) :
    (Run.exec (Sink.serve env headerSink) t ops).1.Indexed env ∧
      Bounded h (Run.exec (Sink.serve env headerSink) t ops).1 := by
  induction ops generalizing t
  case nil => exact ⟨hi, hb⟩
  case cons op ops hrec =>
    have ho' : ∀ o ∈ ops, o.Bundles h := fun o hm => ho o (List.mem_cons_of_mem _ hm)
    have hop := ho op List.mem_cons_self
    cases op
    case call  => exact hrec ho' hi.perform (hb.perform hw hop)
    case apply => exact hrec ho' .apply (hb.aside .apply)

-- The subscriber stands in the table, or in the one that is pushed.
def Op.Keeps (env : Env ρ ε) (sub : ρ → Prop) [DecidablePred sub] (h : HashKey)
    (flow : HashKey → GroupIdx × Bytes32) : Op ρ → Prop
  | .call k      => k.Orderly h flow
  | .apply table => Holds env sub h (flow h).1 (flow h).2 table

theorem Continues.serve [DecidableEq ρ] (headerSink : ρ → Bool) (hw : env.wire.Stamps)
    (ho : op.Keeps env sub h flow) (hi : t.1.Indexed env)
    (hs : Holds env sub h (flow h).1 (flow h).2 t.1.consumers) :
    let t' := Sink.serve env headerSink t op
    Continues env sub h (op.brings h) t.1 t'.1 ∧ t'.1.Indexed env ∧
      Holds env sub h (flow h).1 (flow h).2 t'.1.consumers := by
  cases op
  case call k =>
    have htable : (t.1.perform env headerSink k).1.table = t.1.table := table_perform
    have hc : (t.1.perform env headerSink k).1.consumers = t.1.consumers := congrArg Prod.fst htable
    exact ⟨.perform hw ho.1 ho.2 hi hs, hi.perform, hc.symm ▸ hs⟩
  case apply table => exact ⟨.aside .apply, .apply, ho⟩

theorem Continues.exec [DecidableEq ρ] (hw : env.wire.Stamps)
    (ho : ∀ op ∈ ops, op.Keeps env sub h flow) (hi : t.1.Indexed env)
    (hs : Holds env sub h (flow h).1 (flow h).2 t.1.consumers) :
    Continues env sub h (ops.flatMap (Op.brings h)) t.1
      (Run.exec (Sink.serve env headerSink) t ops).1 := by
  induction ops generalizing t
  case nil => exact .aside .refl
  case cons op ops hrec =>
    obtain ⟨hc, hi', hs'⟩ := Continues.serve headerSink hw (ho op List.mem_cons_self) hi hs
    exact hc.trans (hrec (fun o hm => ho o (List.mem_cons_of_mem _ hm)) hi' hs')

namespace Shared

variable {s : Shared ρ ε} {a : Act ρ} {before during : List (Act ρ)}

theorem table_settled : (s.settled env headerSink).1.table = s.sink.table := by
  unfold settled
  cases s.running
  case none => rfl
  case some => exact table_loops

-- The frames of the flow come in bundles.
def Bundles (h : HashKey) : Act ρ → Prop
  | .call k => k.Bundles h
  | _       => True

-- The tables that are pushed hold the subscriber.
def Keeps (env : Env ρ ε) (sub : ρ → Prop) [DecidablePred sub] (h : HashKey)
    (flow : HashKey → GroupIdx × Bytes32) : Act ρ → Prop
  | .call k      => k.Orderly h flow
  | .apply table => Holds env sub h (flow h).1 (flow h).2 table
  | _            => True

-- The tables for which `Apply` is under way are in `P`.
def Pushed (P : List ρ → Prop) (s : Shared ρ ε) : Prop :=
  ∀ a ∈ s.applying, P a.table

theorem Pushed.step {P : List ρ → Prop} (hs : s.Pushed P)
    (ha : ∀ table, a = .apply table → P table) : (s.step env headerSink a).Pushed P := by
  cases a
  case call => intro a hm; exact hs a (applying_enter ▸ hm)
  case turn => intro a hm; exact hs a (applying_goOn ▸ hm)
  case apply table =>
    intro a hm
    rcases List.mem_append.mp hm with hm | hm
    case inl => exact hs a hm
    case inr => rw [List.mem_singleton.mp hm]; exact ha table rfl
  case index i =>
    simp only [Shared.step, buildOn]
    split
    case h_1 => exact hs
    case h_2 a' ha' =>
      split
      case h_1 => exact hs
      case h_2 =>
        intro a hm
        rcases List.mem_or_eq_of_mem_set hm with hm | rfl
        case inl => exact hs a hm
        case inr => exact hs a' (List.mem_of_getElem? ha')
  case swap i =>
    simp only [Shared.step, swap]
    split
    case h_1 => exact hs
    case h_2 =>
      split
      case h_1 => exact fun a hm => hs a (List.mem_of_mem_eraseIdx hm)
      case h_2 => exact hs

-- Where an action takes effect it does what it is named for.
theorem effect_call (h : op ∈ s.effect a) (hk : op = .call k) : a = .call k := by
  subst hk
  cases a
  case call k' =>
    simp only [effect] at h
    split at h
    case isTrue  => cases h; rfl
    case isFalse => cases h
  case swap i =>
    obtain ⟨_, _, e⟩ := Option.map_eq_some_iff.mp h
    cases e
  all_goals cases h

theorem effect_apply {table : List ρ} {P : List ρ → Prop} (hs : s.Pushed P)
    (h : Op.apply table ∈ s.effect a) : P table := by
  cases a
  case swap i =>
    obtain ⟨a, ha, e⟩ := Option.map_eq_some_iff.mp h
    cases e
    exact hs a (List.mem_of_getElem? (Option.filter_eq_some_iff.mp ha).1)
  case call k =>
    simp only [effect] at h
    split at h
    case isTrue  => cases h
    case isFalse => cases h
  all_goals cases h

theorem settled_bounded (hw : env.wire.Stamps) (hbefore : ∀ a ∈ before, Bundles h a) :
    let s : Shared ρ ε := Run.exec (step env headerSink) {} before
    (s.settled env headerSink).1.Indexed env ∧ Bounded h (s.settled env headerSink).1 := by
  intro s
  have hstart : s.settled env headerSink =
    Run.exec (Sink.serve env headerSink) ({}, [])
      (Run.points (step env headerSink) effect {} before) :=
    settled_exec .new
  rw [hstart]
  refine Bounded.exec hw ?_ rfl fun e he => absurd he List.not_mem_nil
  refine Run.points_forall (fun _ => True) (fun _ _ _ _ => trivial) (fun s a _ ha op hop =>
    ?_) trivial hbefore
  cases op
  case apply  => trivial
  case call k => cases effect_call hop rfl; exact ha

theorem points_keep (hs : s.Pushed (Holds env sub h (flow h).1 (flow h).2))
    (hduring : ∀ a ∈ during, Keeps env sub h flow a) :
    ∀ op ∈ Run.points (step env headerSink) effect s during, op.Keeps env sub h flow := by
  refine Run.points_forall (Pushed _) (fun s a hs ha => hs.step ?pushed)
    (fun s a hs ha op hop => ?_) hs hduring
  case pushed =>
    rintro table rfl
    exact ha
  cases op
  case call k      => cases effect_call hop rfl; exact ha
  case apply table => exact effect_apply hs hop

-- A flow is numbered through for a subscriber as long as it stands in the tables. However the
-- tables are pushed while the worker is at work, it gets all members of the flow in their order,
-- with SeqNums that follow on the ones used before, even if it was away for some time.
theorem numbered_across_pushes [DecidableEq ρ] (headerSink : ρ → Bool) (hw : env.wire.Stamps)
    (hbefore : ∀ a ∈ before, Bundles h a) (hduring : ∀ a ∈ during, Keeps env sub h flow a) :
    let s : Shared ρ ε := Run.exec (step env headerSink) {} before
    let s' := Run.exec (step env headerSink) s during
    let ops := Run.points (step env headerSink) effect s during
    let n := (s.settled env headerSink).1.counter h
    Holds env sub h (flow h).1 (flow h).2 s.sink.consumers →
      s.Pushed (Holds env sub h (flow h).1 (flow h).2) →
      (∀ e ∈ (s.settled env headerSink).1.log, ∀ k ∈ e.calls, ∀ m ∈ seqIn h k, m ≤ n) ∧
        ∃ es ms, (s'.settled env headerSink).1.log = (s.settled env headerSink).1.log ++ es ∧
          sentTo sub h es = ms.map EncodedMember.call ∧
            Numbered env n (ops.flatMap (Op.brings h)) ms := by
  intro s s' ops n hs hpushed
  have hbuilds : s.Builds env := .exec .new
  have hinv : (s.settled env headerSink).1.Indexed env ∧ Bounded h (s.settled env headerSink).1 :=
    settled_bounded hw hbefore
  have hops : ∀ op ∈ ops, op.Keeps env sub h flow := points_keep hpushed hduring
  have htable : (s.settled env headerSink).1.table = s.sink.table := table_settled
  have hc : Continues env sub h (ops.flatMap (Op.brings h)) (s.settled env headerSink).1
      (s'.settled env headerSink).1 := by
    have hend : s'.settled env headerSink =
        Run.exec (Sink.serve env headerSink) (s.settled env headerSink) ops :=
      settled_exec hbuilds
    rw [hend]
    have hconsumers : (s.settled env headerSink).1.consumers = s.sink.consumers :=
      congrArg Prod.fst htable
    exact .exec hw hops hinv.1 (hconsumers.symm ▸ hs)
  exact ⟨hinv.2, hc.sent⟩

end Shared
end

theorem splitWire_stamps : splitWire.Stamps where
  toSplits      := splitWire_splits
  hashKey b f h := by
    obtain ⟨m, _, rfl⟩ := List.mem_map.mp h
    rfl

-- Two entries of one subscriber, and another subscriber.
def twinEnv : Env (Fin 3) Nat where
  wire            := splitWire
  engine          := ⟨fun _ => 0, 0⟩
  beefEngine      := none
  hash ip _ _     := ip.toNat + 2
  consumer _      := {}
  reply _ _ _ _   := none
  isNotElected _  := false

def bundleCall (members : List Bytes) : Act (Fin 3) :=
  .call (.item (.bundle (bundleIn 7 members).1 (bundleIn 7 members).2))

-- A table in which the subscriber has its other entry is pushed while a bundle is sent.
theorem Shared.numbered_over_replacement :
    let sub : Fin 3 → Prop := (· ≠ 2)
    let s : Shared (Fin 3) Nat :=
      Run.exec (step twinEnv fun _ => false) {} [.apply [0], .index 0, .swap 0]
    let s' := Run.exec (step twinEnv fun _ => false) s
      [bundleCall [[1], [2]], .apply [2, 1], .index 0, .turn, .index 0, .swap 0, .turn,
        bundleCall [[3]], .turn, .turn, .turn]
    ∃ es ms, s'.sink.log = s.sink.log ++ es ∧ sentTo sub 7 es = ms.map EncodedMember.call ∧
      Numbered twinEnv 0 [[1], [2], [3]] ms := by
  have hholds (d : Fin 3) (table : List (Fin 3)) (hd : table.filter (· ≠ 2) = [d]) :
      Holds twinEnv (· ≠ 2) 7 0 .zero table :=
    ⟨d, hd, List.nodup_nil, fun hw => Bool.false_ne_true hw.1, .inl rfl,
      Bool.false_ne_true, .inl rfl⟩
  have hcall (members : List Bytes) :
      Keeps twinEnv (· ≠ 2) 7 (fun _ => (0, .zero)) (bundleCall members) := by
    refine ⟨trivial, fun raw b e => ?_⟩
    cases e
    rfl
  have hbefore : ∀ a ∈ ([.apply [0], .index 0, .swap 0] : List (Act (Fin 3))), Bundles 7 a := by
    simp [Bundles]
  have hduring : ∀ a ∈ [bundleCall [[1], [2]], .apply [2, 1], .index 0, .turn,
      .index 0, .swap 0, .turn, bundleCall [[3]], .turn, .turn, .turn],
      Keeps twinEnv (· ≠ 2) 7 (fun _ => (0, .zero)) a := by
    simp only [List.forall_mem_cons]
    exact ⟨hcall _, hholds 1 _ rfl, trivial, trivial, trivial, trivial, trivial, hcall _,
      trivial, trivial, trivial, fun _ ha => absurd ha List.not_mem_nil⟩
  exact And.right <|
    numbered_across_pushes (fun _ => false) splitWire_stamps hbefore hduring (hholds 0 [0] rfl)
    fun _ ha => absurd ha List.not_mem_nil

end Fanout
