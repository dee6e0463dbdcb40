import ShardListener.Fanout.Theorems.Contiguity
import ShardListener.Fanout.Theorems.Shared

-- The members that a bundle is split into are frames of its flow.
structure Wire.Stamps (wire : Wire) : Prop extends wire.Splits where
  hashKey : ∀ b, ∀ f ∈ wire.decoalesce b, f.hashKey = b.hashKey

namespace Fanout

open Worker (Egress)

variable {ρ ε : Type} {env : Env ρ ε} {headerSink : ρ → Bool} {s s' s'' : Sink ρ ε}
variable {p p' p'' : Pass ρ ε}
variable {b : Bundle} {raw : Bytes} {c d : ρ} {h : HashKey} {k : Call} {cs : List ρ}
variable {q : Pass ρ ε × Nat}

-- The SeqNum under which a call carries a frame of the flow.
def seqIn (h : HashKey) : Egress → Option SeqNum
  | .send _ f => if f.hashKey = h then some f.seqNum else none
  | _         => none

-- No loop writes the table.

def Sink.table (s : Sink ρ ε) : List ρ × Dict GroupIdx (List ρ) × List ρ :=
  (s.consumers, s.byShard, s.allShards)

theorem table_decoalesced : (p.decoalesced env b).2.sink.table = p.sink.table := by
  unfold Pass.decoalesced
  split <;> rfl

theorem table_item_turn {item : Item} {g : GroupIdx} :
    (item.turn env g p c).sink.table = p.sink.table := by
  cases item
  case frame =>
    simp only [Item.turn, deliverFrame]
    split_ifs <;> rfl
  case bundle =>
    simp only [Item.turn, deliverBundle]
    split
    case isTrue => rfl
    case isFalse =>
      split
      case isTrue => split <;> rfl
      case isFalse =>
        split
        case isTrue  => rfl
        case isFalse => exact table_decoalesced
  case beef =>
    simp only [Item.turn, deliverBeef]
    split
    case h_1 => split <;> rfl
    case h_2 => split_ifs <;> rfl

theorem table_turn : (k.turn env headerSink q c).1.sink.table = q.1.sink.table := by
  cases k
  case item item =>
    simp only [Call.turn]
    cases item.group env
    case none => rfl
    case some => exact table_item_turn
  case header =>
    simp only [Call.turn, deliverHeader]
    split <;> rfl
  all_goals rfl

theorem table_loops : (k.loops env headerSink cs q).1.sink.table = q.1.sink.table := by
  induction cs generalizing q
  case nil          => rfl
  case cons c cs hi => exact hi.trans table_turn

theorem table_perform : (s.perform env headerSink k).1.table = s.table := by
  cases hs : s.snapshot env k
  case none    => rw [perform_of_no_snapshot hs]
  case some cs => rw [perform_of_snapshot hs]; exact table_loops

-- The index is that of the table.
def Sink.Indexed (env : Env ρ ε) (s : Sink ρ ε) : Prop :=
  (s.byShard, s.allShards) = s.consumers.foldl (index env) (∅, [])

theorem Sink.Indexed.apply {table : List ρ} : (s.apply env table).Indexed env :=
  rfl

theorem Sink.Indexed.perform (hs : s.Indexed env) : (s.perform env headerSink k).1.Indexed env := by
  have e : (s.perform env headerSink k).1.table = s.table := table_perform
  obtain ⟨hc, hi⟩ := Prod.mk.inj e
  rw [Sink.Indexed, hc, hi]
  exact hs

theorem Sink.Indexed.routed_eq (hs : s.Indexed env) {g : GroupIdx} :
    s.routed g = (s.apply env s.consumers).routed g := by
  rw [Sink.Indexed] at hs
  simp only [Sink.routed, Sink.apply, ← hs]

-- What brings no frame of the flow to anybody.
structure Aside (h : HashKey) (s s' : Sink ρ ε) : Prop where
  log     : ∃ es, s'.log = s.log ++ es ∧ ∀ e ∈ es, ∀ k ∈ e.calls, seqIn h k = none
  counter : s'.counter h = s.counter h

namespace Aside

theorem refl : Aside h s s where
  log     := ⟨[], (List.append_nil _).symm, fun _ he => absurd he List.not_mem_nil⟩
  counter := rfl

theorem trans (ha : Aside h s s') (ha' : Aside h s' s'') : Aside h s s'' where
  log := by
    obtain ⟨es, he, hes⟩ := ha.log
    obtain ⟨es', he', hes'⟩ := ha'.log
    refine ⟨es ++ es', by rw [he', he, List.append_assoc], fun e hm => ?_⟩
    exact (List.mem_append.mp hm).elim (hes e) (hes' e)
  counter := ha'.counter.trans ha.counter

theorem apply {table : List ρ} : Aside h s (s.apply env table) :=
  ⟨refl.log, rfl⟩

theorem note {outcome : Outcome ε} (ho : Entry.calls ⟨c, outcome⟩ = []) :
    Aside h p.sink (p.note c outcome).sink where
  log     := by
    refine ⟨_, rfl, fun e he k hk => ?_⟩
    rw [List.mem_singleton.mp he, ho] at hk
    cases hk
  counter := rfl

theorem calls {e : Egress} (he : seqIn h e = none) : Aside h p.sink (p.calls env c [e]).sink where
  log     := by
    obtain ⟨calls, hk, hx⟩ := Extends.calls env c p [e]
    refine ⟨_, hx.log, fun e' he' k hm => ?_⟩
    rw [List.mem_singleton.mp he', Entry.calls, hk, List.mem_singleton] at hm
    rw [hm, he]
  counter := rfl

theorem foldl {f : Pass ρ ε → ρ → Pass ρ ε} (hf : ∀ p c, Aside h p.sink (f p c).sink) :
    Aside h p.sink (cs.foldl f p).sink := by
  induction cs generalizing p
  case nil          => exact .refl
  case cons c cs hi => exact (hf p c).trans hi

theorem deliverFrame {g : GroupIdx} {f : Frame} (hf : f.hashKey ≠ h) :
    Aside h p.sink (deliverFrame env g raw f p c).sink := by
  simp only [Fanout.deliverFrame]
  split
  case isTrue => exact .refl
  case isFalse =>
    split
    case isTrue =>
      split
      case isTrue  => exact .note rfl
      case isFalse => exact .refl
    case isFalse => exact .calls (if_neg hf)

theorem deliverBeef {g : GroupIdx} {f : BEEFFrame} :
    Aside h p.sink (deliverBeef env g raw f p c).sink := by
  have hn (o : Outcome ε) (ho : Entry.calls ⟨c, o⟩ = []) (P : Prop) [Decidable P] :
      Aside h p.sink (if P then p.note c o else p).sink := by
    split
    case isTrue  => exact .note ho
    case isFalse => exact .refl
  simp only [Fanout.deliverBeef]
  split
  case h_1 => exact hn _ rfl _
  case h_2 =>
    split
    case isTrue => exact hn _ rfl _
    case isFalse =>
      split
      case isTrue  => exact hn _ rfl _
      case isFalse => exact .calls rfl

end Aside

-- A turn with a bundle, in terms of the members that are split off once.

-- What the loops over `cs` have done with the bundle: nobody else was served, and members were sent
-- only if they were split off.
structure Issued (env : Env ρ ε) (s : Sink ρ ε) (b : Bundle) (raw : Bytes) (cs : List ρ)
    (p p' : Pass ρ ε) : Prop where
  split   : Split env s b p'
  members : p.members.isSome → p'.members.isSome
  log     : ∃ es, p'.sink.log = p.sink.log ++ es ∧ ∀ e ∈ es, e.consumer ∈ cs ∧ ∀ k ∈ e.calls,
    k = .sendBundle raw b ∨ p'.members.isSome ∧ k ∈ (s.decoalesce env b).1.map EncodedMember.call

namespace Issued

variable {cs' : List ρ}

theorem nil (hp : Split env s b p) : Issued env s b raw cs p p where
  split   := hp
  members := id
  log     := ⟨[], (List.append_nil _).symm, fun _ he => absurd he List.not_mem_nil⟩

theorem append (hi : Issued env s b raw cs p p') (hi' : Issued env s b raw cs' p' p'') :
    Issued env s b raw (cs ++ cs') p p'' where
  split   := hi'.split
  members := hi'.members ∘ hi.members
  log     := by
    obtain ⟨es, he, hes⟩ := hi.log
    obtain ⟨es', he', hes'⟩ := hi'.log
    refine ⟨es ++ es', by rw [he', he, List.append_assoc], fun e hm => ?_⟩
    rcases List.mem_append.mp hm with hm | hm
    case inr => exact ⟨List.mem_append_right _ (hes' e hm).1, (hes' e hm).2⟩
    case inl =>
      refine ⟨List.mem_append_left _ (hes e hm).1, fun k hk => ?_⟩
      exact ((hes e hm).2 k hk).imp_right fun hms => ⟨hi'.members hms.1, hms.2⟩

theorem note {outcome : Outcome ε} (hp : Split env s b p) (ho : Entry.calls ⟨d, outcome⟩ = []) :
    Issued env s b raw [d] p (p.note d outcome) where
  split   := hp
  members := id
  log     := by
    refine ⟨_, rfl, fun e he => ?_⟩
    rw [List.mem_singleton.mp he, ho]
    exact ⟨List.mem_singleton_self d, fun _ hk => absurd hk List.not_mem_nil⟩

theorem calls {ks : List Egress} (hp : Split env s b p)
    (hk : ∀ k ∈ ks, k = .sendBundle raw b ∨
      p.members.isSome ∧ k ∈ (s.decoalesce env b).1.map EncodedMember.call) :
    Issued env s b raw [d] p (p.calls env d ks) where
  split   := hp
  members := id
  log     := by
    obtain ⟨calls, hc, hx⟩ := Extends.calls env d p ks
    refine ⟨_, hx.log, fun e he => ?_⟩
    rw [List.mem_singleton.mp he, Entry.calls, hc]
    exact ⟨List.mem_singleton_self d, hk⟩

theorem split_off (hp : Split env s b p) :
    Issued env s b raw [d] p ((p.decoalesced env b).2.calls env d
      ((p.decoalesced env b).1.map EncodedMember.call)) := by
  obtain ⟨p', e, hs, hm, _, hl⟩ := Served.decoalesced hp
  rw [e]
  have hi :
      Issued env s b raw [d] p' (p'.calls env d ((s.decoalesce env b).1.map EncodedMember.call)) :=
    .calls hs fun k hk => .inr ⟨hm, hk⟩
  obtain ⟨es, he, hes⟩ := hi.log
  exact ⟨hi.split, fun _ => hi.members hm, es, by rw [he, hl], hes⟩

theorem turn (hp : Split env s b p) :
    Issued env s b raw [d] p (deliverBundle env b.groupIdx raw b p d) := by
  simp only [deliverBundle]
  split
  case isTrue => exact .nil hp
  case isFalse =>
    split
    case isTrue =>
      split
      case isTrue  => exact .note hp rfl
      case isFalse => exact .nil hp
    case isFalse =>
      split
      case isTrue  => exact .calls hp fun k hk => .inl (List.mem_singleton.mp hk)
      case isFalse => exact .split_off hp

theorem foldl_turn (hp : Split env s b p) :
    Issued env s b raw cs p (cs.foldl (deliverBundle env b.groupIdx raw b) p) := by
  induction cs generalizing p
  case nil => exact .nil hp
  case cons d cs hi =>
    have h₁ : Issued env s b raw [d] p (deliverBundle env b.groupIdx raw b p d) := .turn hp
    exact h₁.append (hi h₁.split)

end Issued

-- What the bundle does to the counters.
section

variable {x : Bytes × Bundle}

-- The loops of `SendBundle`, when they are done.
def Sink.passed (env : Env ρ ε) (s : Sink ρ ε) (x : Bytes × Bundle) : Pass ρ ε :=
  (s.routed x.2.groupIdx).foldl (deliverBundle env x.2.groupIdx x.1 x.2) { sink := s }

theorem passed_sink : (s.passed env x).sink = s.bundled env x := by
  rw [Sink.passed, Sink.routed, List.foldl_append]
  rfl

theorem issued_passed :
    Issued env s x.2 x.1 (s.routed x.2.groupIdx) { sink := s } (s.passed env x) :=
  .foldl_turn (.inl ⟨rfl, rfl⟩)

theorem Split.counter_of_ne (hw : env.wire.Splits) (hp : Split env s b p) (hne : b.hashKey ≠ h) :
    p.sink.counter h = s.counter h := by
  obtain ⟨_, hcounter⟩ := decoalesce_numbered (s := s) (b := b) hw
  rcases hp with ⟨_, hq⟩ | ⟨_, hq⟩
  case inl => rw [Sink.counter, hq, Sink.counter]
  case inr =>
    rw [Sink.counter, hq]
    exact (hcounter h).trans (if_neg (Ne.symm hne))

theorem Split.counter_of_members (hw : env.wire.Splits) (hp : Split env s b p)
    (hm : p.members.isSome) :
    p.sink.counter b.hashKey = s.counter b.hashKey + b.members.length := by
  obtain ⟨_, hcounter⟩ := decoalesce_numbered (s := s) (b := b) hw
  rcases hp with ⟨hn, _⟩ | ⟨_, hq⟩
  case inl => rw [hn] at hm; cases hm
  case inr =>
    rw [Sink.counter, hq]
    exact (hcounter _).trans (if_pos rfl)

theorem Split.counter_le (hw : env.wire.Splits) (hp : Split env s b p) :
    s.counter b.hashKey ≤ p.sink.counter b.hashKey := by
  rcases hp with ⟨_, hq⟩ | hp'
  case inl => rw [Sink.counter, Sink.counter, hq]
  case inr =>
    rw [Split.counter_of_members hw (.inr hp') (by rw [hp'.1]; rfl)]
    exact Nat.le_add_right _ _

theorem foldl_restamp_hashKey {fs : List Frame} {t : List EncodedMember × Dict HashKey SeqNum}
    (hf : ∀ f ∈ fs, f.hashKey = h) (ht : ∀ m ∈ t.1, m.f.hashKey = h) :
    ∀ m ∈ (fs.foldl (restamp env b) t).1, m.f.hashKey = h := by
  induction fs generalizing t
  case nil => exact ht
  case cons f fs hi =>
    obtain ⟨hf₀, hfs⟩ := List.forall_mem_cons.mp hf
    refine hi hfs fun m hm => ?_
    simp only [restamp] at hm
    split at hm
    case h_1 => exact ht m hm
    case h_2 =>
      rcases List.mem_append.mp hm with hm | hm
      case inl => exact ht m hm
      case inr => rw [List.mem_singleton.mp hm]; exact hf₀

theorem hashKey_decoalesce (hw : env.wire.Stamps) :
    ∀ m ∈ (s.decoalesce env b).1, m.f.hashKey = b.hashKey :=
  foldl_restamp_hashKey (hw.hashKey b) fun _ hm => absurd hm List.not_mem_nil

theorem seqNum_decoalesce (hw : env.wire.Splits) :
    ∀ m ∈ (s.decoalesce env b).1, m.f.seqNum ≤ s.counter b.hashKey + b.members.length := by
  intro m hm
  obtain ⟨hn, _⟩ := decoalesce_numbered (s := s) (b := b) hw
  have hr : m.f.seqNum ∈ List.range' (s.counter b.hashKey + 1) (s.decoalesce env b).1.length :=
    hn.seqNum ▸ List.mem_map_of_mem hm
  rw [hn.length_eq, List.mem_range'_1] at hr
  exact Nat.le_of_lt_succ (hr.2.trans_eq (Nat.add_right_comm _ 1 _))

end

-- A call that brings no frame of the flow.
def Call.Foreign (h : HashKey) : Call → Prop
  | .item (.frame _ f)  => f.hashKey ≠ h
  | .item (.bundle _ b) => b.hashKey ≠ h
  | _                   => True

namespace Aside

theorem bundled {x : Bytes × Bundle} (hw : env.wire.Stamps) (hne : x.2.hashKey ≠ h) :
    Aside h s (s.bundled env x) := by
  have hi : Issued env s x.2 x.1 (s.routed x.2.groupIdx) { sink := s } (s.passed env x) :=
    issued_passed
  rw [← passed_sink]
  refine ⟨?_, hi.split.counter_of_ne hw.toSplits hne⟩
  obtain ⟨es, he, hes⟩ := hi.log
  refine ⟨es, he, fun e hm k hk => ?_⟩
  rcases (hes e hm).2 k hk with rfl | ⟨_, hmem⟩
  case inl => rfl
  case inr =>
    obtain ⟨m, hm, rfl⟩ := List.mem_map.mp hmem
    exact if_neg (hashKey_decoalesce hw m hm ▸ hne)

theorem sendHeaderN {raw : Bytes} : Aside h s (s.sendHeaderN env headerSink raw).1 := by
  have hf (q : Pass ρ ε × Nat) (c : ρ) :
      Aside h q.1.sink (deliverHeader env headerSink raw q c).1.sink := by
    unfold deliverHeader
    split
    case isTrue  => exact .calls rfl
    case isFalse => exact .refl
  have hfold (q : Pass ρ ε × Nat) (cs : List ρ) :
      Aside h q.1.sink (cs.foldl (deliverHeader env headerSink raw) q).1.sink := by
    induction cs generalizing q
    case nil          => exact .refl
    case cons c cs hi => exact (hf q c).trans (hi _)
  exact hfold ({ sink := s }, 0) s.consumers

theorem perform (hw : env.wire.Stamps) (hk : k.Foreign h) :
    Aside h s (s.perform env headerSink k).1 := by
  cases k
  case block       => exact .foldl (p := { sink := s }) fun _ _ => .calls rfl
  case subtreeData => exact .foldl (p := { sink := s }) fun _ _ => .calls rfl
  case plain       => exact .foldl (p := { sink := s }) fun _ _ => .calls rfl
  case header      => exact .sendHeaderN
  case item item =>
    cases item
    case frame raw f =>
      refine Aside.trans (.foldl (p := { sink := s }) fun _ _ => .deliverFrame hk)
        (.foldl fun _ _ => .deliverFrame hk)
    case bundle raw b => exact .bundled (x := (raw, b)) hw hk
    case beef raw f =>
      simp only [Sink.perform, Sink.deliver, Sink.sendBeef]
      split
      case h_1 => exact .refl
      case h_2 =>
        exact Aside.trans (.foldl (p := { sink := s }) fun _ _ => .deliverBeef)
          (.foldl fun _ _ => .deliverBeef)

end Aside

-- The SeqNums of the flow that were used up to now are at most its counter.
def Bounded (h : HashKey) (s : Sink ρ ε) : Prop :=
  ∀ e ∈ s.log, ∀ k ∈ e.calls, ∀ n ∈ seqIn h k, n ≤ s.counter h

namespace Bounded

theorem aside (hs : Bounded h s) (ha : Aside h s s') : Bounded h s' := by
  obtain ⟨es, he, hes⟩ := ha.log
  intro e hm k hk n hn
  rw [ha.counter]
  rw [he] at hm
  rcases List.mem_append.mp hm with hm | hm
  case inl => exact hs e hm k hk n hn
  case inr => rw [hes e hm k hk] at hn; cases hn

theorem bundled {x : Bytes × Bundle} (hw : env.wire.Stamps) (hs : Bounded x.2.hashKey s) :
    Bounded x.2.hashKey (s.bundled env x) := by
  have hi : Issued env s x.2 x.1 (s.routed x.2.groupIdx) { sink := s } (s.passed env x) :=
    issued_passed
  obtain ⟨es, he, hes⟩ := hi.log
  rw [← passed_sink]
  intro e hm k hk n hn
  rw [he] at hm
  rcases List.mem_append.mp hm with hm | hm
  case inl => exact (hs e hm k hk n hn).trans (hi.split.counter_le hw.toSplits)
  case inr =>
    rcases (hes e hm).2 k hk with rfl | ⟨hms, hmem⟩
    case inl => cases hn
    case inr =>
      obtain ⟨m, hm, rfl⟩ := List.mem_map.mp hmem
      rw [hi.split.counter_of_members hw.toSplits hms]
      have hk : m.f.hashKey = x.2.hashKey := hashKey_decoalesce hw m hm
      simp only [EncodedMember.call, seqIn, hk, if_true, Option.mem_some_iff] at hn
      exact hn ▸ seqNum_decoalesce hw.toSplits m hm

end Bounded

-- No frame of the flow comes on its own.
def Call.Bundles (h : HashKey) : Call → Prop
  | .item (.frame _ f) => f.hashKey ≠ h
  | _                  => True

-- The members of the flow that a call brings.
def Call.brings (h : HashKey) : Call → List Bytes
  | .item (.bundle _ b) => if b.hashKey = h then b.members else []
  | _                   => []

theorem foreign_or_bundle (hk : k.Bundles h) :
    k.Foreign h ∧ k.brings h = [] ∨ ∃ x : Bytes × Bundle, k = .item (.bundle x.1 x.2) ∧
      x.2.hashKey = h := by
  cases k
  case item item =>
    cases item
    case frame  => exact .inl ⟨hk, rfl⟩
    case beef   => exact .inl ⟨trivial, rfl⟩
    case bundle raw b =>
      by_cases e : b.hashKey = h
      case pos => exact .inr ⟨(raw, b), rfl, e⟩
      case neg => exact .inl ⟨e, if_neg e⟩
  all_goals exact .inl ⟨trivial, rfl⟩

theorem Bounded.perform (hw : env.wire.Stamps) (hk : k.Bundles h) (hs : Bounded h s) :
    Bounded h (s.perform env headerSink k).1 := by
  rcases foreign_or_bundle hk with ⟨hf, _⟩ | ⟨x, rfl, rfl⟩
  case inl => exact hs.aside (.perform hw hf)
  case inr => exact hs.bundled hw

end Fanout
