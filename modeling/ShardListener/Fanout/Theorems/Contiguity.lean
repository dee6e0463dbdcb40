import ShardListener.Extensions.Run
import ShardListener.Fanout.Theorems.Scan

-- What is assumed of the codec of members: a bundle is split into its members in their order, and
-- each of them can be encoded under any SeqNum.
structure Wire.Splits (wire : Wire) : Prop where
  members : ∀ b, (wire.decoalesce b).map Frame.payload = b.members
  encode  : ∀ b, ∀ f ∈ wire.decoalesce b, ∀ seq, (wire.encode { f with seqNum := seq }).isSome

namespace Fanout

open Worker (Egress)

variable {ρ ε : Type} {env : Env ρ ε} {s : Sink ρ ε} {b : Bundle} {raw : Bytes} {c d : ρ}
variable {h : HashKey}
variable {groupIdx : GroupIdx}

-- The last SeqNum that was stamped on a member in the flow.
def Sink.counter (s : Sink ρ ε) (h : HashKey) : SeqNum :=
  (s.egressSeq.lookup h).getD 0

def EncodedMember.call (m : EncodedMember) : Egress :=
  .send m.raw m.f

-- The encoded members of a flow, in order and with the SeqNums that follow on `n`.
structure Numbered (env : Env ρ ε) (n : SeqNum) (payloads : List Bytes)
    (ms : List EncodedMember) : Prop where
  payload : ms.map (·.f.payload) = payloads
  seqNum  : ms.map (·.f.seqNum) = List.range' (n + 1) ms.length
  encoded : ∀ m ∈ ms, env.wire.encode m.f = some m.raw

namespace Numbered

variable {n : SeqNum} {ps ps' : List Bytes} {ms ms' : List EncodedMember}

theorem nil : Numbered env n [] [] where
  payload := rfl
  seqNum  := rfl
  encoded := nofun

theorem length_eq (hn : Numbered env n ps ms) : ms.length = ps.length := by
  rw [← hn.payload, List.length_map]

theorem append (hn : Numbered env n ps ms) (hn' : Numbered env (n + ps.length) ps' ms') :
    Numbered env n (ps ++ ps') (ms ++ ms') where
  payload := by rw [List.map_append, hn.payload, hn'.payload]
  seqNum  := by
    rw [List.map_append, hn.seqNum, hn'.seqNum, List.length_append, ← List.range'_append_1,
      ← hn.length_eq, Nat.add_right_comm]
  encoded := fun m hm => (List.mem_append.mp hm).elim (hn.encoded m) (hn'.encoded m)

end Numbered

-- One turn of the loop of `decoalesce` with a member that can be encoded.
theorem restamp_eq {t : List EncodedMember × Dict HashKey SeqNum} {mf : Frame} {n : SeqNum}
    {bytes : Bytes} (hn : (t.2.lookup b.hashKey).getD 0 = n)
    (he : env.wire.encode { mf with seqNum := n + 1 } = some bytes) :
    restamp env b t mf =
      (t.1 ++ [⟨bytes, { mf with seqNum := n + 1 }⟩], t.2.insert b.hashKey (n + 1)) := by
  subst hn
  simp only [restamp, he]

-- The members are numbered from the counter of the flow on, and no other counter is touched.
theorem foldl_restamp {fs : List Frame} {t : List EncodedMember × Dict HashKey SeqNum} {n : SeqNum}
    (hn : (t.2.lookup b.hashKey).getD 0 = n)
    (he : ∀ f ∈ fs, ∀ seq, (env.wire.encode { f with seqNum := seq }).isSome) :
    ∃ ms, (fs.foldl (restamp env b) t).1 = t.1 ++ ms ∧ Numbered env n (fs.map Frame.payload) ms ∧
      ∀ h, (((fs.foldl (restamp env b) t).2).lookup h).getD 0 =
        if h = b.hashKey then n + fs.length else (t.2.lookup h).getD 0 := by
  induction fs generalizing t n
  case nil =>
    refine ⟨[], (List.append_nil _).symm, .nil, ?_⟩
    intro h
    split
    case isTrue e  => rw [e]; exact hn
    case isFalse _ => rfl
  case cons f fs hi =>
    have ⟨hf, hfs⟩ := List.forall_mem_cons.mp he
    have ⟨bytes, hb⟩ := Option.isSome_iff_exists.mp (hf (n + 1))
    rw [List.foldl_cons, restamp_eq hn hb]
    have ⟨ms, h₁, h₂, h₃⟩ := hi (n := n + 1)
      (t := (t.1 ++ [⟨bytes, { f with seqNum := n + 1 }⟩], t.2.insert b.hashKey (n + 1)))
      (by rw [AList.lookup_insert]; rfl) hfs
    have hone : Numbered env n [f.payload] [⟨bytes, { f with seqNum := n + 1 }⟩] := by
      refine ⟨rfl, rfl, ?_⟩
      intro m hm
      rw [List.mem_singleton.mp hm]
      exact hb
    refine ⟨⟨bytes, { f with seqNum := n + 1 }⟩ :: ms, by rw [h₁, List.append_assoc]; rfl,
      hone.append h₂, ?_⟩
    intro h
    rw [h₃ h, AList.lookup_insert_eq_ite, List.length_cons]
    split
    case isTrue  => exact Nat.add_right_comm n 1 fs.length
    case isFalse => rfl

theorem decoalesce_numbered (hw : env.wire.Splits) :
    Numbered env (s.counter b.hashKey) b.members (s.decoalesce env b).1 ∧
      ∀ h, (s.decoalesce env b).2.counter h =
        if h = b.hashKey then s.counter h + b.members.length else s.counter h := by
  have ⟨ms, h₁, h₂, h₃⟩ := foldl_restamp (b := b) (t := ([], s.egressSeq)) rfl (hw.encode b)
  rw [List.nil_append] at h₁
  rw [hw.members] at h₂
  have hlen : (env.wire.decoalesce b).length = b.members.length := by
    rw [← hw.members b, List.length_map]
  refine ⟨h₁ ▸ h₂, ?_⟩
  intro h
  rw [Sink.counter, Sink.decoalesce, h₃ h, hlen]
  split
  case isTrue e  => rw [e]; rfl
  case isFalse _ => rfl

-- A consumer that gets whole bundles.
def Whole (env : Env ρ ε) (c : ρ) : Prop :=
  (env.consumer c).bundleCapable ∧ (env.consumer c).bundleSink

-- The consumer is subscribed to the group of the flow, its filter lets the flow pass, and the flow
-- is not its own.
def Admits (env : Env ρ ε) (c : ρ) (h : HashKey) (groupIdx : GroupIdx) (subtreeID : Bytes32) :
    Prop :=
  Subscribed env groupIdx c ∧
    ¬denied (env.consumer c).filt groupIdx ⟨FrameVer.v2, .zero, h, 0, subtreeID, []⟩ ∧
    ((env.consumer c).ownIngressIP = 0 ∨
      h ≠ env.hash (env.consumer c).ownIngressIP groupIdx subtreeID)

-- The consumer gets the members of the bundle, if the loops come to it.
def Takes (env : Env ρ ε) (b : Bundle) (c : ρ) : Prop :=
  ¬denied (env.consumer c).filt b.groupIdx (probe b) ∧
    ¬isOwnBundle env (env.consumer c) b.groupIdx b ∧ ¬Whole env c

theorem Admits.takes (ha : Admits env c b.hashKey b.groupIdx b.subtreeID) (hw : ¬Whole env c) :
    Takes env b c := by
  refine ⟨ha.2.1, ?_, hw⟩
  simp only [isOwnBundle]
  split
  case isTrue    => exact Bool.false_ne_true
  case isFalse h => simpa using ha.2.2.resolve_left h

def Entry.calls : Entry ρ ε → List Egress
  | ⟨_, .sent calls⟩ => calls.map Prod.fst
  | _                => []

variable [DecidableEq ρ]

-- The calls on the sink of the consumer.
def callsOn (c : ρ) (es : List (Entry ρ ε)) : List Egress :=
  (es.filter (·.consumer = c)).flatMap Entry.calls

theorem callsOn_append {es es' : List (Entry ρ ε)} :
    callsOn c (es ++ es') = callsOn c es ++ callsOn c es' := by
  rw [callsOn, List.filter_append, List.flatMap_append]
  rfl

theorem callsOn_of_ne {outcome : Outcome ε} (hd : d ≠ c) : callsOn c [⟨d, outcome⟩] = [] := by
  simp [callsOn, hd]

theorem callsOn_self {outcome : Outcome ε} :
    callsOn c [⟨c, outcome⟩] = Entry.calls ⟨c, outcome⟩ := by
  simp [callsOn]

-- The members of the bundle are split off at most once.
def Split (env : Env ρ ε) (s : Sink ρ ε) (b : Bundle) (p : Pass ρ ε) : Prop :=
  p.members = none ∧ p.sink.egressSeq = s.egressSeq ∨
    p.members = some (s.decoalesce env b).1 ∧ p.sink.egressSeq = (s.decoalesce env b).2.egressSeq

-- Turns with the bundle for the consumers `cs`. If `c` gets members, each turn for it splits them
-- off or finds them, and calls its sink with all of them.
structure Served (env : Env ρ ε) (s : Sink ρ ε) (b : Bundle) (c : ρ) (cs : List ρ)
    (p p' : Pass ρ ε) : Prop where
  split   : Split env s b p'
  members : p.members.isSome ∨ c ∈ cs ∧ Takes env b c → p'.members.isSome
  routed  : p'.sink.routed = p.sink.routed
  log     : ∃ es, p'.sink.log = p.sink.log ++ es ∧
    (Takes env b c → callsOn c es =
      (cs.filter (· = c)).flatMap fun _ => (s.decoalesce env b).1.map EncodedMember.call)

namespace Served

variable {p p' p'' : Pass ρ ε} {cs cs' : List ρ}

theorem nil (hp : Split env s b p) : Served env s b c [] p p where
  split   := hp
  members := fun h => h.resolve_right fun h => List.not_mem_nil h.1
  routed  := rfl
  log     := ⟨[], (List.append_nil _).symm, fun _ => rfl⟩

theorem append (h : Served env s b c cs p p') (h' : Served env s b c cs' p' p'') :
    Served env s b c (cs ++ cs') p p'' where
  split   := h'.split
  members := by
    intro hm
    rw [List.mem_append, or_and_right, ← or_assoc] at hm
    exact h'.members (hm.imp_left h.members)
  routed  := h'.routed.trans h.routed
  log     := by
    have ⟨es, he, hes⟩ := h.log
    have ⟨es', he', hes'⟩ := h'.log
    refine ⟨es ++ es', by rw [he', he, List.append_assoc], ?_⟩
    intro ht
    rw [callsOn_append, hes ht, hes' ht, List.filter_append, List.flatMap_append]

-- A turn that gives no members to a consumer, which is not `c` if that takes members.
theorem aside (hp : Split env s b p) (hd : Takes env b c → d ≠ c) (hm : p'.members = p.members)
    (hq : p'.sink.egressSeq = p.sink.egressSeq) (hr : p'.sink.routed = p.sink.routed)
    (hl : ∃ es, p'.sink.log = p.sink.log ++ es ∧ (d ≠ c → callsOn c es = [])) :
    Served env s b c [d] p p' where
  split   := by rwa [Split, hm, hq]
  members := fun h => hm ▸ h.resolve_right fun h => hd h.2 (List.mem_singleton.mp h.1).symm
  routed  := hr
  log     := by
    have ⟨es, he, hes⟩ := hl
    refine ⟨es, he, ?_⟩
    intro ht
    simp [hes (hd ht), hd ht]

theorem skip (hp : Split env s b p) (hd : Takes env b c → d ≠ c) : Served env s b c [d] p p :=
  .aside hp hd rfl rfl rfl ⟨[], (List.append_nil _).symm, fun _ => rfl⟩

theorem note {outcome : Outcome ε} (hp : Split env s b p) (hd : Takes env b c → d ≠ c) :
    Served env s b c [d] p (p.note d outcome) :=
  .aside hp hd rfl rfl rfl ⟨_, rfl, callsOn_of_ne⟩

theorem calls {ks : List Egress} (hp : Split env s b p) (hd : Takes env b c → d ≠ c) :
    Served env s b c [d] p (p.calls env d ks) := by
  have ⟨_, _, he⟩ := Extends.calls env d p ks
  exact .aside hp hd rfl rfl rfl ⟨_, he.log, callsOn_of_ne⟩

omit [DecidableEq ρ] in
theorem decoalesced (hp : Split env s b p) :
    ∃ p', p.decoalesced env b = ((s.decoalesce env b).1, p') ∧ Split env s b p' ∧
      p'.members.isSome ∧ p'.sink.routed = p.sink.routed ∧ p'.sink.log = p.sink.log := by
  simp only [Pass.decoalesced]
  rcases hp with ⟨hn, hq⟩ | ⟨hm, hq⟩
  case inl =>
    have e : (p.sink.decoalesce env b).1 = (s.decoalesce env b).1 ∧
        (p.sink.decoalesce env b).2.egressSeq = (s.decoalesce env b).2.egressSeq := by
      simp only [Sink.decoalesce, hq, and_self]
    simp only [hn, e.1]
    exact ⟨_, rfl, .inr ⟨rfl, e.2⟩, rfl, rfl, rfl⟩
  case inr =>
    simp only [hm]
    exact ⟨p, rfl, .inr ⟨hm, hq⟩, by rw [hm]; rfl, rfl, rfl⟩

-- A turn for a consumer that gets the members.
theorem split_off (hp : Split env s b p) :
    Served env s b c [d] p ((p.decoalesced env b).2.calls env d
      ((p.decoalesced env b).1.map EncodedMember.call)) := by
  have ⟨p', e, hs, hm, hr, hl⟩ := decoalesced hp
  rw [e]
  have ⟨calls, hk, he⟩ := Extends.calls env d p' ((s.decoalesce env b).1.map EncodedMember.call)
  refine ⟨hs, fun _ => hm, hr, [⟨d, .sent calls⟩], by rw [he.log, hl], fun _ => ?_⟩
  by_cases hd : d = c
  case pos => subst hd; simp [callsOn_self, Entry.calls, hk]
  case neg => simp [callsOn_of_ne hd, hd]

theorem turn (hp : Split env s b p) :
    Served env s b c [d] p (deliverBundle env b.groupIdx raw b p d) := by
  simp only [deliverBundle]
  split
  case isTrue hdeny => exact .skip hp fun ht e => ht.1 (e ▸ hdeny)
  case isFalse =>
    split
    case isTrue hown =>
      have hd : Takes env b c → d ≠ c := fun ht e => ht.2.1 (e ▸ hown)
      split
      case isTrue  => exact .note hp hd
      case isFalse => exact .skip hp hd
    case isFalse =>
      split
      case isTrue hwhole => exact .calls hp fun ht e => ht.2.2 (e ▸ hwhole)
      case isFalse       => exact .split_off hp

theorem foldl_turn (hp : Split env s b p) :
    Served env s b c cs p (cs.foldl (deliverBundle env b.groupIdx raw b) p) := by
  induction cs generalizing p
  case nil => exact .nil hp
  case cons d cs hi =>
    have h₁ : Served env s b c [d] p (deliverBundle env b.groupIdx raw b p d) := .turn hp
    exact h₁.append (hi h₁.split)

end Served

-- A call of `SendBundle`.
def Sink.bundled (env : Env ρ ε) (s : Sink ρ ε) (x : Bytes × Bundle) : Sink ρ ε :=
  (s.sendBundle env x.1 x.2).1

variable {table : List ρ} {x : Bytes × Bundle} {xs : List (Bytes × Bundle)}

-- What a call does for a consumer, with the state of the loops when they are done.
theorem served_bundled (env : Env ρ ε) (s : Sink ρ ε) (x : Bytes × Bundle) (c : ρ) :
    ∃ p : Pass ρ ε, p.sink = s.bundled env x ∧
      Served env s x.2 c (s.routed x.2.groupIdx) { sink := s } p := by
  refine ⟨(s.routed x.2.groupIdx).foldl (deliverBundle env x.2.groupIdx x.1 x.2) { sink := s },
    ?_, ?_⟩
  case refine_1 => rw [Sink.routed, List.foldl_append]; rfl
  case refine_2 => exact .foldl_turn (.inl ⟨rfl, rfl⟩)

-- The calls on the sink of the consumer during a call of `SendBundle`.
def Sink.callsDuring (env : Env ρ ε) (c : ρ) (s : Sink ρ ε) (x : Bytes × Bundle) : List Egress :=
  callsOn c ((s.bundled env x).log.drop s.log.length)

-- The counter of another flow does not move, whoever gets the members.
theorem counter_bundled_of_ne (hw : env.wire.Splits) (c : ρ) (hne : x.2.hashKey ≠ h) :
    (s.bundled env x).counter h = s.counter h := by
  have ⟨p, e, hp⟩ := served_bundled env s x c
  have ⟨_, hcounter⟩ := decoalesce_numbered (s := s) (b := x.2) hw
  rw [← e]
  rcases hp.split with ⟨_, hq⟩ | ⟨_, hq⟩
  case inl => rw [Sink.counter, hq, Sink.counter]
  case inr =>
    rw [Sink.counter, hq]
    exact (hcounter h).trans (if_neg (Ne.symm hne))

-- If the loops come once to a consumer that takes members, its sink is called with all of them, and
-- the counter of the flow moves by as many.
theorem bundled_of_takes (hw : env.wire.Splits) (hc : (s.routed x.2.groupIdx).count c = 1)
    (ht : Takes env x.2 c) :
    ∃ ms, s.callsDuring env c x = ms.map EncodedMember.call ∧
      Numbered env (s.counter x.2.hashKey) x.2.members ms ∧
      (s.bundled env x).counter x.2.hashKey = s.counter x.2.hashKey + x.2.members.length := by
  have ⟨p, e, hp⟩ := served_bundled env s x c
  have ⟨hnumbered, hcounter⟩ := decoalesce_numbered (s := s) (b := x.2) hw
  have hm : c ∈ s.routed x.2.groupIdx := List.count_pos_iff.mp (by omega)
  refine ⟨_, ?_, hnumbered, ?_⟩
  case refine_1 =>
    have ⟨es, hlog, hes⟩ := hp.log
    rw [Sink.callsDuring, ← e, hlog, List.drop_left, hes ht, List.filter_eq, hc]
    exact List.flatMap_singleton _ _
  case refine_2 =>
    have hsome := hp.members (.inr ⟨hm, ht⟩)
    rcases hp.split with ⟨hnone, _⟩ | ⟨_, hq⟩
    case inl => rw [hnone] at hsome; cases hsome
    case inr =>
      rw [← e, Sink.counter, hq]
      exact (hcounter _).trans (if_pos rfl)

-- The calls on the sink of the consumer for the bundles of the flow.
def received (env : Env ρ ε) (c : ρ) (h : HashKey) : Sink ρ ε → List (Bytes × Bundle) → List Egress
  | _, []      => []
  | s, x :: xs =>
    (if x.2.hashKey = h then s.callsDuring env c x else []) ++ received env c h (s.bundled env x) xs

-- The members of the bundles of the flow.
def membersOf (h : HashKey) (xs : List (Bytes × Bundle)) : List Bytes :=
  ((xs.map Prod.snd).filter (·.hashKey = h)).flatMap Bundle.members

theorem received_of_takes (hw : env.wire.Splits)
    (ht : ∀ x ∈ xs, x.2.hashKey = h → (s.routed x.2.groupIdx).count c = 1 ∧ Takes env x.2 c) :
    ∃ ms, received env c h s xs = ms.map EncodedMember.call ∧
      Numbered env (s.counter h) (membersOf h xs) ms := by
  induction xs generalizing s
  case nil => exact ⟨[], rfl, .nil⟩
  case cons x xs hi =>
    have ⟨hx, hxs⟩ := List.forall_mem_cons.mp ht
    have ⟨p, e, hp⟩ := served_bundled env s x c
    have ⟨ms', hr, hn⟩ := hi (s := s.bundled env x) (by rw [← e, hp.routed]; exact hxs)
    by_cases hk : x.2.hashKey = h
    case neg =>
      rw [counter_bundled_of_ne hw c hk] at hn
      exact ⟨ms', by simp [received, hk, hr], by simpa [membersOf, hk] using hn⟩
    case pos =>
      have ⟨hc, htakes⟩ := hx hk
      have ⟨ms, hms, hnumbered, hcounter⟩ := bundled_of_takes hw hc htakes
      subst hk
      rw [hcounter] at hn
      refine ⟨ms ++ ms', ?_, ?_⟩
      case refine_1 => rw [received, if_pos rfl, hms, hr, List.map_append]
      case refine_2 => simpa [membersOf] using hnumbered.append hn

-- A consumer that admits the flow and does not get whole bundles gets all members of the flow in
-- order, with the SeqNums from 1 on.
theorem received_numbered (flow : HashKey → GroupIdx × Bytes32) (hw : env.wire.Splits)
    (ht : table.Nodup) (hs : ∀ c ∈ table, (env.consumer c).shards.Nodup)
    (hf : ∀ x ∈ xs, flow x.2.hashKey = (x.2.groupIdx, x.2.subtreeID)) (hc : c ∈ table)
    (hn : ¬Whole env c) (ha : Admits env c h (flow h).1 (flow h).2) :
    ∃ ms, received env c h (Sink.apply env {} table) xs = ms.map EncodedMember.call ∧
      Numbered env 0 (membersOf h xs) ms := by
  refine received_of_takes (s := Sink.apply env {} table) hw ?_
  intro x hx e
  subst e
  rw [hf x hx] at ha
  have htimes : times env x.2.groupIdx c = 1 :=
    (times_eq_one ha.1).mpr (List.nodup_iff_count_le_one.mp (hs c hc) _)
  exact ⟨by rw [count_routed, List.count_eq_one_of_mem ht hc, htimes], ha.takes hn⟩

def splitWire : Wire :=
  { Wire.blank with
    decoalesce b := b.members.map fun m => ⟨FrameVer.v2, .zero, b.hashKey, 0, b.subtreeID, m⟩
    encode f     := some f.payload }

theorem splitWire_splits : splitWire.Splits where
  members b := by simp [splitWire, Function.comp_def]
  encode    := fun _ _ _ _ => rfl

-- A plain consumer, one whose own traffic is that with HashKey 7, one that gets whole bundles, and
-- one for another group. A sink fails once it has been called.
def mixedConsumers : Fin 4 → Consumer
  | 0 => {}
  | 1 => { shards := [0], ownIngressIP := 5 }
  | 2 => { bundleCapable := true, bundleSink := true }
  | 3 => { shards := [1] }

def mixedEnv : Env (Fin 4) Nat where
  wire            := splitWire
  engine          := ⟨fun _ => 0, 0⟩
  beefEngine      := none
  hash ip _ _     := ip.toNat + 2
  consumer        := mixedConsumers
  reply log _ c _ := if log.any (·.consumer = c) then some 1 else none
  isNotElected _  := false

def bundleIn (h : HashKey) (members : List Bytes) : Bytes × Bundle :=
  ([], { shardBits := 0, groupIdx := 0, subtreeID := .zero, hashKey := h, seqNum := 1, members })

-- Two flows, of which the first is skipped by the second consumer.
theorem received_plain :
    ∃ ms, received mixedEnv 0 7 (Sink.apply mixedEnv {} [0, 1, 2, 3])
        [bundleIn 7 [[1], [2]], bundleIn 9 [[3]], bundleIn 7 [[4]]] = ms.map EncodedMember.call ∧
      Numbered mixedEnv 0 [[1], [2], [4]] ms :=
  received_numbered (fun _ => (0, .zero)) splitWire_splits (by decide) (by decide) (by decide)
    (by decide) (fun h => Bool.false_ne_true h.1) ⟨.inl rfl, by decide, .inl rfl⟩

end Fanout
