import ShardListener.Worker.Theorems.Emission

-- The block header frames that a worker emits as a BRC-135 emitter.

namespace Worker

-- The header frames on one lane.
def headersOn (lane : HeaderLane) (ks : List Egress) : List Bytes :=
  ks.filterMap fun
    | .header l raw => if l = lane then some raw else none
    | _             => none

variable (wire : Wire) (cfg : Settings)

-- The blocks that were handed to the consumers and whose header is announced.
def announced (ks : List Egress) : List BlockFrame :=
  ks.filterMap fun
    | .sendBlock _ f => if Headed wire cfg f then some f else none
    | _              => none

-- The header frames of the blocks, numbered from 1. One that cannot be encoded uses up its number.
def numberedHeaders (fs : List BlockFrame) : List Bytes :=
  (fs.zipIdx 1).filterMap fun x =>
    wire.encodeBlockHeader x.1.contentID cfg.headerHashKey x.2 (x.1.payload.take blockHeaderSize)

-- The count is that of the announced blocks, each lane has the header of each, and none has got
-- past the gate.
structure Numbered (v : List Egress × SeqNum) : Prop where
  count   : v.2 = (announced wire cfg v.1).length
  headers : ∀ lane ∈ cfg.headerLanes, headersOn lane v.1 =
    numberedHeaders wire cfg (announced wire cfg v.1)
  gated   : ∀ f ∈ announced wire cfg v.1, cfg.requireBlockPoW →
    wire.checkHeader (f.payload.take blockHeaderSize)

variable {wire cfg} {v : List Egress × SeqNum} {ks ks' : List Egress} {fs : List BlockFrame}
variable {lane : HeaderLane}
variable {f : BlockFrame} {raw : Bytes} {B : Bundle → Prop}

theorem announced_append :
    announced wire cfg (ks ++ ks') = announced wire cfg ks ++ announced wire cfg ks' :=
  List.filterMap_append

theorem headersOn_append : headersOn lane (ks ++ ks') = headersOn lane ks ++ headersOn lane ks' :=
  List.filterMap_append

theorem numberedHeaders_concat :
    numberedHeaders wire cfg (fs ++ [f]) =
      numberedHeaders wire cfg fs ++
        (wire.encodeBlockHeader f.contentID cfg.headerHashKey (fs.length + 1)
          (f.payload.take blockHeaderSize)).toList := by
  simp only [numberedHeaders, List.zipIdx_append, List.filterMap_append, List.zipIdx_singleton,
    Nat.add_comm 1 fs.length, List.filterMap_cons, List.filterMap_nil]
  cases wire.encodeBlockHeader f.contentID cfg.headerHashKey (fs.length + 1)
    (f.payload.take blockHeaderSize)
  case none => rfl
  case some => rfl

theorem announced_headers {lanes : List HeaderLane} :
    announced wire cfg (lanes.map (.header · raw)) = [] := by
  simp [announced]

theorem headersOn_headers {lanes : List HeaderLane} (hn : lanes.Nodup) (hl : lane ∈ lanes) :
    headersOn lane (lanes.map (.header · raw)) = [raw] := by
  induction lanes
  case nil => cases hl
  case cons l lanes hi =>
    obtain ⟨hnot, hn⟩ := List.nodup_cons.mp hn
    by_cases h : l = lane
    case pos =>
      subst h
      have hnone : headersOn l (lanes.map (.header · raw)) = [] := by
        simp only [headersOn, List.filterMap_map, List.filterMap_eq_nil_iff]
        intro l' h'
        have hne : l' ≠ l := fun e => hnot (e ▸ h')
        exact if_neg hne
      simp only [headersOn, List.map_cons, List.filterMap_cons, if_true]
      exact congrArg (raw :: ·) hnone
    case neg =>
      simp only [headersOn, List.map_cons, List.filterMap_cons, if_neg h]
      exact hi hn ((List.mem_cons.mp hl).resolve_left (Ne.symm h))

-- A block without a header of its own leaves the lanes alone.
theorem headerCalls_of_not_headed {seq : SeqNum} (hh : ¬Headed wire cfg f) :
    Whole.headerCalls wire cfg seq f = [] := by
  unfold Whole.headerCalls
  split
  case isTrue => rfl
  case isFalse hm =>
    split
    case isTrue => rfl
    case isFalse hp =>
      have hl : cfg.headerLanes = [] :=
        not_not.mp fun hl => hh ⟨hl, not_not.mp hm, Nat.not_lt.mp hp⟩
      split
      case h_1 => rfl
      case h_2 => rw [hl, List.map_nil]

theorem headerCalls_of_headed {seq : SeqNum} (hh : Headed wire cfg f) :
    Whole.headerCalls wire cfg seq f =
      (wire.encodeBlockHeader f.contentID cfg.headerHashKey (seq + 1)
        (f.payload.take blockHeaderSize)).elim [] fun buf =>
          cfg.headerLanes.map (.header · buf) := by
  unfold Whole.headerCalls
  rw [if_neg (not_not.mpr hh.2.1), if_neg (Nat.not_lt.mpr hh.2.2)]
  split
  case h_1 he => rw [he]; rfl
  case h_2 he => rw [he]; rfl

theorem announced_headerCalls {seq : SeqNum} :
    announced wire cfg (Whole.headerCalls wire cfg seq f) = [] := by
  by_cases hh : Headed wire cfg f
  case neg => rw [headerCalls_of_not_headed hh]; rfl
  case pos =>
    rw [headerCalls_of_headed hh]
    cases wire.encodeBlockHeader f.contentID cfg.headerHashKey (seq + 1)
      (f.payload.take blockHeaderSize)
    case none => rfl
    case some => exact announced_headers

theorem checkHeader_of_gate (hg : blockGate wire cfg f = none) (hh : Headed wire cfg f)
    (hon : cfg.requireBlockPoW) : wire.checkHeader (f.payload.take blockHeaderSize) := by
  unfold blockGate at hg
  rw [if_neg (by simp [hon]), if_pos hh.2.1] at hg
  by_contra hno
  rw [if_pos (.inr hno)] at hg
  cases hg

theorem Numbered.say {e : Emission} (hn : Numbered wire cfg v) (hl : cfg.headerLanes.Nodup)
    (hj : Justified wire cfg B e) : Numbered wire cfg (say wire cfg v e) := by
  -- All calls but those for blocks are neither announcements nor headers.
  have hother {k : Egress} (ha : announced wire cfg [k] = [])
      (hk : ∀ lane, headersOn lane [k] = []) :
      Numbered wire cfg (v.1 ++ [k], v.2) := by
    refine ⟨?_, fun lane h => ?_, ?_⟩
    case refine_1 => rw [announced_append, ha, List.append_nil, hn.count]
    case refine_2 =>
      rw [headersOn_append, hk, announced_append, ha, List.append_nil,
        List.append_nil, hn.headers lane h]
    case refine_3 => rw [announced_append, ha, List.append_nil]; exact hn.gated
  cases hj
  case block raw f hp hkept =>
    have hsend : announced wire cfg [.sendBlock raw f] = if Headed wire cfg f then [f] else [] := by
      simp only [announced, List.filterMap_cons, List.filterMap_nil]
      split <;> split <;> simp_all
    by_cases hh : Headed wire cfg f
    case neg =>
      rw [if_neg hh] at hsend
      have hs := hother hsend fun _ => rfl
      simpa only [Worker.say, Emission.calls, Emission.next, Whole.calls,
        headerCalls_of_not_headed hh, if_neg hh] using hs
    case pos =>
      rw [if_pos hh] at hsend
      have ha : announced wire cfg (Worker.say wire cfg v (.block raw f)).1 =
          announced wire cfg v.1 ++ [f] := by
        rw [Worker.say, Emission.calls, Whole.calls, ← List.singleton_append, announced_append,
          announced_append, hsend, announced_headerCalls, List.append_nil]
      refine ⟨?_, fun lane h => ?_, fun g hg hon => ?_⟩
      case refine_1 => rw [ha, List.length_append, ← hn.count]; exact if_pos hh
      case refine_2 =>
        rw [ha, numberedHeaders_concat, ← hn.headers lane h, ← hn.count, Worker.say, Emission.calls,
          Whole.calls, headersOn_append, headerCalls_of_headed hh]
        refine congrArg (headersOn lane v.1 ++ ·) ?_
        cases wire.encodeBlockHeader f.contentID cfg.headerHashKey (v.2 + 1)
          (f.payload.take blockHeaderSize)
        case none => rfl
        case some => exact headersOn_headers hl h
      case refine_3 =>
        rw [ha] at hg
        rcases List.mem_append.mp hg with hg | hg
        case inl => exact hn.gated g hg hon
        case inr =>
          obtain rfl := List.mem_singleton.mp hg
          exact checkHeader_of_gate (not_not.mp hkept) hh hon
  all_goals exact hother rfl fun _ => rfl

theorem Numbered.foldl_say {es : List Emission} (hn : Numbered wire cfg v)
    (hl : cfg.headerLanes.Nodup) (hj : ∀ e ∈ es, Justified wire cfg B e) :
    Numbered wire cfg (es.foldl (Worker.say wire cfg) v) := by
  induction es generalizing v
  case nil => exact hn
  case cons e es hi =>
    exact hi (hn.say hl (hj e List.mem_cons_self)) fun e' h => hj e' (List.mem_cons_of_mem _ h)

end Worker

namespace Node

open Worker

variable {wire : Wire} {cfg : Settings}

-- In every run, each lane has the headers of the announced blocks that were handed on, whole or
-- reassembled, under the numbers 1, 2, 3 and so on.
theorem headers_numbered {evs : List Event} {n : Node} (hn : n.worker.egress = [])
    (hz : n.worker.headerSeqNum = 0) (hl : cfg.headerLanes.Nodup)
    (hv : cfg.reassembly.verifyHash = cfg.verifyPayloadHash) :
    Numbered wire cfg (Run.exec (react wire cfg) n evs).worker.voice := by
  have hstart : Numbered wire cfg n.worker.voice := by
    rw [voice, hn, hz]
    exact ⟨rfl, fun _ _ => rfl, fun _ h => absurd h List.not_mem_nil⟩
  -- The bundles do not matter.
  have hb : Run.Along (react wire cfg) (fun n ev => ∀ b ∈ n.bundles wire cfg ev, True) n evs :=
    .mono (fun _ _ _ _ _ => trivial) (Run.Along.of_forall (D := fun _ => True) fun _ _ => trivial)
  obtain ⟨es, e, hj⟩ := emits_exec evs hv hb
  rw [e]
  exact hstart.foldl_say hl hj

-- Every datagram announces a block with an empty header, and a header frame has its number as its
-- only byte.
def headWire : Wire :=
  { Wire.blank with
    isBlockFrame      := fun _ => true
    decodeBlock       := fun _ => some ⟨1, .zero, 7, 0, List.replicate 80 0⟩
    encodeBlockHeader := fun _ _ seq _ => some [UInt8.ofNat seq] }

def headLanes : Settings :=
  { Settings.blank with headerLanes := [.unicast, .fanout], requireBlockPoW := true }

theorem two_headers_numbered :
    let w := (Run.exec (react headWire headLanes) (wired none)
      [.datagram Env.blank [], .datagram Env.blank []]).worker
    Numbered headWire headLanes w.voice ∧ headersOn .fanout w.egress = [[1], [2]] :=
  ⟨headers_numbered rfl rfl (by decide) rfl, by decide⟩

end Node
