import ShardListener.Extensions.Run
import ShardListener.Worker.Theorems.Whole

namespace Node

open Worker Reassembly

-- A fragment of an object, as it arrives.
structure Piece where
  env     : Env
  raw     : Bytes
  index   : Nat
  hashKey : HashKey
  seqNum  : SeqNum

variable (wire : Wire) (cfg : Settings)

-- The fragments of the object, in any order, and none later than the buffer waits after the first.
structure Cut (o : Object) (ps : List Piece) : Prop where
  fragments : ∀ p ∈ ps, wire.TakesFragment p.raw ∧
    wire.decodeFragment p.raw = some (o.fragment p.index p.hashKey p.seqNum)
  order     : (ps.map (·.index)).Perm (List.range o.total)
  inTime    : ∀ p ∈ ps.head?, ∀ q ∈ ps,
    q.env.instant.now ≤ p.env.instant.now + cfg.reassembly.ttl

-- The node has the fragments `got` of the object, and has called the sinks as often as `w` has.
def Gathering (o : Object) (got : Finset Nat) (deadline : Time) (w : Worker) (n : Node) : Prop :=
  ∃ b, n.buffer = some b ∧ b.Awaits wire.toFormats o got deadline ∧ Silent w n.worker

def stepPiece (n : Node) (p : Piece) : Node :=
  n.step wire cfg (p.env, p.raw)

variable {wire cfg} {o : Object} {got : Finset Nat} {deadline : Time} {w : Worker} {n : Node}
variable {p : Piece} {ps : List Piece} {b : Buffer}

theorem stepPiece_eq (hb : n.buffer = some b) (hf : wire.TakesFragment p.raw)
    (hd : wire.decodeFragment p.raw = some (o.fragment p.index p.hashKey p.seqNum)) :
    let h := hooks wire cfg p.env n.worker.tracker.isSome
    let q := Buffer.observe wire.toFormats cfg.reassembly h p.env.instant (b, n.worker)
      (o.fragment p.index p.hashKey p.seqNum)
    n.stepPiece wire cfg p =
      ⟨some q.1, q.2.trackFragment cfg p.env (o.fragment p.index p.hashKey p.seqNum)⟩ := by
  simp only [stepPiece, step, processFrame_of_fragment hf, processFragment, hb, hd]

-- A fragment that is not the last one.
theorem Gathering.next (hg : n.Gathering wire o got deadline w)
    (hfit : o.Fits wire.toFormats cfg.reassembly) (hf : wire.TakesFragment p.raw)
    (hd : wire.decodeFragment p.raw = some (o.fragment p.index p.hashKey p.seqNum))
    (hj : p.index < o.total) (hm : p.index ∉ got) (hn : insert p.index got ≠ Finset.range o.total)
    (ht : p.env.instant.now ≤ deadline)
    (hfirst : got = ∅ → deadline = p.env.instant.now + cfg.reassembly.ttl) :
    (n.stepPiece wire cfg p).Gathering wire o (insert p.index got) deadline w := by
  have ⟨b, hb, ha, hs⟩ := hg
  have hsp : (hooks wire cfg p.env n.worker.tracker.isSome).Spares (Silent w) := spares_silent
  have ⟨ha', hs'⟩ :=
    Buffer.Awaits.observe_next p.hashKey p.seqNum (p := (b, n.worker)) ha hfit hj hm hn
    ht hfirst hsp hs
  rw [stepPiece_eq hb hf hd]
  exact ⟨_, rfl, ha', hs'⟩

-- The last one.
theorem Gathering.last (hg : n.Gathering wire o got deadline w)
    (hfit : o.Fits wire.toFormats cfg.reassembly) (hf : wire.TakesFragment p.raw)
    (hd : wire.decodeFragment p.raw = some (o.fragment p.index p.hashKey p.seqNum))
    (hj : p.index < o.total) (hm : p.index ∉ got) (hn : insert p.index got = Finset.range o.total)
    (ht : p.env.instant.now ≤ deadline)
    (hfirst : got = ∅ → deadline = p.env.instant.now + cfg.reassembly.ttl) :
    ∃ w' env tracked i hashKey seqNum, Silent w w' ∧
      (n.stepPiece wire cfg p).worker.egress =
        (o.finish wire.toFormats cfg.reassembly (hooks wire cfg env tracked) i hashKey seqNum
          w').egress := by
  have ⟨b, hb, ha, hs⟩ := hg
  have hsp : (hooks wire cfg p.env n.worker.tracker.isSome).Spares (Silent w) := spares_silent
  have ⟨w', hashKey, seqNum, hs', e⟩ := Buffer.Awaits.observe_last p.hashKey p.seqNum
    (p := (b, n.worker)) ha hfit hj hm hn ht hfirst hsp hs
  refine ⟨w', p.env, n.worker.tracker.isSome, p.env.instant, hashKey, seqNum, hs', ?_⟩
  rw [stepPiece_eq hb hf hd, ← e]
  rfl

-- All of them, once the fragments `got` are there. What is left of the order decides whether a
-- fragment is the last one.
theorem Gathering.exec (hg : n.Gathering wire o got deadline w)
    (hfit : o.Fits wire.toFormats cfg.reassembly)
    (hf : ∀ p ∈ ps, wire.TakesFragment p.raw ∧
      wire.decodeFragment p.raw = some (o.fragment p.index p.hashKey p.seqNum))
    (ht : ∀ p ∈ ps, p.env.instant.now ≤ deadline)
    (hfirst : got = ∅ → ∀ p ∈ ps.head?, deadline = p.env.instant.now + cfg.reassembly.ttl)
    (hnd : (ps.map (·.index)).Nodup) (hnew : ∀ p ∈ ps, p.index ∉ got)
    (hall : got ∪ (ps.map (·.index)).toFinset = Finset.range o.total) (hne : ps ≠ []) :
    ∃ w' env tracked i hashKey seqNum, Silent w w' ∧
      (Run.exec (stepPiece wire cfg) n ps).worker.egress =
        (o.finish wire.toFormats cfg.reassembly (hooks wire cfg env tracked) i hashKey seqNum
          w').egress := by
  induction ps generalizing n got
  case nil => exact absurd rfl hne
  case cons p ps hi =>
    have ⟨htake, hdec⟩ := hf p List.mem_cons_self
    have hm : p.index ∉ got := hnew p List.mem_cons_self
    have hall' : insert p.index got ∪ (ps.map (·.index)).toFinset = Finset.range o.total := by
      rw [← hall, List.map_cons, List.toFinset_cons, Finset.insert_union, Finset.union_insert]
    have hj : p.index < o.total := by
      rw [← Finset.mem_range, ← hall']
      exact Finset.mem_union_left _ (Finset.mem_insert_self _ _)
    have hdl (e : got = ∅) : deadline = p.env.instant.now + cfg.reassembly.ttl := hfirst e p rfl
    have ⟨hp, hnd'⟩ := List.nodup_cons.mp hnd
    cases ps
    case nil =>
      have hn : insert p.index got = Finset.range o.total := by simpa using hall'
      exact hg.last hfit htake hdec hj hm hn (ht p List.mem_cons_self) hdl
    case cons q qs =>
      have hnew' : ∀ r ∈ q :: qs, r.index ∉ insert p.index got := by
        intro r hr hmem
        rcases Finset.mem_insert.mp hmem with e | hmem
        case inl => exact hp (List.mem_map.mpr ⟨r, hr, e⟩)
        case inr => exact hnew r (List.mem_cons_of_mem _ hr) hmem
      have hn : insert p.index got ≠ Finset.range o.total := by
        intro e
        refine hnew' q List.mem_cons_self ?_
        rw [e, ← hall']
        exact Finset.mem_union_right _ (by simp)
      have hg' := hg.next hfit htake hdec hj hm hn (ht p List.mem_cons_self) hdl
      refine hi hg' (fun r hr => hf r (List.mem_cons_of_mem _ hr))
        (fun r hr => ht r (List.mem_cons_of_mem _ hr)) ?_ hnd' hnew' hall' (List.cons_ne_nil _ _)
      exact fun e => absurd e (Finset.insert_ne_empty _ _)

-- The node has a buffer that knows nothing of the object.
def Unseen (wire : Wire) (o : Object) (n : Node) : Prop :=
  ∃ b, n.buffer = some b ∧ b.slots.lookup (o.key wire.toFormats) = none ∧
    o.key wire.toFormats ∉ b.done

theorem Unseen.gathering (hu : n.Unseen wire o) : n.Gathering wire o ∅ deadline n.worker := by
  have ⟨b, hb, hl, hd⟩ := hu
  refine ⟨b, hb, ⟨hd, fun _ => rfl, fun s hs => ?_⟩, rfl, rfl, rfl⟩
  rw [hl] at hs
  cases hs

-- The fragments of an object beyond the bound are dropped one by one.
theorem Unseen.exec (hu : n.Unseen wire o) (hs : Silent w n.worker)
    (hfit : ¬o.Fits wire.toFormats cfg.reassembly)
    (hf : ∀ p ∈ ps, wire.TakesFragment p.raw ∧
      wire.decodeFragment p.raw = some (o.fragment p.index p.hashKey p.seqNum))
    (hj : ∀ p ∈ ps, p.index < o.total) : Silent w (Run.exec (stepPiece wire cfg) n ps).worker := by
  induction ps generalizing n
  case nil => exact hs
  case cons p ps hi =>
    have ⟨b, hb, hl, hd⟩ := hu
    have ⟨htake, hdec⟩ := hf p List.mem_cons_self
    have hsp : (hooks wire cfg p.env n.worker.tracker.isSome).Spares (Silent w) := spares_silent
    have ⟨hl', hd', hs'⟩ := Buffer.observe_oversize p.hashKey p.seqNum (p := (b, n.worker))
      (i := p.env.instant) hfit (hj p List.mem_cons_self) hl hd hsp hs
    rw [Run.exec_cons, stepPiece_eq hb htake hdec]
    exact hi ⟨_, rfl, hl', hd'⟩ hs' (fun r hr => hf r (List.mem_cons_of_mem _ hr))
      (fun r hr => hj r (List.mem_cons_of_mem _ hr))

-- The fragment path: what it calls, by what becomes of the object in the buffer.
theorem egress_exec {F : Whole} (hw : wire.Encodes) (ht : cfg.txDedup = false)
    (hs : n.worker.dedupSet = none) (hu : n.Unseen wire o) (hcut : Cut wire cfg o ps)
    (hc : F.CutAs o) (hv : F.Versioned) :
    ∃ hashKey seqNum raw, (Run.exec (stepPiece wire cfg) n ps).worker.egress =
      n.worker.egress ++
        if o.Admissible wire.toFormats cfg.reassembly ∧
          ¬(F.reassembled hashKey seqNum).Denied wire cfg
        then (F.reassembled hashKey seqNum).calls wire cfg n.worker.headerSeqNum raw else [] := by
  have hidx (p : Piece) (hp : p ∈ ps) : p.index < o.total :=
    List.mem_range.mp (hcut.order.mem_iff.mp (List.mem_map_of_mem hp))
  by_cases hfit : o.Fits wire.toFormats cfg.reassembly
  case neg =>
    have hsil := hu.exec ⟨rfl, rfl, rfl⟩ hfit hcut.fragments hidx
    refine ⟨0, 0, [], ?_⟩
    rw [if_neg fun h => hfit h.1.fits, List.append_nil]
    exact hsil.1
  case pos =>
    have hne : ps ≠ [] := by
      intro e
      have hl := hcut.order.length_eq
      have hpos := o.total_pos
      simp [e] at hl
      omega
    have ⟨p₀, hp₀⟩ : ∃ p₀, p₀ ∈ ps.head? :=
      Option.isSome_iff_exists.mp (List.isSome_head?.mpr hne)
    have hall : ∅ ∪ (ps.map (·.index)).toFinset = Finset.range o.total := by
      rw [Finset.empty_union, List.toFinset_eq_of_perm _ _ hcut.order, List.toFinset_range]
    have hdl : (∅ : Finset Nat) = ∅ → ∀ p ∈ ps.head?,
        p₀.env.instant.now + cfg.reassembly.ttl = p.env.instant.now + cfg.reassembly.ttl := by
      intro _ p hp
      rw [Option.mem_unique hp hp₀]
    have ⟨w', env, tracked, i, hashKey, seqNum, hsil, e⟩ :=
      hu.gathering.exec hfit hcut.fragments (hcut.inTime p₀ hp₀) hdl
        (hcut.order.nodup_iff.mpr List.nodup_range) (fun _ _ => Finset.notMem_empty _) hall hne
    have ⟨he, hh, hd⟩ := hsil
    have ⟨raw, e'⟩ := egress_finish env tracked i hashKey seqNum hw ht (hd.trans hs) hc hv
    have hadm : (cfg.reassembly.verifyHash → verified wire.toFormats o.frameVer o.txID o.payload) ↔
        o.Admissible wire.toFormats cfg.reassembly := ⟨fun h => ⟨hfit, h⟩, fun h => h.verified⟩
    refine ⟨hashKey, seqNum, raw, ?_⟩
    rw [e, e', he, hh]
    exact congrArg _ (if_congr (and_congr_left' hadm) rfl rfl)

-- The calls on the egress between two states.
def callsBetween (n n' : Node) : List Egress :=
  n'.worker.egress.drop n.worker.egress.length

-- The whole frame and its fragments make the same calls, with the same frames but for their stamps.
def Transparent (wire : Wire) (cfg : Settings) (env : Env) (n : Node) (raw : Bytes)
    (ps : List Piece) : Prop :=
  (n.callsBetween (n.processFrame wire cfg env raw).2).map Egress.unstamped =
    (n.callsBetween (Run.exec (stepPiece wire cfg) n ps)).map Egress.unstamped

-- What the comparison is made under: no dedup stage, the same verification on both paths, and a
-- buffer that knows nothing of the object.
structure Comparable (wire : Wire) (cfg : Settings) (o : Object) (n : Node) : Prop where
  noStore : cfg.txDedup = false
  noSet   : n.worker.dedupSet = none
  verify  : cfg.reassembly.verifyHash = cfg.verifyPayloadHash
  unseen  : n.Unseen wire o

theorem transparent_iff_admissible {env : Env} {raw : Bytes} {F : Whole} (hw : wire.Encodes)
    (hn : n.Comparable wire cfg o) (hraw : wire.whole raw = some F) (hv : F.Versioned)
    (hc : F.CutAs o) (hcut : Cut wire cfg o ps) :
    n.Transparent wire cfg env raw ps ↔
      F.version ≠ FrameVer.v6 ∧
        (F.Dropped wire cfg ∨ o.Admissible wire.toFormats cfg.reassembly) := by
  have ⟨hashKey, seqNum, raw', e⟩ := egress_exec hw hn.noStore hn.noSet hn.unseen hcut hc hv
  simp only [Transparent, callsBetween, egress_processFrame hn.noStore hn.noSet hraw hv, e,
    List.drop_left]
  by_cases hanchor : ∃ f, F = .anchor f
  case pos =>
    have ⟨f, hf⟩ := hanchor
    subst hf
    have hv : f.version = FrameVer.v6 := hv
    refine iff_of_false (fun h => ?_) fun h => h.1 hv
    rw [if_neg (fun hd : Whole.Dropped wire cfg (.anchor f) => hd)] at h
    split at h
    case isTrue  => exact Whole.unstamped_anchor_ne hv h
    case isFalse => cases h
  case neg =>
    have hno (f : Frame) (hf : F = .anchor f) : False := hanchor ⟨f, hf⟩
    rw [and_iff_right (Whole.version_ne_v6 hv hno)]
    by_cases hd : F.Dropped wire cfg
    case pos =>
      refine iff_of_true ?_ (.inl hd)
      rw [if_pos hd, if_neg]
      intro ⟨ha, hnd⟩
      exact hnd ((Whole.denied_reassembled hw hno).mpr (Whole.denied_of_dropped hn.verify hc ha hd))
    case neg =>
      have hnd : ¬(F.reassembled hashKey seqNum).Denied wire cfg := fun h =>
        hd (Whole.dropped_of_denied ((Whole.denied_reassembled hw hno).mp h))
      rw [if_neg hd, or_iff_right hd]
      by_cases ha : o.Admissible wire.toFormats cfg.reassembly
      case pos =>
        refine iff_of_true ?_ ha
        rw [if_pos ⟨ha, hnd⟩]
        exact (Whole.calls_reassembled hno).symm
      case neg =>
        refine iff_of_false (fun h => ?_) ha
        rw [if_neg fun h => ha h.1] at h
        exact Whole.calls_ne_nil (List.map_eq_nil_iff.mp h)

instance {wire : Wire} {cfg : Settings} {env : Env} {raw : Bytes} :
    Decidable (n.Transparent wire cfg env raw ps) :=
  inferInstanceAs (Decidable (_ = _))

theorem twoBytes_total_le : 2 ≤ 65535 := by
  decide

-- Two bytes, cut in two.
def twoBytes (frameVer : UInt8) : Object where
  txID      := .fill 1
  subtreeID := .zero
  frameVer  := frameVer
  msgType   := 0
  payload   := [1, 2]
  total     := 2
  size      := 1
  total_pos := Nat.two_pos
  total_le  := twoBytes_total_le
  size_pos  := Nat.one_pos
  size_le   := by decide
  rest_pos  := by decide
  rest_le   := by decide

def twoBytesFrame (version : UInt8) : Frame :=
  ⟨version, .fill 1, 7, 9, .zero, [1, 2]⟩

-- A wire on which the empty datagram is the two bytes as a whole frame, and one with a byte in it
-- is the fragment of that number.
def splitWire (frameVer : UInt8) : Wire :=
  { Wire.blank with
    isAnchorFrame     := fun raw => raw = [] ∧ frameVer = FrameVer.v6
    isFragment        := fun raw => raw ≠ []
    decode            := fun _ => some (twoBytesFrame FrameVer.v2)
    decodeAnchor      := fun _ => some (twoBytesFrame FrameVer.v6)
    decodeFragment    := fun raw =>
      raw.head?.map fun j => (twoBytes frameVer).fragment j.toNat 7 (j.toNat + 1)
    encode            := fun _ => some []
    encodeBlock       := fun _ => some []
    encodeSubtreeData := fun _ => some []
    encodeBEEF        := fun _ _ => some [] }

def splitPiece (j : Nat) : Piece where
  env     := Env.blank
  raw     := [UInt8.ofNat j]
  index   := j
  hashKey := 7
  seqNum  := j + 1

theorem splitWire_encodes {frameVer : UInt8} : (splitWire frameVer).Encodes where
  tx _          := rfl
  block _       := rfl
  subtreeData _ := rfl
  beef _        := rfl
  topics _ _ _  := rfl

theorem wired_comparable {wire : Wire} {o : Object} :
    (wired none).Comparable wire Settings.blank o where
  noStore := rfl
  noSet   := rfl
  verify  := rfl
  unseen  := ⟨{}, rfl, rfl, AList.notMem_empty _⟩

theorem cut_reversed {cfg : Settings} {frameVer : UInt8} (ht : 0 ≤ cfg.reassembly.ttl) :
    Cut (splitWire frameVer) cfg (twoBytes frameVer) [splitPiece 1, splitPiece 0] where
  fragments := by
    intro p hp
    simp only [List.mem_cons, List.not_mem_nil, or_false] at hp
    rcases hp with e | e
    case inl =>
      subst e; exact ⟨by simp [Wire.TakesFragment, splitWire, splitPiece, Wire.blank], rfl⟩
    case inr =>
      subst e; exact ⟨by simp [Wire.TakesFragment, splitWire, splitPiece, Wire.blank], rfl⟩
  order     := (by decide : [1, 0].Perm (List.range 2))
  inTime    := by
    intro p hp q hq
    simp only [List.head?_cons, Option.mem_some_iff] at hp
    simp only [List.mem_cons, List.not_mem_nil, or_false] at hq
    rcases hq with e | e <;> subst e hp <;> simpa [splitPiece, Env.blank] using ht

-- A transaction in two fragments, the last one first.
theorem transparent_tx :
    (wired none).Transparent (splitWire FrameVer.v2) Settings.blank Env.blank []
      [splitPiece 1, splitPiece 0] :=
  (transparent_iff_admissible (F := .tx (twoBytesFrame FrameVer.v2))
    splitWire_encodes wired_comparable
    rfl rfl ⟨rfl, rfl, rfl, rfl⟩ (cut_reversed (by decide))).mpr ⟨by decide, .inr (by decide)⟩

-- The listener takes the shard 1 only. The whole anchor transaction bypasses the filter; the same
-- bytes from fragments come out as an ordinary transaction of the shard 0, which the filter drops.
theorem anchor_not_transparent :
    (splitWire FrameVer.v6).whole [] = some (.anchor (twoBytesFrame FrameVer.v6)) ∧
      ¬(wired none).Transparent (splitWire FrameVer.v6)
        { Settings.blank with filt := { shardInclude := some [1] } } Env.blank []
        [splitPiece 1, splitPiece 0] :=
  ⟨rfl, by decide +kernel⟩

end Node
