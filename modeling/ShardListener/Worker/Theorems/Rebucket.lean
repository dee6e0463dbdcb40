import ShardListener.Extensions.Numbering
import ShardListener.Worker.Theorems.Bundles

open Numbering

-- A child of a re-bucketed bundle, with the number it has in its flow.
def Bundle.stamped (c : Bundle × ℕ) : Bundle :=
  { c.1 with seqNum := c.2 }

-- What is assumed of the re-bucketer. The children `split b` of a bundle hold its members, those of
-- one group and subtree are in one flow, and each is stamped with the next number of its flow.
structure Wire.Rebuckets (wire : Wire) (split : Bundle → List Bundle) : Prop where
  members  : ∀ b, ((split b).flatMap Bundle.members).Perm b.members
  flow     : ∀ b, ∀ c ∈ split b, ∀ c' ∈ split b,
    c.groupIdx = c'.groupIdx → c.subtreeID = c'.subtreeID → c.hashKey = c'.hashKey
  rebucket : ∀ bs b, wire.rebucket bs b =
    (number Bundle.hashKey ((bs.flatMap split).map Bundle.hashKey) (split b)).map Bundle.stamped

namespace Worker

variable {wire : Wire} {cfg : Settings} {split : Bundle → List Bundle} {bs : List Bundle}
variable {raw : Bytes} {raws raws' : List Bytes} {b b' : Bundle} {j j' : Job}

-- What a bundle is delivered as, but for the stamps.
def units (cfg : Settings) (split : Bundle → List Bundle) (b : Bundle) : List Bundle :=
  if Foreign cfg b then split b else [b]

theorem foreigns_cons_none (hb : wire.decodeBundle raw = none) :
    foreigns wire cfg (raw :: raws) = foreigns wire cfg raws := by
  simp [foreigns, hb]

theorem foreigns_cons_pos (hb : wire.decodeBundle raw = some b) (hf : Foreign cfg b) :
    foreigns wire cfg (raw :: raws) = b :: foreigns wire cfg raws := by
  simp [foreigns, hb, hf]

theorem foreigns_cons_neg (hb : wire.decodeBundle raw = some b) (hf : ¬Foreign cfg b) :
    foreigns wire cfg (raw :: raws) = foreigns wire cfg raws := by
  simp [foreigns, hb, hf]

theorem mem_foreigns :
    b ∈ foreigns wire cfg raws ↔ (∃ raw ∈ raws, wire.decodeBundle raw = some b) ∧
      Foreign cfg b := by
  simp [foreigns]

theorem agenda_cons_none (hb : wire.decodeBundle raw = none) :
    agenda wire cfg bs (raw :: raws) = agenda wire cfg bs raws := by
  simp only [agenda, hb]

theorem agenda_cons_pos (hb : wire.decodeBundle raw = some b) (hf : Foreign cfg b) :
    agenda wire cfg bs (raw :: raws) =
      (wire.rebucket bs b).map (⟨·, none, false⟩) ++ agenda wire cfg (bs ++ [b]) raws := by
  simp only [agenda, hb, jobs, if_pos hf]

theorem agenda_cons_neg (hb : wire.decodeBundle raw = some b) (hf : ¬Foreign cfg b) :
    agenda wire cfg bs (raw :: raws) = ⟨b, some raw, true⟩ :: agenda wire cfg bs raws := by
  simp only [agenda, hb, jobs, if_neg hf, List.singleton_append]

-- The delivery of a bundle of the local generation.
def LocalJob (wire : Wire) (cfg : Settings) (raws : List Bytes) (j : Job) : Prop :=
  ∃ raw ∈ raws, ∃ b ∈ wire.decodeBundle raw, ¬Foreign cfg b ∧ j = ⟨b, some raw, true⟩

-- The delivery of one of the children `cs`, with the number it has in its flow.
def ChildJob (seen : List HashKey) (cs : List Bundle) (j : Job) : Prop :=
  ∃ c ∈ number Bundle.hashKey seen cs, j = ⟨.stamped c, none, false⟩

theorem childJob_append {seen : List HashKey} {cs cs' : List Bundle} :
    ChildJob seen (cs ++ cs') j ↔
      ChildJob seen cs j ∨ ChildJob (seen ++ cs.map Bundle.hashKey) cs' j := by
  simp only [ChildJob, number_append, List.mem_append, or_and_right, exists_or]

theorem mem_children_iff {seen : List HashKey} {cs : List Bundle} :
    j ∈ ((number Bundle.hashKey seen cs).map Bundle.stamped).map (⟨·, none, false⟩) ↔
      ChildJob seen cs j := by
  simp only [ChildJob, List.map_map, List.mem_map, Function.comp_apply, eq_comm (b := j)]

theorem mem_agenda_iff (hr : wire.Rebuckets split) :
    j ∈ agenda wire cfg bs raws ↔
      LocalJob wire cfg raws j ∨
        ChildJob ((bs.flatMap split).map Bundle.hashKey)
          ((foreigns wire cfg raws).flatMap split) j := by
  induction raws generalizing bs
  case nil => simp [agenda, foreigns, LocalJob, ChildJob, number]
  case cons raw raws hi =>
    cases hb : wire.decodeBundle raw
    case none =>
      rw [agenda_cons_none hb, foreigns_cons_none hb, hi]
      simp [LocalJob, hb]
    case some b =>
      by_cases hf : Foreign cfg b
      case pos =>
        have hl : LocalJob wire cfg (raw :: raws) j ↔ LocalJob wire cfg raws j := by
          simp [LocalJob, hb, hf]
        rw [agenda_cons_pos hb hf, foreigns_cons_pos hb hf, hl, hr.rebucket, List.mem_append,
          mem_children_iff, hi, List.flatMap_cons, childJob_append, List.flatMap_append,
          List.flatMap_singleton, List.map_append]
        exact or_left_comm
      case neg =>
        rw [agenda_cons_neg hb hf, foreigns_cons_neg hb hf, List.mem_cons, hi]
        simp [LocalJob, hb, hf, or_assoc]

theorem agenda_cons :
    agenda wire cfg bs (raw :: raws) =
      agenda wire cfg bs [raw] ++ agenda wire cfg (bs ++ foreigns wire cfg [raw]) raws := by
  cases hb : wire.decodeBundle raw
  case none => simp [agenda, foreigns, hb]
  case some b =>
    by_cases hf : Foreign cfg b
    case pos => simp [agenda, foreigns, hb, hf]
    case neg => simp [agenda, foreigns, hb, hf]

theorem agenda_append :
    agenda wire cfg bs (raws ++ raws') =
      agenda wire cfg bs raws ++ agenda wire cfg (bs ++ foreigns wire cfg raws) raws' := by
  induction raws generalizing bs
  case nil => simp [agenda, foreigns]
  case cons raw raws hi =>
    have hf : foreigns wire cfg (raw :: raws) = foreigns wire cfg [raw] ++
        foreigns wire cfg raws := by
      simp only [foreigns, ← List.filter_append, ← List.filterMap_append, List.singleton_append]
    have ha : agenda wire cfg bs (raw :: raws) =
        agenda wire cfg bs [raw] ++ agenda wire cfg (bs ++ foreigns wire cfg [raw]) raws :=
      agenda_cons
    rw [List.cons_append, agenda_cons, hi, ha, hf, List.append_assoc, List.append_assoc]

theorem encodable_of_mem_agenda (hw : wire.Coalesces) (hj : j ∈ agenda wire cfg bs raws) :
    j.Encodable wire := by
  induction raws generalizing bs
  case nil => cases hj
  case cons raw raws hi =>
    cases hb : wire.decodeBundle raw
    case none => exact hi (agenda_cons_none hb ▸ hj)
    case some b =>
      by_cases hf : Foreign cfg b
      case pos =>
        rw [agenda_cons_pos hb hf, List.mem_append] at hj
        cases hj
        case inl hj =>
          have ⟨c, hc, e⟩ := List.mem_map.mp hj
          exact e ▸ hw.encodeBundle bs b c hc
        case inr hj => exact hi hj
      case neg =>
        rw [agenda_cons_neg hb hf, List.mem_cons] at hj
        cases hj
        case inl e  => exact e ▸ rfl
        case inr hj => exact hi hj

-- Every unit of a received bundle is delivered.
theorem exists_job {c : Bundle} (bs : List Bundle) (hr : wire.Rebuckets split) (hraw : raw ∈ raws)
    (hb : wire.decodeBundle raw = some b) (hc : c ∈ units cfg split b) :
    ∃ j ∈ agenda wire cfg bs raws, ∃ n, j.bundle = .stamped (c, n) := by
  simp only [units] at hc
  split at hc
  case isTrue hf =>
    have hm : c ∈ (foreigns wire cfg raws).flatMap split :=
      List.mem_flatMap.mpr ⟨b, mem_foreigns.mpr ⟨⟨raw, hraw, hb⟩, hf⟩, hc⟩
    have ⟨n, hm⟩ := exists_number Bundle.hashKey ((bs.flatMap split).map Bundle.hashKey) hm
    exact ⟨_, (mem_agenda_iff hr).mpr (.inr ⟨_, hm, rfl⟩), n, rfl⟩
  case isFalse hf =>
    cases List.mem_singleton.mp hc
    exact ⟨_, (mem_agenda_iff hr).mpr (.inl ⟨raw, hraw, b, hb, hf, rfl⟩), b.seqNum, rfl⟩

-- What is assumed of the stamps in a stream: those of the origins identify the bundles, and the
-- flows of children, which are keyed by the HashKey of the parent, neither meet nor are those of an
-- origin.
structure Identified (wire : Wire) (cfg : Settings) (split : Bundle → List Bundle)
    (stream : List Bytes) : Prop where
  stamp  : ∀ b ∈ stream.filterMap wire.decodeBundle, ∀ b' ∈ stream.filterMap wire.decodeBundle,
    b.hashKey = b'.hashKey → b.seqNum = b'.seqNum → b = b'
  parent : ∀ b ∈ foreigns wire cfg stream, ∀ b' ∈ foreigns wire cfg stream,
    ∀ c ∈ split b, ∀ c' ∈ split b', c.hashKey = c'.hashKey → b.hashKey = b'.hashKey
  fresh  : ∀ b ∈ foreigns wire cfg stream, ∀ c ∈ split b,
    ∀ b' ∈ stream.filterMap wire.decodeBundle, ¬Foreign cfg b' → c.hashKey ≠ b'.hashKey

-- The bundles of another generation in a flow.
def foreignFlow (wire : Wire) (cfg : Settings) (raws : List Bytes) (hashKey : HashKey) :
    List Bundle :=
  (foreigns wire cfg raws).filter (·.hashKey = hashKey)

-- The flow comes in the same order on both sides, as far as it goes.
def Aligned (wire : Wire) (cfg : Settings) (raws raws' : List Bytes) (hashKey : HashKey) : Prop :=
  foreignFlow wire cfg raws hashKey <+: foreignFlow wire cfg raws' hashKey ∨
    foreignFlow wire cfg raws' hashKey <+: foreignFlow wire cfg raws hashKey

-- The children in a flow come from the parents in one flow.
theorem filter_children {fs : List Bundle} {h k : HashKey}
    (hp : ∀ b ∈ fs, ∀ c ∈ split b, c.hashKey = h → b.hashKey = k) :
    (fs.flatMap split).filter (·.hashKey = h) =
      ((fs.filter (·.hashKey = k)).flatMap split).filter (·.hashKey = h) := by
  induction fs
  case nil => rfl
  case cons b fs hi =>
    have ⟨hb, hp⟩ := List.forall_mem_cons.mp hp
    by_cases e : b.hashKey = k
    case pos => simp [e, hi hp]
    case neg =>
      have hn : (split b).filter (·.hashKey = h) = [] := by
        simpa [List.filter_eq_nil_iff] using fun c hc hk => e (hb c hc hk)
      simp [e, hi hp, hn]

theorem mem_foreigns_of_sublist {stream : List Bytes} (hs : raws.Sublist stream)
    (hb : b ∈ foreigns wire cfg raws) : b ∈ foreigns wire cfg stream := by
  have ⟨⟨raw, hraw, hb⟩, hf⟩ := mem_foreigns.mp hb
  exact mem_foreigns.mpr ⟨⟨raw, hs.subset hraw, hb⟩, hf⟩

section Stamps

variable {stream : List Bytes} (hi : Identified wire cfg split stream)
variable (hs : raws.Sublist stream) (hs' : raws'.Sublist stream)
include hi hs hs'

-- Children with one stamp are one, if the flow of the parent comes in the same order.
theorem child_eq_of_stamp {c c' : Bundle} {n : ℕ}
    (hc : (c, n) ∈ number Bundle.hashKey [] ((foreigns wire cfg raws).flatMap split))
    (hc' : (c', n) ∈ number Bundle.hashKey [] ((foreigns wire cfg raws').flatMap split))
    (hk : c.hashKey = c'.hashKey)
    (hp : ∀ k, Aligned wire cfg raws raws' k) : c = c' := by
  have ⟨p, hp₁, hp₂⟩ := List.mem_flatMap.mp (mem_of_mem_number hc)
  have hpar : ∀ {rs : List Bytes}, rs.Sublist stream → ∀ b ∈ foreigns wire cfg rs, ∀ d ∈ split b,
      d.hashKey = c.hashKey → b.hashKey = p.hashKey := fun h b hb d hd e =>
    hi.parent b (mem_foreigns_of_sublist h hb) p (mem_foreigns_of_sublist hs hp₁) d hd c hp₂ e
  cases hp p.hashKey
  case inl hp =>
    apply eq_of_number_eq hc hc' rfl hk.symm
    rw [filter_children (hpar hs), filter_children (hpar hs')]
    exact (hp.flatMap split).filter _
  case inr hp =>
    refine (eq_of_number_eq hc' hc hk.symm rfl ?_).symm
    rw [filter_children (hpar hs), filter_children (hpar hs')]
    exact (hp.flatMap split).filter _

theorem job_eq_of_stamp (hr : wire.Rebuckets split) (hj : j ∈ agenda wire cfg [] raws)
    (hj' : j' ∈ agenda wire cfg [] raws') (hk : j.bundle.hashKey = j'.bundle.hashKey)
    (hn : j.bundle.seqNum = j'.bundle.seqNum)
    (hp : ∀ k, Aligned wire cfg raws raws' k) : j.bundle = j'.bundle := by
  rcases (mem_agenda_iff hr).mp hj with ⟨raw, hraw, b, hb, hf, rfl⟩ | ⟨⟨c, n⟩, hc, rfl⟩
  case inl =>
    have hb := List.mem_filterMap.mpr ⟨raw, hs.subset hraw, hb⟩
    rcases (mem_agenda_iff hr).mp hj' with ⟨raw', hraw', b', hb', hf', rfl⟩ | ⟨⟨c', n'⟩, hc', rfl⟩
    case inl =>
      have hb' := List.mem_filterMap.mpr ⟨raw', hs'.subset hraw', hb'⟩
      exact hi.stamp b hb b' hb' hk hn
    case inr =>
      have ⟨p, hp₁, hp₂⟩ := List.mem_flatMap.mp (mem_of_mem_number hc')
      exact absurd hk.symm (hi.fresh p (mem_foreigns_of_sublist hs' hp₁) _ hp₂ b hb hf)
  case inr =>
    rcases (mem_agenda_iff hr).mp hj' with ⟨raw', hraw', b', hb', hf', rfl⟩ | ⟨⟨c', n'⟩, hc', rfl⟩
    case inl =>
      have hb' := List.mem_filterMap.mpr ⟨raw', hs'.subset hraw', hb'⟩
      have ⟨p, hp₁, hp₂⟩ := List.mem_flatMap.mp (mem_of_mem_number hc)
      exact absurd hk (hi.fresh p (mem_foreigns_of_sublist hs hp₁) _ hp₂ b' hb' hf')
    case inr =>
      cases hn
      cases child_eq_of_stamp hi hs hs' hc hc' hk hp
      rfl

end Stamps
end Worker

-- A wire on which a datagram is a bundle with one member: the generation, the flow, the SeqNum and
-- the member, a byte each. A re-bucketed bundle has one child, in the flow `100 + hashKey`.
def bundleChildren (b : Bundle) : List Bundle :=
  [{ b with shardBits := 0, hashKey := 100 + b.hashKey }]

def bundleWire : Wire :=
  { Wire.blank with
    isBundle     := fun _ => true
    decodeBundle := fun raw =>
      some ⟨(raw.headD 0).toNat, 0, .zero, (raw.getD 1 0).toNat,
        (raw.getD 2 0).toNat, [[raw.getD 3 0]]⟩
    encode       := fun f => some f.payload
    encodeBundle := fun b => some b.members.flatten
    decoalesce   := fun b => b.members.map (⟨FrameVer.v2, .zero, b.hashKey, 0, b.subtreeID, ·⟩)
    rebucket     := fun bs b =>
      (number Bundle.hashKey ((bs.flatMap bundleChildren).map Bundle.hashKey)
        (bundleChildren b)).map Bundle.stamped }

theorem bundleWire_coalesces : bundleWire.Coalesces where
  members b          := List.map_map.trans (List.map_id b.members)
  hashKey _ _ hf     := have ⟨_, _, e⟩ := List.mem_map.mp hf; e ▸ rfl
  encode _ _ _ _     := rfl
  encodeBundle _ _ _ := fun _ => rfl

theorem bundleWire_rebuckets : bundleWire.Rebuckets bundleChildren where
  members b           := by simp [bundleChildren]
  flow b c hc c' hc' := by simp only [bundleChildren, List.mem_singleton] at hc hc'; simp [hc, hc']
  rebucket _ _        := rfl
