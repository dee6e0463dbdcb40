import ShardListener.Nack.Theorems.Repair

namespace Nack

-- A call of `ObserveFrom` and the time at which it is made.
structure Call where
  instant : Instant
  arrival : Arrival

namespace FlowState

-- `ObserveFrom` on a tracked flow: frames without a SeqNum are ignored.
def hear (cfg : Config) (recorded : Bool) (fs : FlowState) (c : Call) : FlowState :=
  if c.arrival.seqNum = 0 then fs else (fs.observe cfg c.instant recorded c.arrival).flow

end FlowState

-- A repair: a frame without a live source, at or below the position of the flow.
def Call.Repairs (fs : FlowState) (c : Call) : Prop :=
  c.arrival.source = none ∧ c.arrival.seqNum ≤ fs.lastSeqNum

instance {fs : FlowState} : DecidablePred (Call.Repairs fs) :=
  fun _ => inferInstanceAs (Decidable (_ ∧ _))

-- The SeqNums that a list of repairs delivers.
def Repaired (rs : List Call) (seq : SeqNum) : Prop :=
  seq ≠ 0 ∧ ∃ c ∈ rs, c.arrival.seqNum = seq

instance {rs : List Call} {seq : SeqNum} : Decidable (Repaired rs seq) :=
  inferInstanceAs (Decidable (_ ∧ ∃ c ∈ rs, _))

namespace FlowState

variable {cfg : Config} {recorded : Bool} {fs gs : FlowState} {c : Call} {rs : List Call}
variable {i : Instant} {a : Arrival}

-- The time of the last repair, or of the last frame before the repairs.
def lastHeard (fs : FlowState) (rs : List Call) : Time :=
  rs.foldl (fun t c => if c.arrival.seqNum = 0 then t else c.instant.now) fs.lastSeen

-- Repairs fill gaps and move `lastSeen`; they leave what else the ladder reads alone.
structure AfterRepairs (fs : FlowState) (rs : List Call) (gs : FlowState) : Prop where
  lastSeqNum : gs.lastSeqNum = fs.lastSeqNum
  ewmaIPG    : gs.ewmaIPG = fs.ewmaIPG
  contiguous : gs.contiguous = fs.contiguous
  lastSeen   : gs.lastSeen = fs.lastHeard rs
  pending    : ∀ seq, gs.pending.lookup seq =
    if Repaired rs seq then none else fs.pending.lookup seq

theorem verdictOf_repair (cfg : Config) (hr : c.Repairs fs) (hz : c.arrival.seqNum ≠ 0) :
    fs.verdictOf cfg c.instant c.arrival = none ∨
      fs.verdictOf cfg c.instant c.arrival = some .stale := by
  have hg := verdictOf_guard cfg c.instant fs c.arrival
  have hle := hr.2
  generalize fs.verdictOf cfg c.instant c.arrival = v at hg
  cases v
  case none => exact .inl rfl
  case some v =>
    cases v
    case stale         => exact .inr rfl
    case first         => exact absurd (Nat.eq_zero_of_le_zero (hle.trans_eq hg)) hz
    case restart       => exact absurd hg.2.2.1 (by simp [hr.1])
    case contiguous    => exact absurd (hg.2.symm.trans_le hle) (Nat.not_succ_le_self _)
    case emitterChange => exact absurd hle (Nat.lt_of_succ_lt hg.2.1).not_ge
    case gap           => exact absurd hle (Nat.lt_of_succ_lt hg.2.1).not_ge

theorem hear_repair (cfg : Config) (recorded : Bool) (hr : c.Repairs fs) :
    AfterRepairs fs [c] (fs.hear cfg recorded c) := by
  by_cases hz : c.arrival.seqNum = 0
  case pos =>
    have hn : ∀ seq, ¬Repaired [c] seq := by
      rintro seq ⟨hs, c', hc, rfl⟩
      cases List.mem_singleton.mp hc
      exact hs hz
    simp only [hear, if_pos hz]
    exact ⟨rfl, rfl, rfl, by simp [lastHeard, hz], fun seq => (if_neg (hn seq)).symm⟩
  case neg =>
    have ho := observe_observed cfg c.instant recorded fs c.arrival
    have hv := verdictOf_repair cfg hr hz
    simp only [hear, if_neg hz]
    constructor
    case lastSeqNum => rw [ho.lastSeqNum]; cases hv <;> (rename_i h; rw [h]; rfl)
    case ewmaIPG    => rw [ho.ewmaIPG]; cases hv <;> (rename_i h; rw [h]; rfl)
    case contiguous => exact ho.contiguous hv
    case lastSeen   => rw [ho.lastSeen]; simp [lastHeard, hz]
    case pending =>
      intro seq
      have hm : Repaired [c] seq ↔ seq = c.arrival.seqNum := by
        simp only [Repaired, List.mem_singleton, exists_eq_left]
        exact ⟨fun h => h.2.symm, fun h => ⟨h ▸ hz, h.symm⟩⟩
      have he : fs.pendingAfter cfg c.instant c.arrival seq (fs.verdictOf cfg c.instant c.arrival) =
          (fs.pending.erase c.arrival.seqNum).lookup seq := by
        cases hv <;> (rename_i h; rw [h]; rfl)
      rw [ho.pending, he, AList.lookup_erase_eq_ite]
      simp only [hm]

theorem AfterRepairs.cons {hs : FlowState} (h₁ : AfterRepairs fs [c] gs)
    (h₂ : AfterRepairs gs rs hs) : AfterRepairs fs (c :: rs) hs where
  lastSeqNum := h₂.lastSeqNum.trans h₁.lastSeqNum
  ewmaIPG    := h₂.ewmaIPG.trans h₁.ewmaIPG
  contiguous := h₂.contiguous.trans h₁.contiguous
  lastSeen   := by rw [h₂.lastSeen, lastHeard, h₁.lastSeen]; rfl
  pending    := by
    intro seq
    have hm : Repaired (c :: rs) seq ↔ Repaired rs seq ∨ Repaired [c] seq := by
      simp only [Repaired, List.mem_cons, List.not_mem_nil]
      grind
    rw [h₂.pending, h₁.pending]
    simp only [hm]
    grind

theorem exec_repairs (cfg : Config) (recorded : Bool) (hr : ∀ c ∈ rs, c.Repairs fs) :
    AfterRepairs fs rs (Run.exec (hear cfg recorded) fs rs) := by
  induction rs generalizing fs
  case nil => exact ⟨rfl, rfl, rfl, rfl, fun seq => by simp [Repaired]⟩
  case cons c rs hi =>
    have h₁ := hear_repair cfg recorded (hr c List.mem_cons_self)
    refine h₁.cons (hi fun c' hc => ?_)
    have h' := hr c' (List.mem_cons_of_mem _ hc)
    exact ⟨h'.1, h'.2.trans_eq h₁.lastSeqNum.symm⟩

-- The frame is treated alike with and without the repairs.
structure SameCourse (cfg : Config) (recorded : Bool) (fs : FlowState) (rs : List Call)
    (i : Instant) (a : Arrival) (gs : FlowState) : Prop where
  contiguous    : fs.verdictOf cfg i a = some .contiguous ↔ gs.verdictOf cfg i a = some .contiguous
  gap           : fs.verdictOf cfg i a = some .gap ↔ gs.verdictOf cfg i a = some .gap
  emitterChange : fs.verdictOf cfg i a = some .emitterChange ↔
    gs.verdictOf cfg i a = some .emitterChange
  lastSeqNum    : (fs.observe cfg i recorded a).flow.lastSeqNum =
    (gs.observe cfg i recorded a).flow.lastSeqNum
  ewmaIPG       : (fs.observe cfg i recorded a).flow.ewmaIPG =
    (gs.observe cfg i recorded a).flow.ewmaIPG
  pending       : ∀ seq, ¬Repaired rs seq →
    ((fs.observe cfg i recorded a).flow.pending.lookup seq).isSome =
      ((gs.observe cfg i recorded a).flow.pending.lookup seq).isSome

-- The silence that the ladder measures, without and with the repairs.
def silence (fs : FlowState) (i : Instant) : Duration :=
  Time.sub i.now fs.lastSeen

def shortened (fs : FlowState) (rs : List Call) (i : Instant) : Duration :=
  Time.sub i.now (fs.lastHeard rs)

-- How far a rate sample is from the estimate, in the eighths by which the estimate moves.
def eighths (ewmaIPG sample : Duration) : Duration :=
  if sample > 0 then (sample - ewmaIPG).tdiv 8 else 0

-- The jump to the frame is too wide for an ordinary gap: beyond the cap, or beyond what a silence
-- of `d` makes of the flow's rate.
def Overshoots (cfg : Config) (fs : FlowState) (d : Duration) (seq : SeqNum) : Prop :=
  cfg.maxJump < fs.missing seq ∨
    0 < fs.ewmaIPG ∧ 64 < fs.missing seq ∧ 4 * (fs.expected d + 1) % 2 ^ 64 < fs.missing seq

instance {d : Duration} {seq : SeqNum} : Decidable (fs.Overshoots cfg d seq) :=
  inferInstanceAs (Decidable (_ ∨ _))

-- The repairs shorten the silence from `silence` to `shortened`. This does not show if a contiguous
-- frame gives the same rate sample in eighths, a jump overshoots with both or with neither, and the
-- transition tail of a jump that overshoots is as long; and if the frame is not a repaired one from
-- the reset zone.
structure Undisturbed (cfg : Config) (fs : FlowState) (rs : List Call) (i : Instant) (a : Arrival) :
    Prop where
  unreset : ¬(Repaired rs a.seqNum ∧ (fs.pending.lookup a.seqNum).isSome ∧ fs.InResetZone cfg a)
  sample  : a.seqNum = fs.lastSeqNum + 1 →
    fs.shortened rs i = fs.silence i ∨ fs.shortened rs i ≤ 0 ∧ fs.silence i ≤ 0 ∨
      fs.ewmaIPG ≠ 0 ∧ eighths fs.ewmaIPG (fs.shortened rs i) = eighths fs.ewmaIPG (fs.silence i)
  jump    : fs.lastSeqNum + 1 < a.seqNum →
    (fs.Overshoots cfg (fs.shortened rs i) a.seqNum ↔ fs.Overshoots cfg (fs.silence i) a.seqNum)
  tail    : fs.lastSeqNum + 1 < a.seqNum → fs.Overshoots cfg (fs.silence i) a.seqNum →
    0 < fs.ewmaIPG → minContiguousForRecover ≤ fs.contiguous →
      min (min (fs.expected (fs.shortened rs i)) (fs.missing a.seqNum)) cfg.maxJump =
        min (min (fs.expected (fs.silence i)) (fs.missing a.seqNum)) cfg.maxJump

theorem nextIPG_eq_iff {w d d' : Duration} : nextIPG w d = nextIPG w d' ↔
    d = d' ∨ d ≤ 0 ∧ d' ≤ 0 ∨ w ≠ 0 ∧ eighths w d = eighths w d' := by
  unfold nextIPG eighths Duration at *
  split <;> split <;> try split
  all_goals grind

theorem implausible_iff {d : Duration} {seq : SeqNum} :
    fs.implausibleJump cfg d seq = true ↔ fs.Overshoots cfg d seq := by
  simp only [implausibleJump, Overshoots]
  grind

theorem tail_eq_iff {d d' : Duration} {seq : SeqNum} : fs.tail cfg d seq = fs.tail cfg d' seq ↔
    (0 < fs.ewmaIPG → minContiguousForRecover ≤ fs.contiguous →
      min (min (fs.expected d) (fs.missing seq)) cfg.maxJump =
        min (min (fs.expected d') (fs.missing seq)) cfg.maxJump) := by
  simp only [FlowState.tail]
  split
  case isTrue h  => exact ⟨fun he _ _ => he, fun he => he h.1 h.2⟩
  case isFalse h => exact ⟨fun _ hw hc => absurd ⟨hw, hc⟩ h, fun _ => rfl⟩

theorem verdictOf_next (h₀ : fs.lastSeqNum ≠ 0) (h : a.seqNum = fs.lastSeqNum + 1) :
    fs.verdictOf cfg i a = some .contiguous := by
  have hn : ¬a.seqNum ≤ fs.lastSeqNum := h ▸ Nat.not_succ_le_self _
  rw [verdictOf, if_neg (fun hf => hn hf.1), verdict, if_neg h₀, if_neg hn, if_pos h]

theorem verdictOf_jump (cfg : Config) (i : Instant) (h₀ : fs.lastSeqNum ≠ 0)
    (h : fs.lastSeqNum + 1 < a.seqNum) :
    fs.verdictOf cfg i a =
      some (if fs.implausibleJump cfg (fs.silence i) a.seqNum then .emitterChange else .gap) := by
  have hn : ¬a.seqNum ≤ fs.lastSeqNum := (Nat.lt_of_succ_lt h).not_ge
  rw [verdictOf, if_neg (fun hf => hn hf.1), verdict, if_neg h₀, if_neg hn, if_neg h.ne']
  rfl

theorem sameCourse_iff {v w : Option Verdict} (hv : fs.verdictOf cfg i a = v)
    (hw : gs.verdictOf cfg i a = w) :
    SameCourse cfg recorded fs rs i a gs ↔
      ((v = some .contiguous ↔ w = some .contiguous) ∧ (v = some .gap ↔ w = some .gap) ∧
        (v = some .emitterChange ↔ w = some .emitterChange)) ∧
      fs.lastAfter a v = gs.lastAfter a w ∧ fs.ipgAfter i v = gs.ipgAfter i w ∧
      ∀ seq, ¬Repaired rs seq →
        (fs.pendingAfter cfg i a seq v).isSome = (gs.pendingAfter cfg i a seq w).isSome := by
  have hf := observe_observed cfg i recorded fs a
  have hg := observe_observed cfg i recorded gs a
  rw [hv] at hf
  rw [hw] at hg
  constructor
  case mp =>
    intro ⟨h₁, h₂, h₃, h₄, h₅, h₆⟩
    simp only [hf.lastSeqNum, hg.lastSeqNum, hf.ewmaIPG, hg.ewmaIPG, hf.pending, hg.pending, hv, hw]
      at h₁ h₂ h₃ h₄ h₅ h₆
    exact ⟨⟨h₁, h₂, h₃⟩, h₄, h₅, h₆⟩
  case mpr =>
    intro ⟨⟨h₁, h₂, h₃⟩, h₄, h₅, h₆⟩
    constructor
    case contiguous    => rwa [hv, hw]
    case gap           => rwa [hv, hw]
    case emitterChange => rwa [hv, hw]
    case lastSeqNum    => rwa [hf.lastSeqNum, hg.lastSeqNum]
    case ewmaIPG       => rwa [hf.ewmaIPG, hg.ewmaIPG]
    case pending       => simpa only [hf.pending, hg.pending] using h₆

-- Tails below `q` that do not reach down to `l` are as long as the sets they cover are equal.
theorem eq_of_same_tail {q l n n' : Nat} (hl : l + 1 < q) (hn : n ≤ q - l - 1)
    (hn' : n' ≤ q - l - 1) (h : ∀ s, l < s → (q ≤ s + n ∧ s < q ↔ q ≤ s + n' ∧ s < q)) :
    n = n' := by
  have h₁ := h (q - n)
  have h₂ := h (q - n')
  omega

theorem isSome_pendingAfter_emitterChange {seq : SeqNum} :
    (fs.pendingAfter cfg i a seq (some .emitterChange)).isSome ↔
      a.seqNum ≤ seq + fs.tail cfg (fs.silence i) a.seqNum ∧ seq < a.seqNum := by
  rw [pendingAfter, Option.isSome_ite]
  rfl

namespace AfterRepairs

theorem lookup_erase (hr : AfterRepairs fs rs gs) {seq : SeqNum} (hs : ¬Repaired rs seq) :
    (gs.pending.erase a.seqNum).lookup seq = (fs.pending.erase a.seqNum).lookup seq := by
  rw [AList.lookup_erase_eq_ite, AList.lookup_erase_eq_ite, hr.pending, if_neg hs]

theorem silence_eq (hr : AfterRepairs fs rs gs) : gs.silence i = fs.shortened rs i := by
  rw [silence, hr.lastSeen, shortened]

theorem inResetZone_iff (hr : AfterRepairs fs rs gs) :
    gs.InResetZone cfg a ↔ fs.InResetZone cfg a := by
  rw [InResetZone, hr.lastSeqNum, InResetZone]

theorem implausible_eq (hr : AfterRepairs fs rs gs) {d : Duration} {n : SeqNum} :
    gs.implausibleJump cfg d n = fs.implausibleJump cfg d n := by
  have hm : gs.missing n = fs.missing n := by rw [missing, hr.lastSeqNum, missing]
  have he : gs.expected d = fs.expected d := by rw [expected, hr.ewmaIPG, expected]
  unfold implausibleJump
  rw [hm, he, hr.ewmaIPG]

theorem tail_eq (hr : AfterRepairs fs rs gs) {d : Duration} {n : SeqNum} :
    gs.tail cfg d n = fs.tail cfg d n := by
  simp only [FlowState.tail, missing, expected, hr.lastSeqNum, hr.ewmaIPG, hr.contiguous]

-- A frame behind the stream: only the reset zone tells a repaired gap from an open one.
theorem sameCourse_of_le (hr : AfterRepairs fs rs gs) (h₀ : fs.lastSeqNum ≠ 0)
    (hle : a.seqNum ≤ fs.lastSeqNum) : SameCourse cfg recorded fs rs i a gs ↔
      ¬(Repaired rs a.seqNum ∧ (fs.pending.lookup a.seqNum).isSome ∧ fs.InResetZone cfg a) := by
  have hg₀ : gs.lastSeqNum ≠ 0 := hr.lastSeqNum ▸ h₀
  have hgle : a.seqNum ≤ gs.lastSeqNum := hr.lastSeqNum ▸ hle
  have hp := fun seq (hs : ¬Repaired rs seq) =>
    congrArg Option.isSome (hr.lookup_erase (a := a) hs).symm
  cases hfp : fs.pending.lookup a.seqNum
  case none =>
    have hgp : gs.pending.lookup a.seqNum = none := by rw [hr.pending, hfp, ite_self]
    by_cases hz : fs.InResetZone cfg a
    case pos =>
      rw [sameCourse_iff (verdictOf_restart hfp hz)
        (verdictOf_restart hgp (hr.inResetZone_iff.mpr hz))]
      simp [lastAfter, ipgAfter, pendingAfter, hr.ewmaIPG]
    case neg =>
      rw [sameCourse_iff (verdictOf_stale h₀ hle hfp hz)
        (verdictOf_stale hg₀ hgle hgp (mt hr.inResetZone_iff.mp hz))]
      simpa [lastAfter, ipgAfter, pendingAfter, hr.ewmaIPG, hr.lastSeqNum] using hp
  case some e =>
    have hv : fs.verdictOf cfg i a = none := if_pos ⟨hle, hfp ▸ rfl⟩
    by_cases hm : Repaired rs a.seqNum
    case neg =>
      have hgp : gs.pending.lookup a.seqNum = some e := by rw [hr.pending, if_neg hm, hfp]
      rw [sameCourse_iff hv (if_pos ⟨hgle, hgp ▸ rfl⟩)]
      simpa [hm, lastAfter, ipgAfter, pendingAfter, hr.ewmaIPG, hr.lastSeqNum] using hp
    case pos =>
      have hgp : gs.pending.lookup a.seqNum = none := by rw [hr.pending, if_pos hm]
      by_cases hz : fs.InResetZone cfg a
      case pos =>
        have hne : fs.lastSeqNum ≠ a.seqNum := (Nat.lt_of_le_of_lt hz.2.1 hz.2.2).ne'
        rw [sameCourse_iff hv (verdictOf_restart hgp (hr.inResetZone_iff.mpr hz))]
        simp [lastAfter, hm, hz, hne]
      case neg =>
        rw [sameCourse_iff hv (verdictOf_stale hg₀ hgle hgp (mt hr.inResetZone_iff.mp hz))]
        simpa [hz, lastAfter, ipgAfter, pendingAfter, hr.ewmaIPG, hr.lastSeqNum] using hp

-- The next frame of the stream: the rate sample is the silence.
theorem sameCourse_of_next (hr : AfterRepairs fs rs gs) (h₀ : fs.lastSeqNum ≠ 0)
    (hn : a.seqNum = fs.lastSeqNum + 1) : SameCourse cfg recorded fs rs i a gs ↔
      nextIPG fs.ewmaIPG (fs.shortened rs i) = nextIPG fs.ewmaIPG (fs.silence i) := by
  have hp := fun seq (hs : ¬Repaired rs seq) =>
    congrArg Option.isSome (hr.lookup_erase (a := a) hs).symm
  rw [sameCourse_iff (verdictOf_next h₀ hn)
    (verdictOf_next (hr.lastSeqNum ▸ h₀) (hr.lastSeqNum ▸ hn)), ← hr.silence_eq]
  simp only [lastAfter, ipgAfter, pendingAfter, hr.ewmaIPG, silence]
  exact ⟨fun h => h.2.2.1.symm, fun h => ⟨by simp, trivial, h.symm, hp⟩⟩

-- A frame that jumps ahead: the silence decides between a gap and an emitter change, and how far
-- back the transition tail of an emitter change reaches.
theorem sameCourse_of_jump (hr : AfterRepairs fs rs gs) (h₀ : fs.lastSeqNum ≠ 0)
    (hle : ∀ seq, Repaired rs seq → seq ≤ fs.lastSeqNum) (hj : fs.lastSeqNum + 1 < a.seqNum) :
    SameCourse cfg recorded fs rs i a gs ↔
      fs.implausibleJump cfg (fs.shortened rs i) a.seqNum =
        fs.implausibleJump cfg (fs.silence i) a.seqNum ∧
        (fs.implausibleJump cfg (fs.silence i) a.seqNum →
          fs.tail cfg (fs.shortened rs i) a.seqNum = fs.tail cfg (fs.silence i) a.seqNum) := by
  have hp := fun seq (hs : ¬Repaired rs seq) =>
    congrArg Option.isSome (hr.lookup_erase (a := a) hs).symm
  have hv := verdictOf_jump cfg i h₀ hj
  have hw := verdictOf_jump cfg i (hr.lastSeqNum ▸ h₀) (hr.lastSeqNum ▸ hj)
  rw [hr.implausible_eq, hr.silence_eq] at hw
  cases hs : fs.implausibleJump cfg (fs.silence i) a.seqNum <;>
    cases hs' : fs.implausibleJump cfg (fs.shortened rs i) a.seqNum <;>
    simp only [hs, hs', if_true, Bool.false_eq_true, if_false]
      at hv hw <;> rw [sameCourse_iff hv hw]
  case false.true => simp
  case true.false => simp
  case false.false =>
    simp [lastAfter, ipgAfter, pendingAfter, hr.ewmaIPG, hr.lastSeqNum]
    grind
  case true.true =>
    have ht : gs.tail cfg (gs.silence i) a.seqNum = fs.tail cfg (fs.shortened rs i) a.seqNum := by
      rw [hr.silence_eq, hr.tail_eq]
    constructor
    case mp =>
      rintro ⟨_, _, _, hk⟩
      have hm := fs.tail_le_missing cfg (fs.silence i) a.seqNum
      have hm' := fs.tail_le_missing cfg (fs.shortened rs i) a.seqNum
      refine ⟨rfl, fun _ => eq_of_same_tail hj hm' hm fun seq hs => ?_⟩
      have hk := hk seq fun h => absurd (hle seq h) hs.not_ge
      rw [Bool.eq_iff_iff, isSome_pendingAfter_emitterChange, isSome_pendingAfter_emitterChange, ht]
        at hk
      exact hk.symm
    case mpr =>
      rintro ⟨_, hk⟩
      refine ⟨by simp, rfl, rfl, fun seq _ => ?_⟩
      rw [Bool.eq_iff_iff, isSome_pendingAfter_emitterChange,
        isSome_pendingAfter_emitterChange, ht, hk rfl]

end AfterRepairs

-- Repairs do not influence the next live frame exactly if the silence they shorten does not show.
theorem sameCourse_iff_undisturbed (cfg : Config) (recorded : Bool) (fs : FlowState)
    (rs : List Call) (i : Instant) (a : Arrival) (h₀ : 1 ≤ fs.lastSeqNum)
    (hr : ∀ c ∈ rs, c.Repairs fs) :
    SameCourse cfg recorded fs rs i a (Run.exec (hear cfg recorded) fs rs) ↔
      Undisturbed cfg fs rs i a := by
  have ha := exec_repairs cfg recorded hr
  have h₀ : fs.lastSeqNum ≠ 0 := Nat.ne_zero_of_lt h₀
  have hle : ∀ seq, Repaired rs seq → seq ≤ fs.lastSeqNum :=
    fun _ ⟨_, c, hc, hs⟩ => hs ▸ (hr c hc).2
  rcases Nat.lt_trichotomy a.seqNum (fs.lastSeqNum + 1) with h | h | h
  case inl =>
    rw [ha.sameCourse_of_le h₀ (Nat.le_of_lt_succ h)]
    exact ⟨fun hu => ⟨hu, fun hn => absurd hn h.ne, fun hj => absurd hj h.not_gt,
      fun hj => absurd hj h.not_gt⟩, fun hu => hu.unreset⟩
  case inr.inl =>
    have hn : ¬Repaired rs a.seqNum := fun hm => absurd (h ▸ hle _ hm) (Nat.not_succ_le_self _)
    rw [ha.sameCourse_of_next h₀ h]
    rw [nextIPG_eq_iff]
    exact ⟨fun hu => ⟨fun hm => hn hm.1, fun _ => hu, fun hj => absurd h hj.ne',
      fun hj => absurd h hj.ne'⟩, fun hu => hu.sample h⟩
  case inr.inr =>
    have hn : ¬Repaired rs a.seqNum := fun hm => absurd (hle _ hm) (Nat.lt_of_succ_lt h).not_ge
    rw [ha.sameCourse_of_jump h₀ hle h, Bool.eq_iff_iff, implausible_iff,
      implausible_iff, tail_eq_iff]
    exact ⟨fun hu => ⟨fun hm => hn hm.1, fun he => absurd he h.ne', fun _ => hu.1, fun _ => hu.2⟩,
      fun hu => ⟨hu.jump h, hu.tail h⟩⟩

def call (ms : Int) (source : Option IP) (seq : SeqNum) : Call where
  instant := { now := Time.ms ms, jitter := fun _ => 0 }
  arrival :=
    { owner := 0, groupIdx := 0xFFFE, subtreeID := .zero, hashKey := 7,
      seqNum := seq, source := source }

-- A block flow at 10 ms per frame, with SeqNum 3 lost and SeqNum 5 the newest.
def lossyFlow : FlowState :=
  Run.exec (hear .default true) (.new 0xFFFE .zero)
    [call 0 (some 1) 1, call 10 (some 1) 2, call 20 (some 1) 4, call 30 (some 1) 5]

-- A repair right before a small jump goes unnoticed.
theorem sameCourse_small_jump :
    SameCourse .default true lossyFlow [call 39 none 3] (call 40 (some 1) 7).instant
      (call 40 (some 1) 7).arrival (Run.exec (hear .default true) lossyFlow [call 39 none 3]) :=
  (sameCourse_iff_undisturbed .default true lossyFlow _ _ _ (by decide) (by decide)).mpr
    ⟨by decide, by decide, by decide, by decide⟩

-- After a second of silence 100 frames are missing. The repair of SeqNum 3 right before the next
-- live frame turns the ordinary gap into an emitter change, and no frame of the outage is asked
-- for.
theorem repair_hides_outage :
    let next := call 1030 (some 1) 106
    let repaired := Run.exec (hear .default true) lossyFlow [call 1029 none 3]
    lossyFlow.verdictOf .default next.instant next.arrival = some .gap ∧
      repaired.verdictOf .default next.instant next.arrival = some .emitterChange ∧
      ((lossyFlow.hear .default true next).pending.lookup 50).isSome = true ∧
      (repaired.hear .default true next).pending.lookup 50 = none ∧
      ¬SameCourse .default true lossyFlow [call 1029 none 3] next.instant
        next.arrival repaired := by
  refine ⟨?_, ?_, ?_, ?_, fun h => absurd (h.gap.mp ?_) ?_⟩
  all_goals decide +kernel

end FlowState
end Nack
