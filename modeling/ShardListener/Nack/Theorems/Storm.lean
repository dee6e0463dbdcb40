import ShardListener.Nack.Theorems.Each

namespace Nack

-- Subtraction of `uint64` values, and division of durations, that fail where the machine operation
-- would wrap around or divide by zero.

def checkedSub (a b : Nat) : Option Nat :=
  if b ≤ a then some (a - b) else none

def checkedDiv (a b : Int) : Option Int :=
  if b = 0 then none else some (a.tdiv b)

theorem checkedSub_of_le {a b : Nat} (h : b ≤ a) : checkedSub a b = some (a - b) :=
  if_pos h

theorem checkedDiv_of_pos {a b : Int} (h : 0 < b) : checkedDiv a b = some (a.tdiv b) :=
  if_neg h.ne'

namespace FlowState

variable {cfg : Config} {i : Instant} {fs : FlowState} {a : Arrival} {seq : SeqNum}
variable {recorded : Bool}
variable {elapsed : Duration} {e : Sigma fun _ : SeqNum => GapEntry}

-- The range computations of `ObserveFrom` in checked arithmetic.

def checkedImplausible (cfg : Config) (fs : FlowState) (elapsed : Duration) (missing : Nat) :
    Option Bool :=
  if missing > cfg.maxJump then some true
  else if fs.ewmaIPG > 0 ∧ missing > 64 then
    (checkedDiv elapsed fs.ewmaIPG).map fun quotient =>
      decide (missing > 4 * (toUint64 quotient + 1) % 2 ^ 64)
  else some false

def checkedTail (cfg : Config) (fs : FlowState) (elapsed : Duration) (seqNum : SeqNum)
    (missing : Nat) : Option (List SeqNum) :=
  if fs.ewmaIPG > 0 ∧ minContiguousForRecover ≤ fs.contiguous then do
    let quotient ← checkedDiv elapsed fs.ewmaIPG
    let tail  := min (min (toUint64 quotient) missing) cfg.maxJump
    let start ← checkedSub seqNum tail
    some (List.range' start tail)
  else some []

def checkedRange (cfg : Config) (fs : FlowState) (elapsed : Duration) (seqNum : SeqNum) :
    Option (List SeqNum) := do
  let ahead       ← checkedSub seqNum fs.lastSeqNum
  let missing     ← checkedSub ahead 1
  let implausible ← checkedImplausible cfg fs elapsed missing
  if implausible then fs.checkedTail cfg elapsed seqNum missing
  else some (List.range' (fs.lastSeqNum + 1) missing)

-- The SeqNums that a frame registers. Only one that is further ahead than the next comes to the
-- subtractions.
def checkedRegisters (cfg : Config) (i : Instant) (fs : FlowState) (a : Arrival) :
    Option (List SeqNum) :=
  if fs.lastSeqNum = 0 ∨ a.seqNum ≤ fs.lastSeqNum + 1 then some []
  else fs.checkedRange cfg (Time.sub i.now fs.lastSeen) a.seqNum

theorem checkedImplausible_eq :
    checkedImplausible cfg fs elapsed (fs.missing seq) =
      some (fs.implausibleJump cfg elapsed seq) := by
  simp only [ checkedImplausible, implausibleJump]
  repeat' split
  case isTrue           => rfl
  case isFalse.isTrue h => rw [checkedDiv_of_pos h.1]; rfl
  case isFalse.isFalse  => rfl

theorem tail_le_seq : fs.tail cfg elapsed seq ≤ seq :=
  (tail_le_missing cfg fs elapsed seq).trans ((Nat.sub_le _ 1).trans (Nat.sub_le seq fs.lastSeqNum))

theorem checkedTail_eq :
    fs.checkedTail cfg elapsed seq (fs.missing seq) =
      some (List.range' (seq - fs.tail cfg elapsed seq) (fs.tail cfg elapsed seq)) := by
  have hle : fs.tail cfg elapsed seq ≤ seq := tail_le_seq
  simp only [checkedTail]
  simp only [tail] at hle ⊢
  split
  case isFalse h => rfl
  case isTrue h =>
    rw [if_pos h] at hle
    simp only [checkedDiv_of_pos h.1, Option.bind_eq_bind, Option.bind_some]
    have hsub : checkedSub seq (min (min (fs.expected elapsed) (fs.missing seq)) cfg.maxJump) = _ :=
      checkedSub_of_le hle
    exact congrArg (Option.bind · _) hsub

-- Nothing wraps around, and nothing is divided by zero.
theorem checkedRange_eq (h : fs.lastSeqNum + 1 < seq) :
    fs.checkedRange cfg elapsed seq =
      some (if fs.implausibleJump cfg elapsed seq then
        List.range' (seq - fs.tail cfg elapsed seq) (fs.tail cfg elapsed seq)
      else List.range' (fs.lastSeqNum + 1) (fs.missing seq)) := by
  have hahead : checkedSub seq fs.lastSeqNum = some (seq - fs.lastSeqNum) :=
    checkedSub_of_le (by dsimp only [SeqNum] at *; omega)
  have hmissing : checkedSub (seq - fs.lastSeqNum) 1 = some (fs.missing seq) :=
    checkedSub_of_le (by dsimp only [SeqNum] at *; omega)
  simp only [checkedRange, hahead, hmissing, checkedImplausible_eq,
    Option.bind_eq_bind, Option.bind_some]
  split
  case isTrue  => exact checkedTail_eq
  case isFalse => rfl

-- The SeqNums that a verdict registers.
def registered (cfg : Config) (i : Instant) (fs : FlowState) (a : Arrival) :
    Option Verdict → List SeqNum
  | some .emitterChange =>
    let n := fs.tail cfg (Time.sub i.now fs.lastSeen) a.seqNum
    List.range' (a.seqNum - n) n
  | some .gap => List.range' (fs.lastSeqNum + 1) (fs.missing a.seqNum)
  | _         => []

theorem checkedRegisters_eq :
    fs.checkedRegisters cfg i a = some (fs.registered cfg i a (fs.verdictOf cfg i a)) := by
  have hg := verdictOf_guard cfg i fs a
  generalize fs.verdictOf cfg i a = v at hg
  have hnear (h : fs.lastSeqNum = 0 ∨ a.seqNum ≤ fs.lastSeqNum + 1) :
      fs.checkedRegisters cfg i a = some [] := if_pos h
  have hfar (h₀ : fs.lastSeqNum ≠ 0) (h : fs.lastSeqNum + 1 < a.seqNum) :
      fs.checkedRegisters cfg i a = fs.checkedRange cfg (Time.sub i.now fs.lastSeen) a.seqNum :=
    if_neg (not_or.mpr ⟨h₀, not_le.mpr h⟩)
  cases v
  case none => exact hnear (.inr (hg.1.trans (Nat.le_succ _)))
  case some v =>
    cases v
    case first      => exact hnear (.inl hg)
    case stale      => exact hnear (.inr (hg.2.1.trans (Nat.le_succ _)))
    case restart    => exact hnear (.inr (hg.1.trans (Nat.le_succ _)))
    case contiguous => exact hnear (.inr hg.2.le)
    case emitterChange =>
      rw [hfar hg.1 hg.2.1, checkedRange_eq hg.2.1, if_pos hg.2.2]
      rfl
    case gap =>
      rw [hfar hg.1 hg.2.1, checkedRange_eq hg.2.1, if_neg (by simp [hg.2.2])]
      rfl

theorem length_registered :
    (fs.registered cfg i a (fs.verdictOf cfg i a)).length ≤ cfg.maxJump := by
  have hg := verdictOf_guard cfg i fs a
  generalize fs.verdictOf cfg i a = v at hg
  simp only [registered]
  split
  case h_1 =>
    rw [List.length_range', tail]
    split
    case isTrue  => exact min_le_right _ _
    case isFalse => exact Nat.zero_le _
  case h_2 =>
    rw [List.length_range']
    by_contra hlt
    have hj : fs.implausibleJump cfg (Time.sub i.now fs.lastSeen) a.seqNum = true :=
      if_pos (not_le.mp hlt)
    cases hg.2.2.symm.trans hj
  case h_3 => exact Nat.zero_le _

theorem mem_registered (h : seq ∈ fs.registered cfg i a (fs.verdictOf cfg i a)) :
    fs.lastSeqNum < seq ∧ seq < a.seqNum := by
  have hg := verdictOf_guard cfg i fs a
  generalize fs.verdictOf cfg i a = v at hg h
  simp only [registered] at h
  split at h
  case h_1 =>
    have hle := tail_le_missing cfg fs (Time.sub i.now fs.lastSeen) a.seqNum
    have ⟨hseq, hlt⟩ := mem_tail_iff.mp h
    have hahead : fs.lastSeqNum + 1 < a.seqNum := hg.2.1
    refine ⟨?_, hlt⟩
    simp only [missing] at hle
    dsimp only [SeqNum] at *
    omega
  case h_2 => exact List.mem_range'_between.mp h
  case h_3 => cases h

-- An entry is new if it was not stored before under its SeqNum.
def added (before after : Dict SeqNum GapEntry) : List (Sigma fun _ : SeqNum => GapEntry) :=
  after.entries.filter fun e => before.lookup e.1 ≠ some e.2

theorem mem_added_iff {before after : Dict SeqNum GapEntry} :
    e ∈ added before after ↔ after.lookup e.1 = some e.2 ∧ before.lookup e.1 ≠ some e.2 := by
  simp [added, AList.mem_entries_iff]

theorem added_self {gaps : Dict SeqNum GapEntry} : added gaps gaps = [] := by
  refine List.eq_nil_iff_forall_not_mem.mpr fun e he => ?_
  have ⟨hl, hn⟩ := mem_added_iff.mp he
  exact hn hl

theorem registered_of_added (he : e ∈ added fs.pending (fs.observe cfg i recorded a).flow.pending) :
    e.1 ∈ fs.registered cfg i a (fs.verdictOf cfg i a) := by
  have ⟨hafter, hbefore⟩ := mem_added_iff.mp he
  rw [(observe_observed cfg i recorded fs a).pending e.1] at hafter
  have hold (h : (fs.pending.erase a.seqNum).lookup e.1 = some e.2) : False := by
    rw [AList.lookup_erase_eq_ite] at h
    split at h
    case isTrue  => cases h
    case isFalse => exact hbefore h
  generalize fs.verdictOf cfg i a = v at hafter
  simp only [pendingAfter] at hafter
  split at hafter
  case h_1 => cases hafter
  case h_2 =>
    split at hafter
    case isTrue h => exact mem_tail_iff.mpr h
    case isFalse  => cases hafter
  case h_3 =>
    rcases Option.or_eq_some_iff.mp hafter with h | ⟨_, h⟩
    case inl => exact (hold h).elim
    case inr =>
      split at h
      case isTrue hb => exact List.mem_range'_between.mpr hb
      case isFalse   => cases h
  case h_4 => exact (hold hafter).elim

-- The keys of the new entries are different ones.
theorem length_added :
    (added fs.pending (fs.observe cfg i recorded a).flow.pending).length ≤ cfg.maxJump := by
  have hsub : ((added fs.pending (fs.observe cfg i recorded a).flow.pending).map Sigma.fst).Sublist
      (fs.observe cfg i recorded a).flow.pending.keys := List.filter_sublist.map Sigma.fst
  have hnodup := hsub.nodup (fs.observe cfg i recorded a).flow.pending.keys_nodup
  have hmem : (added fs.pending (fs.observe cfg i recorded a).flow.pending).map Sigma.fst ⊆
      fs.registered cfg i a (fs.verdictOf cfg i a) := by
    intro seq hs
    have ⟨e, he, es⟩ := List.mem_map.mp hs
    exact es ▸ registered_of_added he
  have hle := (hnodup.subperm hmem).length_le
  rw [List.length_map] at hle
  exact hle.trans length_registered

end FlowState

namespace Tracker

variable {cfg : Config} {i : Instant} {t : Tracker} {a : Arrival} {hk : HashKey}

-- The pending entries of a flow, and its position; a flow that is not there has nothing pending.

def gaps (hk : HashKey) (t : Tracker) : Dict SeqNum GapEntry :=
  (t.flows.lookup hk).elim ∅ FlowState.pending

def position (hk : HashKey) (t : Tracker) : SeqNum :=
  (t.flows.lookup hk).elim 0 FlowState.lastSeqNum

-- The entries that a frame adds to a flow.
def addedBy (cfg : Config) (i : Instant) (a : Arrival) (hk : HashKey) (t : Tracker) :
    List (Sigma fun _ : SeqNum => GapEntry) :=
  FlowState.added (t.gaps hk) ((t.observeFrom cfg i a).gaps hk)

theorem addedBy_of_lookup_eq (hl : (t.observeFrom cfg i a).flows.lookup hk = t.flows.lookup hk) :
    t.addedBy cfg i a hk = [] := by
  rw [addedBy, gaps, gaps, hl, FlowState.added_self]

-- A flow that is new starts without pending entries.
theorem flowFor_gaps {fs : FlowState} (hf : t.flowFor cfg a = some fs) :
    t.gaps a.hashKey = fs.pending ∧ t.position a.hashKey = fs.lastSeqNum := by
  rcases flowFor_cases hf with hl | ⟨hl, rfl⟩
  case inl => rw [gaps, position, hl]; exact ⟨rfl, rfl⟩
  case inr => rw [gaps, position, hl]; exact ⟨rfl, rfl⟩

theorem addedBy_cases :
    t.addedBy cfg i a hk = [] ∨
      hk = a.hashKey ∧ ∃ fs ∈ t.flowFor cfg a, t.position hk = fs.lastSeqNum ∧
        t.addedBy cfg i a hk =
        FlowState.added fs.pending (fs.observe cfg i t.recorder.isSome a).flow.pending := by
  by_cases hz : a.seqNum = 0
  case pos =>
    have ht : t.observeFrom cfg i a = t := if_pos hz
    exact .inl (addedBy_of_lookup_eq (by rw [ht]))
  case neg =>
    have hl := lookup_observeFrom cfg i t hk hz
    by_cases e : hk = a.hashKey
    case neg => exact .inl (addedBy_of_lookup_eq (by rw [hl, if_neg e]))
    case pos =>
      subst e
      rw [if_pos rfl] at hl
      cases hf : t.flowFor cfg a
      case none =>
        have hnone : t.flows.lookup a.hashKey = none := (Option.or_eq_none_iff.mp hf).1
        exact .inl (addedBy_of_lookup_eq (by rw [hl, hf, hnone]; rfl))
      case some fs =>
        have ⟨hgaps, hpos⟩ := flowFor_gaps hf
        refine .inr ⟨rfl, fs, rfl, hpos, ?_⟩
        rw [addedBy, hgaps, gaps, hl, hf]
        rfl

-- Whatever the state of the tracker, the SeqNum of the frame, the clock and the estimate of the
-- rate: the arithmetic of a frame neither wraps around nor divides by zero, and the frame adds at
-- most `maxJump` entries, all of them between the position of its flow and its own SeqNum.
theorem observeFrom_no_storm (cfg : Config) (i : Instant) (t : Tracker) (a : Arrival) :
    (∀ fs ∈ t.flowFor cfg a, ∃ seqs, fs.checkedRegisters cfg i a = some seqs ∧
        ∀ e ∈ t.addedBy cfg i a a.hashKey, e.1 ∈ seqs) ∧
      ∀ hk, (t.addedBy cfg i a hk).length ≤ cfg.maxJump ∧
        ∀ e ∈ t.addedBy cfg i a hk, hk = a.hashKey ∧ t.position hk < e.1 ∧ e.1 < a.seqNum := by
  constructor
  case left =>
    intro fs hf
    refine ⟨_, FlowState.checkedRegisters_eq, fun e he => ?_⟩
    rcases addedBy_cases with h | ⟨_, fs', hf', _, h⟩
    case inl => rw [h] at he; cases he
    case inr =>
      cases hf.symm.trans hf'
      rw [h] at he
      exact FlowState.registered_of_added he
  case right =>
    intro hk
    rcases addedBy_cases with h | ⟨ek, fs, _, hpos, h⟩
    case inl => rw [h]; exact ⟨Nat.zero_le _, nofun⟩
    case inr =>
      rw [h, hpos]
      refine ⟨FlowState.length_added, fun e he => ⟨ek, ?_⟩⟩
      exact FlowState.mem_registered (FlowState.registered_of_added he)

end Tracker
end Nack
