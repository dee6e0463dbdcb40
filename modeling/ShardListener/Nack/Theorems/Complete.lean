import ShardListener.Nack.Theorems.Observe

namespace Nack

-- The entry of the same gap, with another retry state.
def GapEntry.Renewed (e e' : GapEntry) : Prop :=
  ∃ retries failRounds time endpointIdx,
    e' = { e with retries, failRounds, nextAttempt := time, endpointIdx }

theorem GapEntry.Renewed.speculative {e e' : GapEntry} (h : e.Renewed e') :
    e'.speculative = e.speculative := by
  obtain ⟨_, _, _, _, rfl⟩ := h
  rfl

theorem GapEntry.Renewed.seqNum {e e' : GapEntry} (h : e.Renewed e') : e'.seqNum = e.seqNum := by
  obtain ⟨_, _, _, _, rfl⟩ := h
  rfl

namespace FlowState

variable {cfg : Config} {i : Instant} {fs : FlowState} {e : GapEntry} {seq : SeqNum}

-- What an answer that is not the frame does about a SeqNum: nothing, or a new retry state for its
-- entry.
inductive Answered (fs : FlowState) (seq : SeqNum) : Effect → Prop
  | unknown : Answered fs seq { flow := fs }
  | renewed {e e' : GapEntry} {metrics : List Metric} (stored : fs.pending.lookup seq = some e)
    (same : e.Renewed e') :
    Answered fs seq { flow := { fs with pending := fs.pending.insert seq e' }, metrics }

theorem advanceEndpoint_answered {immediate : Bool} {n : Nat} :
    Answered fs e.seqNum (fs.advanceEndpoint cfg i e immediate n) := by
  simp only [advanceEndpoint]
  split
  case h_1 => exact .unknown
  case h_2 stored hl =>
    refine .renewed hl ?_
    simp only [advanceEntry]
    split <;> exact ⟨_, _, _, _, rfl⟩

theorem throttleGap_answered {flags : UInt8} :
    Answered fs e.seqNum (fs.throttleGap cfg i e flags) := by
  simp only [throttleGap]
  split
  case h_1           => exact .unknown
  case h_2 stored hl => exact .renewed hl ⟨_, _, _, _, rfl⟩

-- The frame itself closes its entry, and it may be late if there is none.

theorem fill_or (fs : FlowState) (recorded : Bool) (seq : SeqNum) :
    fs.fill recorded seq = fs.noteLateFill seq ∨
      fs.autoFill recorded seq = some (fs.fill recorded seq) := by
  simp only [fill]
  cases fs.autoFill recorded seq
  case none   => exact .inl rfl
  case some r => exact .inr rfl

theorem cancelGap_or (fs : FlowState) (recorded : Bool) (e : GapEntry) :
    fs.cancelGap recorded e = { flow := fs } ∨
      fs.autoFill recorded e.seqNum = some (fs.cancelGap recorded e) := by
  simp only [cancelGap]
  cases fs.autoFill recorded e.seqNum
  case none   => exact .inl rfl
  case some r => exact .inr rfl

end FlowState
end Nack
