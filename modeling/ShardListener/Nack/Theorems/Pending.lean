import ShardListener.Nack.Theorems.Probe

-- What `RequestGapsFrom` does to the answer of `Pending`.
namespace Nack.Tracker

variable {cfg : Config} {i : Instant} {room : Nat} {t : Tracker} {q : Request} {hk : HashKey}
variable {seqs : List SeqNum}

theorem pending_iff :
    t.pending hk seqs = true ↔
      ∃ fs, t.flows.lookup hk = some fs ∧ ∃ seq ∈ seqs, (fs.pending.lookup seq).isSome := by
  unfold pending
  split
  case h_1 hl => simp [hl]
  case h_2 fs hl => simp [hl]

-- A flow that is tracked stays so, with everything that is pending.
theorem requestGapsFrom_keeps (cfg : Config) (i : Instant) (room : Nat) (q : Request)
    {fs : FlowState} (hl : t.flows.lookup hk = some fs) :
    ∃ fs', (t.requestGapsFrom cfg i room q).flows.lookup hk = some fs' ∧
      ∀ seq, (fs.pending.lookup seq).isSome → (fs'.pending.lookup seq).isSome := by
  by_cases hq : q.seqs = []
  case pos => exact ⟨fs, by simpa only [requestGapsFrom, if_pos hq] using hl, fun _ h => h⟩
  case neg =>
    rw [lookup_requestGapsFrom cfg i room t hk hq]
    split
    case isTrue e =>
      subst e
      refine ⟨_, by rw [requestFlow, hl, Option.some_or, Option.map_some], fun seq h => ?_⟩
      obtain ⟨_, _, e⟩ := FlowState.request_lookup cfg i room fs q seq
      rw [e]
      simp [h]
    case isFalse => exact ⟨fs, hl, fun _ h => h⟩

theorem pending_requestGapsFrom (cfg : Config) (i : Instant) (room : Nat) (q : Request)
    (h : t.pending hk seqs = true) :
    (t.requestGapsFrom cfg i room q).pending hk seqs = true := by
  have ⟨fs, hl, seq, hm, hs⟩ := pending_iff.mp h
  have ⟨fs', hl', hk⟩ := requestGapsFrom_keeps cfg i room q hl
  exact pending_iff.mpr ⟨fs', hl', seq, hm, hk seq hs⟩

-- A request that is not refused makes everything it names pending.
theorem pending_requested (i : Instant) (room : Nat) (hq : q.seqs ≠ [])
    (hr : (t.flows.lookup q.hashKey).isSome ∨ ¬t.full cfg) :
    (t.requestGapsFrom cfg i room q).pending q.hashKey q.seqs = true := by
  have ⟨fs, hf⟩ : ∃ fs, t.requestFlow cfg i q = some fs := by
    unfold requestFlow
    cases hl : t.flows.lookup q.hashKey
    case some fs => exact ⟨fs, rfl⟩
    case none =>
      rw [hl] at hr
      rw [if_neg (hr.resolve_left (by simp))]
      exact ⟨_, rfl⟩
  have ⟨seq, hm⟩ := List.exists_mem_of_ne_nil _ hq
  have ⟨g, _, e⟩ := FlowState.request_lookup cfg i room fs q seq
  refine pending_iff.mpr ⟨(fs.request cfg i room q).flow, ?_, seq, hm, ?_⟩
  case refine_1 => rw [lookup_requestGapsFrom cfg i room t _ hq, if_pos rfl, hf, Option.map_some]
  case refine_2 => rw [e, if_pos hm]; simp

-- A tracker that is full and does not track the flow stays so.
theorem requestGapsFrom_refuses (cfg : Config) (i : Instant) (room : Nat) (q : Request)
    (hn : t.flows.lookup hk = none) (hf : t.full cfg) :
    (t.requestGapsFrom cfg i room q).flows.lookup hk = none ∧
      (t.requestGapsFrom cfg i room q).full cfg := by
  unfold requestGapsFrom
  split
  case isTrue => exact ⟨hn, hf⟩
  case isFalse =>
    split
    case h_1 fs hl =>
      have hne : hk ≠ q.hashKey := by
        rintro rfl
        cases hn.symm.trans hl
      have hsize : (t.put q.hashKey (fs.request cfg i room q)).flows.size = t.flows.size :=
        AList.size_insert_of_mem (AList.mem_iff_lookup.mpr ⟨fs, hl⟩)
      refine ⟨by rw [lookup_put, if_neg hne, hn], hf.1, ?_⟩
      rw [hsize]
      exact hf.2
    case h_2 => exact ⟨hn, hf⟩

end Nack.Tracker
