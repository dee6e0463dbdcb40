import ShardListener.Nack.Theorems.Provenance
import ShardListener.Nack.Walk

namespace Nack

variable {G : HashKey → SeqNum → Nat → Prop} {hk : HashKey} {cfg : Config} {i : Instant}
variable {now : Time}

-- The entry of a SeqNum, at an index of the snapshot that `G` allows.
structure GapEntry.Placed (G : HashKey → SeqNum → Nat → Prop) (hk : HashKey) (seq : SeqNum)
    (e : GapEntry) : Prop where
  hashKey : e.hashKey = hk
  seqNum  : e.seqNum = seq
  index   : G hk seq e.endpointIdx

theorem GapEntry.Placed.rescheduled {e e' : GapEntry} {seq : SeqNum} (he : e.Placed G hk seq)
    (hr : e.Rescheduled e') : e'.Placed G hk seq := by
  obtain ⟨_, rfl⟩ := hr
  exact ⟨he.hashKey, he.seqNum, he.index⟩

def FlowState.Placed (G : HashKey → SeqNum → Nat → Prop) (hk : HashKey) (fs : FlowState) : Prop :=
  ∀ seq e, fs.pending.lookup seq = some e → e.Placed G hk seq

-- The copies that an operation queues.
def Effect.Placed (G : HashKey → SeqNum → Nat → Prop) (hk : HashKey) (r : Effect) : Prop :=
  r.flow.Placed G hk ∧ ∀ e ∈ r.queued, e.Placed G hk e.seqNum

namespace FlowState.Placed

variable {fs : FlowState} {recorded : Bool}

-- An entry is registered at the first endpoint.

theorem observe {a : Arrival} (hG : ∀ hk seq, G hk seq 0) (hf : fs.Placed G hk)
    (ha : a.hashKey = hk) : (fs.observe cfg i recorded a).Placed G hk := by
  refine ⟨fun seq e he => ?_, by simp [queued_observe]⟩
  rcases observe_pending he with he | he
  case inl => exact hf seq e he
  case inr => exact he ▸ ⟨ha, rfl, hG hk seq⟩

theorem request {room : Nat} {q : Request} (hG : ∀ hk seq, G hk seq 0) (hf : fs.Placed G hk)
    (hq : q.hashKey = hk) : (fs.request cfg i room q).Placed G hk := by
  refine ⟨fun seq e he => ?_, fun e he => ?_⟩
  case refine_1 =>
    simp only [FlowState.request, requestGaps_lookup] at he
    rcases Option.or_eq_some_iff.mp he with he | ⟨_, he⟩
    case inl => exact hf seq e he
    case inr =>
      split at he
      case isTrue  => cases he; exact ⟨hq, rfl, hG hk seq⟩
      case isFalse => cases he
  case refine_2 =>
    have ⟨seq, he⟩ := mem_queued_requestGaps (List.mem_of_mem_take he)
    exact he ▸ ⟨hq, rfl, hG hk seq⟩

theorem sweep {room : SeqNum → Bool} (hG : ∀ hk seq, G hk seq 0) (hf : fs.Placed G hk) :
    (fs.sweep cfg hk now room).Placed G hk := by
  refine ⟨fun seq e' he => ?_, fun e' he => ?_⟩
  case refine_1 =>
    rcases sweep_pending he with ⟨e, he, hr⟩ | ⟨es, f, he⟩
    case inl => exact (hf seq e he).rescheduled hr
    case inr => exact es ▸ he ▸ ⟨rfl, rfl, hG hk _⟩
  case refine_2 =>
    rcases sweep_queued he with ⟨seq, e, he, hr⟩ | ⟨f, he⟩
    case inl =>
      have hp := (hf seq e he).rescheduled hr
      exact hp.seqNum ▸ hp
    case inr => exact he ▸ ⟨rfl, rfl, hG hk _⟩

theorem probeMissed {e : GapEntry} (hf : fs.Placed G hk) : (fs.probeMissed e).Placed G hk := by
  refine ⟨fun seq g hg => ?_, nofun⟩
  simp only [FlowState.probeMissed, retireProbe, AList.lookup_erase_eq_ite] at hg
  split at hg
  case isTrue  => cases hg
  case isFalse => exact hf seq g hg

theorem advanceEndpoint {e : GapEntry} {immediate : Bool} {n : Nat} (hf : fs.Placed G hk)
    (hn : ∀ g, fs.pending.lookup e.seqNum = some g → G hk e.seqNum (g.endpointIdx + 1)) :
    (fs.advanceEndpoint cfg i e immediate n).Placed G hk := by
  simp only [FlowState.advanceEndpoint]
  split
  case h_1 => exact ⟨hf, by simp⟩
  case h_2 stored hl =>
    refine ⟨fun seq g hg => ?_, by simp⟩
    rw [AList.lookup_insert_eq_ite] at hg
    split at hg
    case isFalse => exact hf seq g hg
    case isTrue es =>
      have hp := hf _ stored hl
      cases hg
      subst es
      simp only [advanceEntry]
      split
      case isTrue  => exact ⟨hp.hashKey, hp.seqNum, hn stored hl⟩
      case isFalse => exact ⟨hp.hashKey, hp.seqNum, hn stored hl⟩

end FlowState.Placed

-- Every entry and every queued copy of the tracker is at an index that `G` allows.
structure Tracker.Placed (G : HashKey → SeqNum → Nat → Prop) (t : Tracker) : Prop where
  flows    : ∀ hk fs, t.flows.lookup hk = some fs → fs.Placed G hk
  inFlight : ∀ e ∈ t.inFlight, G e.hashKey e.seqNum e.endpointIdx

namespace Tracker.Placed

variable {t : Tracker}

theorem mono {G' : HashKey → SeqNum → Nat → Prop} (ht : t.Placed G)
    (h : ∀ hk seq k, G hk seq k → G' hk seq k) : t.Placed G' where
  flows hk fs hl seq e he :=
    have hp := ht.flows hk fs hl seq e he
    ⟨hp.hashKey, hp.seqNum, h hk seq _ hp.index⟩
  inFlight e he := h _ _ _ (ht.inFlight e he)

theorem iff_each :
    t.Placed G ↔ t.Each (fun hk fs => fs.Placed G hk) fun e => G e.hashKey e.seqNum e.endpointIdx :=
  ⟨fun ht => ⟨ht.flows, ht.inFlight⟩, fun ht => ⟨ht.flows, ht.inFlight⟩⟩

theorem meets {r : Effect} (hr : r.Placed G hk) :
    r.Meets (fun hk fs => fs.Placed G hk) (fun e => G e.hashKey e.seqNum e.endpointIdx) hk where
  flow        := hr.1
  queued e he := have hp := hr.2 e he; hp.hashKey ▸ hp.index

theorem onFlow {op : FlowState → Effect} (ht : t.Placed G)
    (hop : ∀ fs, t.flows.lookup hk = some fs → fs.Placed G hk → (op fs).Placed G hk) :
    (t.onFlow hk op).Placed G :=
  iff_each.mpr <| (iff_each.mp ht).onFlow fun fs hl => meets (hop fs hl (ht.flows hk fs hl))

theorem observeFrom {a : Arrival} (hG : ∀ hk seq, G hk seq 0) (ht : t.Placed G) :
    (t.observeFrom cfg i a).Placed G := by
  refine iff_each.mpr <| (iff_each.mp ht).observeFrom fun fs hf => meets ?_
  rcases Tracker.flowFor_cases hf with hl | ⟨_, rfl⟩
  case inl => exact (ht.flows _ fs hl).observe hG rfl
  case inr => exact FlowState.Placed.observe hG nofun rfl

theorem requestGapsFrom {room : Nat} {q : Request} (hG : ∀ hk seq, G hk seq 0) (ht : t.Placed G) :
    (t.requestGapsFrom cfg i room q).Placed G := by
  refine iff_each.mpr <| (iff_each.mp ht).requestGapsFrom fun fs hf => meets ?_
  rcases Tracker.requestFlow_cases hf with hl | ⟨_, rfl⟩
  case inl => exact (ht.flows _ fs hl).request hG rfl
  case inr => exact FlowState.Placed.request hG nofun rfl

theorem sweepOnce {room : HashKey → SeqNum → Bool} (hG : ∀ hk seq, G hk seq 0) (ht : t.Placed G) :
    (t.sweepOnce cfg now room).Placed G :=
  iff_each.mpr <| (iff_each.mp ht).sweepOnce fun _ _ hf => meets (hf.sweep hG)

-- The index that the outcome of a copy moves is that of the stored entry.
theorem complete {n : Nat} {e : GapEntry} {o : Outcome} (ht : t.Placed G)
    (hn : o.completion n e ≠ .probeMiss → ∀ fs, t.flows.lookup e.hashKey = some fs → ∀ g,
      fs.pending.lookup e.seqNum = some g → G e.hashKey e.seqNum (g.endpointIdx + 1)) :
    (t.complete cfg i e (o.completion n e)).Placed G := by
  have hadv {immediate : Bool} {m : Nat} (hc : o.completion n e ≠ .probeMiss) :
      (t.advanceEndpoint cfg i e immediate m).Placed G :=
    ht.onFlow fun fs hl hf => hf.advanceEndpoint (hn hc fs hl)
  cases o
  case timeout    => exact hadv nofun
  case unicastACK => exact hadv nofun
  case miss =>
    cases hs : e.speculative
    case false =>
      have ec : Outcome.miss.completion n e = .advance true n := by simp [Outcome.completion, hs]
      rw [ec]
      exact hadv (by rw [ec]; nofun)
    case true =>
      have ec : Outcome.miss.completion n e = .probeMiss := by simp [Outcome.completion, hs]
      rw [ec]
      exact ht.onFlow fun _ _ hf => hf.probeMissed

end Tracker.Placed

namespace Walk

variable {w : Walk} {m : Move} {n : Nat} {e : GapEntry}

-- A NACK for the SeqNum was sent to every endpoint before the index `k`.
def Reached (n : Nat) (sent : List (HashKey × SeqNum × Nat)) (hk : HashKey) (seq : SeqNum)
    (k : Nat) : Prop :=
  ∀ j < k, j < n → (hk, seq, j) ∈ sent

-- A NACK is sent to an endpoint after all those before it were asked for the same SeqNum.
def Ascends (n : Nat) (w : Walk) : Move → Prop
  | .send e => ∀ j < e.snapshotIdx n, (e.hashKey, e.seqNum, j) ∈ w.sent
  | _       => True

-- An outcome moves the stored entry on only if the copy was taken at the index that this is still
-- at.
def Current (n : Nat) (w : Walk) : Move → Prop
  | .outcome _ e o => o.completion n e ≠ .probeMiss → ∀ fs ∈ w.tracker.flows.lookup e.hashKey,
      ∀ g ∈ fs.pending.lookup e.seqNum, g.endpointIdx = e.endpointIdx
  | _ => True

instance : DecidablePred (w.Ascends n)
  | .send _     => inferInstanceAs (Decidable (∀ j < _, _))
  | .outcome .. => .isTrue trivial
  | .observe .. => .isTrue trivial
  | .request .. => .isTrue trivial
  | .sweep ..   => .isTrue trivial

instance : DecidablePred (w.Current n)
  | .outcome .. => inferInstanceAs (Decidable (_ → ∀ fs ∈ _, ∀ g ∈ _, _))
  | .send _     => .isTrue trivial
  | .observe .. => .isTrue trivial
  | .request .. => .isTrue trivial
  | .sweep ..   => .isTrue trivial

theorem Reached.zero {sent : List (HashKey × SeqNum × Nat)} (hk : HashKey) (seq : SeqNum) :
    Reached n sent hk seq 0 :=
  nofun

theorem Reached.mono {sent sent' : List (HashKey × SeqNum × Nat)} {seq : SeqNum} {k : Nat}
    (hr : Reached n sent hk seq k) (hs : sent ⊆ sent') : Reached n sent' hk seq k :=
  fun j hj hn => hs (hr j hj hn)

-- The copies that are sent have asked at their own index, too.
structure Climbs (n : Nat) (w : Walk) : Prop where
  placed  : w.tracker.Placed (Reached n w.sent)
  sending : ∀ e ∈ w.sending, Reached n w.sent e.hashKey e.seqNum (e.endpointIdx + 1)

theorem snapshotIdx_of_lt (h : e.endpointIdx < n) : e.snapshotIdx n = e.endpointIdx :=
  if_neg h.not_ge

theorem snapshotIdx_le : e.snapshotIdx n ≤ e.endpointIdx := by
  simp only [GapEntry.snapshotIdx]
  split <;> omega

theorem Climbs.ascends (hw : w.Climbs n) (he : w.Enabled m) : w.Ascends n m := by
  cases m
  case send e =>
    intro j hj
    have hlt : j < n := by
      simp only [GapEntry.snapshotIdx] at hj
      split at hj <;> omega
    exact hw.placed.inFlight e he j (hj.trans_le snapshotIdx_le) hlt
  all_goals trivial

theorem Climbs.send (hw : w.Climbs n) (he : e ∈ w.tracker.inFlight) : (w.send n e).Climbs n := by
  have hrest :
      ∀ g ∈ w.tracker.inFlight.erase e, Reached n w.sent g.hashKey g.seqNum g.endpointIdx :=
    fun g hg => hw.placed.inFlight g (List.mem_of_mem_erase hg)
  simp only [Walk.send]
  split
  case isTrue => exact ⟨⟨hw.placed.flows, hrest⟩, hw.sending⟩
  case isFalse =>
    have hsub : w.sent ⊆ w.sent ++ [(e.hashKey, e.seqNum, e.snapshotIdx n)] :=
      List.subset_append_left ..
    have hold : Tracker.Placed (Reached n w.sent)
      { w.tracker with inFlight := w.tracker.inFlight.erase e } := ⟨hw.placed.flows, hrest⟩
    refine ⟨hold.mono fun _ _ _ hr => hr.mono hsub, fun g hg => ?_⟩
    rcases List.mem_append.mp hg with hg | hg
    case inl => exact (hw.sending g hg).mono hsub
    case inr =>
      cases List.mem_singleton.mp hg
      intro j hj hn
      by_cases ej : j = e.endpointIdx
      case pos =>
        subst ej
        rw [snapshotIdx_of_lt hn]
        exact List.mem_append_right _ List.mem_cons_self
      case neg => exact hsub (hw.placed.inFlight e he j (by omega) hn)

theorem Climbs.step (hw : w.Climbs n) (he : w.Enabled m) (hc : w.Current n m) :
    (w.step cfg n m).Climbs n := by
  have hG : ∀ hk seq, Reached n w.sent hk seq 0 := .zero
  cases m
  case observe i a      => exact ⟨hw.placed.observeFrom hG, hw.sending⟩
  case request i room q => exact ⟨hw.placed.requestGapsFrom hG, hw.sending⟩
  case sweep now room   => exact ⟨hw.placed.sweepOnce hG, hw.sending⟩
  case send e           => exact hw.send he
  case outcome i e o =>
    refine ⟨hw.placed.complete fun hn fs hl g hg => ?_,
      fun g hg => hw.sending g (List.mem_of_mem_erase hg)⟩
    rw [hc hn fs hl g hg]
    exact hw.sending e he

-- In every run in which the outcomes move the entries that their copies are of: no endpoint is
-- skipped.
theorem ascends_of_current {ms : List Move} (he : Run.Along (step cfg n) Enabled {} ms)
    (hc : Run.Along (step cfg n) (Current n) {} ms) : Run.Along (step cfg n) (Ascends n) {} ms := by
  have h₀ : Climbs n {} := ⟨⟨nofun, nofun⟩, nofun⟩
  exact Run.along_of_preserved (D := fun _ => True) (fun w m hw _ h => hw.step h.1 h.2)
    (fun w m hw _ h => hw.ascends h.1) h₀ (fun _ _ => trivial) (he.and hc)

-- The gap of one SeqNum, at the request for it, and a copy of its entry after some attempts.

def lostTail : Move :=
  .request ⟨0, fun _ => 0⟩ 1 ⟨0, 7, 0xFFFE, .zero, [2]⟩

def copyAt (attempts : Nat) (next : Int) : GapEntry where
  hashKey     := 7
  seqNum      := 2
  groupIdx    := 0xFFFE
  subtreeID   := .zero
  source      := none
  retries     := attempts
  nextAttempt := Time.ms next
  deadline    := Time.ms 600000
  endpointIdx := attempts
  owner       := 0

def missed (ms : Int) (e : GapEntry) : Move :=
  .outcome ⟨Time.ms ms, fun _ => 0⟩ e .miss

theorem ascends_one_copy :
    Run.Along (step .default 3) (Ascends 3) {}
      [lostTail, .send (copyAt 0 0), missed 40 (copyAt 0 0), .sweep (Time.ms 50) fun _ _ => true,
        .send (copyAt 1 450), missed 90 (copyAt 1 450), .sweep (Time.ms 100) fun _ _ => true,
        .send (copyAt 2 500)] :=
  ascends_of_current (by decide +kernel) (by decide +kernel)

-- The copy that the request has queued is not answered when a sweep queues the second one. Both are
-- sent to the first endpoint, and each MISS moves the entry on, so that the next copy goes to the
-- third one.
theorem twoCopies_not_ascends :
    let ms : List Move := [lostTail, .send (copyAt 0 0), .sweep (Time.ms 250) fun _ _ => true,
      .send (copyAt 0 650), missed 280 (copyAt 0 0), missed 290 (copyAt 0 650),
      .sweep (Time.ms 300) fun _ _ => true, .send (copyAt 2 700)]
    Run.Along (step .default 3) Enabled {} ms ∧ ¬Run.Along (step .default 3) (Ascends 3) {} ms := by
  decide +kernel

end Walk
end Nack
