import ShardListener.Nack.Theorems.Probe
import ShardListener.Nack.Walk

namespace Nack

-- How a NACK ends that leaves its gap open, with the number of endpoints in the registry where it
-- is known. The gap is not a probe, or a MISS would retire it.
inductive Setback
  | miss (numEndpoints : Nat)
  | timeout
  | sendError (numEndpoints : Nat)
  | resolveError
  | unicastACK (numEndpoints : Nat)
  | throttled (flags : UInt8)
deriving DecidableEq

namespace Setback

def completion : Setback → Completion
  | miss k       => .advance true k
  | timeout      => .advance false 0
  | sendError k  => .advance false k
  | resolveError => .advance false 0
  | unicastACK k => .advance true k
  | throttled fl => .throttle fl

-- The registry has at most `n` endpoints, and one to send to.
def Within (n : Nat) : Setback → Prop
  | miss k       => 1 ≤ k ∧ k ≤ n
  | sendError k  => 1 ≤ k ∧ k ≤ n
  | unicastACK k => 1 ≤ k ∧ k ≤ n
  | _            => True

instance {n : Nat} : DecidablePred (Within n)
  | miss _       => inferInstanceAs (Decidable (_ ∧ _))
  | sendError _  => inferInstanceAs (Decidable (_ ∧ _))
  | unicastACK _ => inferInstanceAs (Decidable (_ ∧ _))
  | timeout      => .isTrue trivial
  | resolveError => .isTrue trivial
  | throttled _  => .isTrue trivial

end Setback

def Dispatch.Within (n : Nat) : Dispatch → Prop
  | .sendError k => 1 ≤ k ∧ k ≤ n
  | .sent _ k    => 1 ≤ k ∧ k ≤ n
  | _            => True

-- Every end of `sendNACK` with a word to the tracker that leaves the gap open is a setback.
theorem exists_setback {σ : Type} {reinject : Option (Bytes → σ → Bool × σ)} {e : GapEntry}
    {ds : List (Time × Bytes)} {w : σ} {d : Dispatch} {n : Nat} (hd : d.Within n)
    (hc : (∃ imm k, (sendNACK reinject e ds w d).1 = .advance imm k) ∨
      ∃ fl, (sendNACK reinject e ds w d).1 = .throttle fl) :
    ∃ b : Setback, b.Within n ∧ (sendNACK reinject e ds w d).1 = b.completion := by
  rcases hc with ⟨imm, k, hc⟩ | ⟨fl, hc⟩
  case inr => exact ⟨.throttled fl, trivial, hc⟩
  case inl =>
    cases d
    case noEndpoint   => cases hc
    case resolveError => exact ⟨.resolveError, trivial, rfl⟩
    case listenError  => exact ⟨.resolveError, trivial, rfl⟩
    case sendError m  => exact ⟨.sendError m, hd, rfl⟩
    case sent now m =>
      have ⟨o, ho⟩ := drain_advance hc
      rw [hc, ← ho]
      cases o
      case timeout    => exact ⟨.timeout, trivial, rfl⟩
      case unicastACK => exact ⟨.unicastACK m, hd, rfl⟩
      case miss =>
        simp only [Outcome.completion] at ho ⊢
        split at ho
        case isTrue     => cases ho
        case isFalse hs => exact ⟨.miss m, hd, if_neg hs⟩

-- The number of endpoints that a setback reports.
def Setback.endpoints : Setback → Nat
  | miss k       => k
  | sendError k  => k
  | unicastACK k => k
  | _            => 0

-- How often it advances the endpoint.
def Setback.advances : Setback → Nat
  | throttled _ => 0
  | _           => 1

-- What an outcome that reports `k` endpoints makes of the retry state of a gap: it is held, it hops
-- to an index below `k`, or it fails a round. The last number says how often the endpoint was
-- advanced.
inductive GapEntry.Retried (k : Nat) (e e' : GapEntry) : Nat → Prop
  | held (failRounds : e'.failRounds = e.failRounds)
    (endpointIdx : e'.endpointIdx = e.endpointIdx) :
    Retried k e e' 0
  | hopped (failRounds : e'.failRounds = 0) (endpointIdx : e'.endpointIdx = e.endpointIdx + 1)
    (below : e'.endpointIdx < k) : Retried k e e' 1
  | failed (failRounds : e'.failRounds = e.failRounds + 1)
    (endpointIdx : e'.endpointIdx = e.endpointIdx + 1) : Retried k e e' 1

-- The measure: an entry that was advanced `k` times has failed as many rounds, but for the hops.
structure GapEntry.Spent (n k : Nat) (e : GapEntry) : Prop where
  endpointIdx : k ≤ e.endpointIdx
  failRounds  : k ≤ e.failRounds + (n - 1)

namespace GapEntry

variable {n k m : Nat} {e e' : GapEntry} {cfg : Config} {i : Instant}

theorem Spent.zero : e.Spent n 0 :=
  ⟨Nat.zero_le _, Nat.zero_le _⟩

theorem Spent.retried {reported : Nat} (hs : e.Spent n k) (hr : e.Retried reported e' m)
    (hn : reported ≤ n) : e'.Spent n (k + m) := by
  have ⟨hidx, hfail⟩ := hs
  cases hr
  case held hf hi      => exact ⟨by omega, by omega⟩
  case hopped hf hi hb => exact ⟨by omega, by omega⟩
  case failed hf hi    => exact ⟨by omega, by omega⟩

theorem Rescheduled.retried (h : e.Rescheduled e') : e.Retried k e' 0 := by
  obtain ⟨_, rfl⟩ := h
  exact .held rfl rfl

theorem retried_advanceEntry {immediate : Bool} (hi : immediate = true → 1 ≤ k) :
    e.Retried k (FlowState.advanceEntry cfg i immediate k e) 1 := by
  simp only [FlowState.advanceEntry]
  split
  case isFalse => exact .failed rfl rfl
  case isTrue ht =>
    have hk := hi ht.1
    have hx : ¬(0 < k ∧ k ≤ e.endpointIdx + 1) := ht.2
    have hlt : e.endpointIdx + 1 < k := by omega
    exact .hopped rfl rfl hlt

end GapEntry

namespace FlowState

variable {cfg : Config} {i : Instant} {fs : FlowState} {e g g' : GapEntry} {seq : SeqNum}
variable {now : Time}

theorem lookup_advanceEndpoint {immediate : Bool} {k : Nat} :
    (fs.advanceEndpoint cfg i e immediate k).flow.pending.lookup seq =
      if seq = e.seqNum then (fs.pending.lookup seq).map (advanceEntry cfg i immediate k)
      else fs.pending.lookup seq := by
  simp only [advanceEndpoint]
  split
  case h_1 hl =>
    split
    case isTrue es => rw [es, hl]; rfl
    case isFalse   => rfl
  case h_2 stored hl =>
    rw [AList.lookup_insert_eq_ite]
    split
    case isTrue es => rw [es, hl]; rfl
    case isFalse   => rfl

theorem lookup_throttleGap {flags : UInt8} (hl : fs.pending.lookup seq = some g) :
    ∃ g', (fs.throttleGap cfg i e flags).flow.pending.lookup seq = some g' ∧ g.Retried 0 g' 0 := by
  simp only [throttleGap]
  split
  case h_1 => exact ⟨g, hl, .held rfl rfl⟩
  case h_2 stored hs =>
    by_cases es : seq = e.seqNum
    case neg => exact ⟨g, (AList.lookup_insert_ne es).trans hl, .held rfl rfl⟩
    case pos =>
      subst es
      cases hs.symm.trans hl
      exact ⟨_, AList.lookup_insert _, .held rfl rfl⟩

-- The sweep gives up on an entry that has failed too often, or is too old.

theorem lookup_sweepEntry_expired {room : Bool} (hl : fs.pending.lookup seq = some e)
    (hx : e.expired cfg now) : (fs.sweepEntry cfg now room seq).flow.pending.lookup seq = none := by
  simp only [sweepEntry, hl]
  split
  case isTrue => rw [evict_pending, AList.lookup_erase]
  case isFalse hd =>
    rw [if_pos (hx.resolve_left hd), evict_pending, AList.lookup_erase]

theorem lookup_sweepEntries_none {room : SeqNum → Bool} {ss : List SeqNum}
    (hl : fs.pending.lookup seq = none) :
    (fs.sweepEntries cfg now room ss).flow.pending.lookup seq = none := by
  by_contra hn
  have ⟨e', he⟩ := Option.ne_none_iff_exists'.mp hn
  have ⟨e, he, _⟩ := sweepEntries_pending he
  cases hl.symm.trans he

theorem lookup_sweepEntries_expired {room : SeqNum → Bool} {ss : List SeqNum}
    (hl : fs.pending.lookup seq = some e) (hx : e.expired cfg now) (hm : seq ∈ ss) :
    (fs.sweepEntries cfg now room ss).flow.pending.lookup seq = none := by
  induction ss generalizing fs
  case nil => cases hm
  case cons s ss hi =>
    by_cases es : seq = s
    case pos =>
      subst es
      have hgone : ((fs.sweepEntry cfg now (room seq) seq).flow.sweepEntries
          cfg now room ss).flow.pending.lookup seq = none :=
        lookup_sweepEntries_none (lookup_sweepEntry_expired hl hx)
      exact hgone
    case neg =>
      exact hi ((sweepEntry_swept.lookup_ne es).trans hl) ((List.mem_cons.mp hm).resolve_left es)

-- What is stored for its SeqNum afterwards is a new probe, if the flow has nothing else pending.
theorem lookup_sweep_expired {hk : HashKey} {room : SeqNum → Bool}
    (hl : fs.pending.lookup seq = some e) (hx : e.expired cfg now)
    (hg : (fs.sweep cfg hk now room).flow.pending.lookup seq = some g) :
    ∃ f : FlowState, g = f.probe cfg hk now := by
  have hm : seq ∈ fs.pending.keys := AList.mem_keys.mp (AList.mem_iff_lookup.mpr ⟨e, hl⟩)
  have hs : ((fs.purgeAbandoned now).sweepEntries cfg now room
    (fs.purgeAbandoned now).pending.keys).flow.pending.lookup seq =
      none := lookup_sweepEntries_expired hl hx hm
  simp only [sweep] at hg
  split at hg
  case isFalse => cases hs.symm.trans hg
  case isTrue =>
    rcases maybeProbeTail_pending hg with hg | ⟨_, hg⟩
    case inl => cases hs.symm.trans hg
    case inr => exact ⟨_, hg⟩

-- Any other entry stays, and with it the flow.

theorem lookup_sweepEntry_kept {room : Bool} {s : SeqNum} (hl : fs.pending.lookup seq = some g)
    (hx : ¬g.expired cfg now) :
    ∃ g', (fs.sweepEntry cfg now room s).flow.pending.lookup seq = some g' ∧ g.Rescheduled g' := by
  by_cases es : seq = s
  case neg => exact ⟨g, (sweepEntry_swept.lookup_ne es).trans hl, .refl⟩
  case pos =>
    subst es
    have ⟨hd, hr⟩ := not_or.mp hx
    simp only [sweepEntry, hl, if_neg hd, if_neg hr]
    repeat' split
    case isTrue.isTrue  => exact ⟨_, AList.lookup_insert _, _, rfl⟩
    case isTrue.isFalse => exact ⟨_, AList.lookup_insert _, _, rfl⟩
    case isFalse        => exact ⟨g, hl, .refl⟩

theorem lookup_sweepEntries_kept {room : SeqNum → Bool} {ss : List SeqNum}
    (hl : fs.pending.lookup seq = some g) (hx : ¬g.expired cfg now) :
    ∃ g', (fs.sweepEntries cfg now room ss).flow.pending.lookup seq = some g' ∧
      g.Rescheduled g' := by
  induction ss generalizing fs g
  case nil => exact ⟨g, hl, .refl⟩
  case cons s ss hi =>
    have ⟨g₁, hl₁, hr₁⟩ :
        ∃ g', (fs.sweepEntry cfg now (room s) s).flow.pending.lookup seq = some g' ∧
      g.Rescheduled g' := lookup_sweepEntry_kept hl hx
    have hx₁ : ¬g₁.expired cfg now := by
      obtain ⟨_, rfl⟩ := hr₁
      exact hx
    have ⟨g₂, hl₂, hr₂⟩ := hi hl₁ hx₁
    exact ⟨g₂, hl₂, hr₁.trans hr₂⟩

theorem lookup_swept_kept {hk : HashKey} {room : SeqNum → Bool}
    (hl : fs.pending.lookup seq = some g) (hx : ¬g.expired cfg now) :
    ∃ f g', fs.swept cfg hk now room = some f ∧ f.pending.lookup seq = some g' ∧
      g.Rescheduled g' := by
  have hp : (fs.purgeAbandoned now).pending.lookup seq = some g := hl
  have ⟨g', hl', hr⟩ : ∃ g', ((fs.purgeAbandoned now).sweepEntries cfg now room
      (fs.purgeAbandoned now).pending.keys).flow.pending.lookup seq = some g' ∧ g.Rescheduled g' :=
    lookup_sweepEntries_kept hp hx
  have hz : ((fs.purgeAbandoned now).sweepEntries cfg now room
      (fs.purgeAbandoned now).pending.keys).flow.pending.size ≠ 0 := by
    intro hz
    cases (AList.size_eq_zero_iff.mp hz seq).symm.trans hl'
  have hs : (fs.sweep cfg hk now room).flow = _ := congrArg Effect.flow (if_neg hz)
  refine ⟨_, g', ?_, hl', hr⟩
  simp only [swept, hs]
  exact if_neg fun hi => hz hi.1

end FlowState

-- What happens to the gaps of a tracker between frames: a NACK for one of them ends in a setback,
-- or the sweep comes round.
inductive Turn
  | setback (i : Instant) (e : GapEntry) (b : Setback)
  | sweep (now : Time) (room : HashKey → SeqNum → Bool)

namespace Turn

def op : Turn → Op
  | setback i e b  => .complete i e b.completion
  | sweep now room => .sweep now room

def endpoints : Turn → Nat
  | setback _ _ b => b.endpoints
  | sweep ..      => 0

-- How often the endpoint of the gap is advanced.
def advances (hk : HashKey) (seq : SeqNum) : Turn → Nat
  | setback _ e b => if e.hashKey = hk ∧ e.seqNum = seq then b.advances else 0
  | sweep ..      => 0

def Within (n : Nat) : Turn → Prop
  | setback _ _ b => b.Within n
  | sweep ..      => True

instance {n : Nat} : DecidablePred (Within n)
  | setback _ _ b => inferInstanceAs (Decidable (b.Within n))
  | sweep ..      => .isTrue trivial

end Turn

namespace Tracker

variable {cfg : Config} {t : Tracker} {hk : HashKey} {seq : SeqNum} {n k : Nat} {g g' : GapEntry}
variable {turn : Turn} {turns : List Turn}

-- The entry that is pending for a SeqNum of a flow.
def entry (hk : HashKey) (seq : SeqNum) (t : Tracker) : Option GapEntry :=
  (t.flows.lookup hk).bind (·.pending.lookup seq)

def turned (cfg : Config) (t : Tracker) (turn : Turn) : Tracker :=
  t.step cfg turn.op

theorem entry_onFlow {hk' : HashKey} {apply : FlowState → Effect} :
    (t.onFlow hk' apply).entry hk seq =
      if hk = hk' then (t.flows.lookup hk).bind fun fs => (apply fs).flow.pending.lookup seq
      else t.entry hk seq := by
  simp only [entry, lookup_onFlow]
  split
  case isTrue e => subst e; cases t.flows.lookup hk <;> rfl
  case isFalse  => rfl

-- The sweep does not give up on the gap.
def Keeps (cfg : Config) (hk : HashKey) (seq : SeqNum) (t : Tracker) : Turn → Prop
  | .sweep now _ => ∀ g ∈ t.entry hk seq, ¬g.expired cfg now
  | .setback ..  => True

instance : DecidablePred (t.Keeps cfg hk seq)
  | .sweep ..   => inferInstanceAs (Decidable (∀ g ∈ _, _))
  | .setback .. => .isTrue trivial

-- What an outcome makes of the retry state of the gap.
def Retries (cfg : Config) (hk : HashKey) (seq : SeqNum) (t : Tracker) (turn : Turn) : Prop :=
  ∀ g ∈ t.entry hk seq, ∃ g' ∈ (t.turned cfg turn).entry hk seq,
    g.Retried turn.endpoints g' (turn.advances hk seq)

theorem retries_advance {i : Instant} {e : GapEntry} {immediate : Bool}
    (hi : immediate = true → 1 ≤ k) (hg : t.entry hk seq = some g) :
    ∃ g' ∈ (t.advanceEndpoint cfg i e immediate k).entry hk seq,
      g.Retried k g' (if e.hashKey = hk ∧ e.seqNum = seq then 1 else 0) := by
  have ⟨fs, hl, hp⟩ := Option.bind_eq_some_iff.mp hg
  simp only [Tracker.advanceEndpoint, entry_onFlow, hl, Option.bind_some,
    FlowState.lookup_advanceEndpoint, hp]
  by_cases ek : hk = e.hashKey
  case neg =>
    exact ⟨g, by rw [if_neg ek, hg]; rfl, by rw [if_neg fun h => ek h.1.symm]; exact .held rfl rfl⟩
  case pos =>
    rw [if_pos ek]
    by_cases es : seq = e.seqNum
    case neg =>
      exact ⟨g, by rw [if_neg es]; rfl, by rw [if_neg fun h => es h.2.symm]; exact .held rfl rfl⟩
    case pos =>
      refine ⟨_, by rw [if_pos es]; rfl, ?_⟩
      rw [if_pos ⟨ek.symm, es.symm⟩]
      exact GapEntry.retried_advanceEntry hi

theorem retries_throttle {i : Instant} {e : GapEntry} {flags : UInt8}
    (hg : t.entry hk seq = some g) :
    ∃ g' ∈ (t.throttleGap cfg i e flags).entry hk seq, g.Retried 0 g' 0 := by
  have ⟨fs, hl, hp⟩ := Option.bind_eq_some_iff.mp hg
  simp only [Tracker.throttleGap, entry_onFlow, hl, Option.bind_some]
  split
  case isTrue  => exact FlowState.lookup_throttleGap hp
  case isFalse => exact ⟨g, hg, .held rfl rfl⟩

theorem retries_sweep {now : Time} {room : HashKey → SeqNum → Bool} (hg : t.entry hk seq = some g)
    (hx : ¬g.expired cfg now) :
    ∃ g' ∈ (t.sweepOnce cfg now room).entry hk seq, g.Retried 0 g' 0 := by
  have ⟨fs, hl, hp⟩ := Option.bind_eq_some_iff.mp hg
  have ⟨f, g', hf, hl', hr⟩ : ∃ f g', fs.swept cfg hk now (room hk) = some f ∧
    f.pending.lookup seq = some g' ∧ g.Rescheduled g' := FlowState.lookup_swept_kept hp hx
  refine ⟨g', ?_, hr.retried⟩
  rw [Option.mem_def, entry, lookup_sweepOnce, hl, Option.bind_some, hf]
  exact hl'

theorem retries_turn (hn : turn.Within n) (hk' : t.Keeps cfg hk seq turn) :
    t.Retries cfg hk seq turn := by
  intro g hg
  cases turn
  case sweep now room => exact retries_sweep hg (hk' g hg)
  case setback i e b =>
    cases b
    case miss k       => exact retries_advance (fun _ => hn.1) hg
    case timeout      => exact retries_advance nofun hg
    case sendError k  => exact retries_advance nofun hg
    case resolveError => exact retries_advance nofun hg
    case unicastACK k => exact retries_advance (fun _ => hn.1) hg
    case throttled fl =>
      have ha : Turn.advances hk seq (.setback i e (.throttled fl)) = 0 := ite_self 0
      rw [ha]
      exact retries_throttle hg

theorem Turn.endpoints_le (hn : turn.Within n) : turn.endpoints ≤ n := by
  cases turn
  case sweep => exact Nat.zero_le n
  case setback i e b =>
    cases b
    case miss k       => exact hn.2
    case sendError k  => exact hn.2
    case unicastACK k => exact hn.2
    all_goals exact Nat.zero_le n

theorem spent_turns (hn : ∀ turn ∈ turns, turn.Within n)
    (hk' : Run.Along (turned cfg) (Keeps cfg hk seq) t turns) (hg : t.entry hk seq = some g)
    (hs : g.Spent n k) :
    ∃ g' ∈ (Run.exec (turned cfg) t turns).entry hk seq,
      g'.Spent n (k + (turns.map (Turn.advances hk seq)).sum) := by
  induction turns generalizing t g k
  case nil => exact ⟨g, hg, hs⟩
  case cons turn turns hi =>
    have hw := hn turn List.mem_cons_self
    have ⟨g₁, hg₁, hr⟩ := retries_turn hw hk'.1 g hg
    have ⟨g₂, hg₂, hs₂⟩ := hi (fun x hx => hn x (List.mem_cons_of_mem _ hx)) hk'.2 hg₁
      (hs.retried hr (Turn.endpoints_le hw))
    refine ⟨g₂, hg₂, ?_⟩
    rw [List.map_cons, List.sum_cons, ← Nat.add_assoc]
    exact hs₂

-- The sweep gives up on the entry of the gap. If the flow has nothing else pending, it may ask for
-- the same SeqNum again, with a new probe.
def GivesUp (cfg : Config) (hk : HashKey) (seq : SeqNum) (t : Tracker) : Prop :=
  ∀ now room, ∀ g ∈ (t.sweepOnce cfg now room).entry hk seq, ∃ f : FlowState, g = f.probe cfg hk now

theorem givesUp_of_failRounds (hg : t.entry hk seq = some g) (hf : cfg.maxRetries ≤ g.failRounds) :
    t.GivesUp cfg hk seq := by
  intro now room g' hg'
  have ⟨fs, hl, hp⟩ := Option.bind_eq_some_iff.mp hg
  rw [Option.mem_def, entry, lookup_sweepOnce, hl, Option.bind_some, FlowState.swept] at hg'
  split at hg'
  case isTrue  => cases hg'
  case isFalse => exact FlowState.lookup_sweep_expired hp (.inr hf) hg'

-- However the NACKs for a gap end, with at most `n` endpoints in the registry and as long as no
-- sweep gives up on it: its retry state is held by a THROTTLED, reset by a hop to an endpoint that
-- is there, and fails a round otherwise, and once the endpoint was advanced `n - 1 + MaxRetries`
-- times the next sweep gives up.
theorem retries_bounded (hw : ∀ turn ∈ turns, turn.Within n)
    (hkeep : Run.Along (turned cfg) (Keeps cfg hk seq) t turns) (hg : t.entry hk seq = some g) :
    Run.Along (turned cfg) (Retries cfg hk seq) t turns ∧
      (cfg.maxRetries + (n - 1 : Nat) ≤ (turns.map (Turn.advances hk seq)).sum →
        ∃ g' ∈ (Run.exec (turned cfg) t turns).entry hk seq,
          cfg.maxRetries ≤ g'.failRounds ∧ (Run.exec (turned cfg) t turns).GivesUp cfg hk seq) := by
  constructor
  case left =>
    have hboth := (Run.Along.of_forall hw).and hkeep
    exact hboth.mono fun t turn h => retries_turn h.1 h.2
  case right =>
    intro hsum
    have ⟨g', hg', hs⟩ := spent_turns hw hkeep hg .zero
    have hf : cfg.maxRetries ≤ g'.failRounds := by
      have hspent := hs.failRounds
      omega
    exact ⟨g', hg', hf, givesUp_of_failRounds hg' hf⟩

-- A gap at SeqNum 2. One of two endpoints does not have the frame, and the other one does not
-- answer.
def gappedTracker : Tracker :=
  Run.exec (step .default) .new
    [.observe ⟨0, fun _ => 0⟩ ⟨0, 0xFFFE, .zero, 7, 1, some 1⟩,
      .observe ⟨Time.ms 10, fun _ => 0⟩ ⟨0, 0xFFFE, .zero, 7, 3, some 1⟩]

def unansweredTurns (e : GapEntry) : List Turn :=
  let i : Instant := ⟨Time.ms 100, fun _ => 0⟩
  [.sweep (Time.ms 50) fun _ _ => true, .setback i e (.miss 2), .setback i e (.throttled 0)] ++
    List.replicate 5 (.setback i e .timeout)

theorem retries_bounded_two_endpoints :
    ∃ g, gappedTracker.entry 7 2 = some g ∧
      ∃ g' ∈ (Run.exec (turned .default) gappedTracker (unansweredTurns g)).entry 7 2,
        5 ≤ (g'.failRounds : Int) ∧
          (Run.exec (turned .default) gappedTracker (unansweredTurns g)).GivesUp .default 7 2 := by
  have ⟨g, hg, hw, hk, hs⟩ : ∃ g ∈ gappedTracker.entry 7 2,
      (∀ turn ∈ unansweredTurns g, turn.Within 2) ∧
        Run.Along (turned .default) (Keeps .default 7 2) gappedTracker (unansweredTurns g) ∧
          Config.maxRetries .default + (2 - 1 : Nat) ≤
            (((unansweredTurns g).map (Turn.advances 7 2)).sum : Nat) := by
    decide +kernel
  exact ⟨g, hg, (retries_bounded hw hk hg).2 hs⟩

end Tracker
end Nack
