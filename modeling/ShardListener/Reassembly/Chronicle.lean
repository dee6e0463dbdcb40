import ShardListener.Reassembly.Theorems.Gather

namespace Reassembly

-- A call of one of the hooks.
inductive Event
  | metric (m : Metric)
  | incomplete (q : Incomplete)
  | complete (d : Delivery)
deriving DecidableEq

-- The SeqNums that the calls have asked for.
def Event.asked (calls : List Event) : List Incomplete :=
  calls.filterMap fun
    | incomplete q => some q
    | _            => none

namespace Hooks

variable {ω : Type}

-- The hooks with a log of all their calls.
def chronicled (h : Hooks ω) : Hooks (ω × List Event) where
  metric m w              := (h.metric m w.1, w.2 ++ [.metric m])
  onComplete i f w        := (h.onComplete i f w.1, w.2 ++ [.complete (.tx f)])
  onCompleteBlock i f w   := (h.onCompleteBlock i f w.1, w.2 ++ [.complete (.block f)])
  onCompleteSubtree i f w := (h.onCompleteSubtree i f w.1, w.2 ++ [.complete (.subtreeData f)])
  onCompleteBEEF i f w    := (h.onCompleteBEEF i f w.1, w.2 ++ [.complete (.beef f)])
  onCompleteBEEFFrame     := h.onCompleteBEEFFrame.map fun cb i whole f w =>
    (cb i whole f w.1, w.2 ++ [.complete (.beef f)])
  onIncomplete i q w      := (h.onIncomplete i q w.1, w.2 ++ [.incomplete q])
  repairPending           := h.repairPending.map fun pending w => pending w.1
  groupIdxFn              := h.groupIdxFn

-- `SetRepairWait`.
def asking (h : Hooks ω) (pending : ω → HashKey → List SeqNum → Bool) : Hooks ω :=
  { h with repairPending := some pending }

end Hooks

-- What a sweep is told of the repairs. The answers may differ from slot to slot, whatever the slots
-- ask.
abbrev Query (ω : Type) := Bytes32 → ω → HashKey → List SeqNum → Bool

-- A buffer under a repair wait, with a record of the calls. `lives` has those that were made for
-- the slot under a key, since it was opened.
structure Chronicle (ω : Type) where
  state     : Buffer × (ω × List Event)
  lives     : Bytes32 → List Event := fun _ => []
  completes : Nat := 0

namespace Chronicle

variable {ω : Type} (fmt : Formats) (cfg : Config) (h : Hooks ω)

-- The calls of a step are those for the slot `key`.
def note (x : Chronicle ω) (key : Bytes32) (p : Buffer × (ω × List Event)) : Chronicle ω :=
  { x with
    state := p
    lives := Function.update x.lives key (x.lives key ++ p.2.2.drop x.state.2.2.length) }

def turn (ask : Query ω) (i : Instant) (x : Chronicle ω) (key : Bytes32) : Chronicle ω :=
  x.note key (Buffer.expire cfg (h.asking (ask key)).chronicled i x.state key)

def sweep (ask : Query ω) (i : Instant) (x : Chronicle ω) : Chronicle ω :=
  let x := x.state.1.insertOrder.foldl (turn cfg h ask i)
    { x with state := (x.state.1.sweepDone i.now, x.state.2) }
  { x with state := (x.state.1.compact, x.state.2) }

def sweepIfDue (ask : Query ω) (i : Instant) (x : Chronicle ω) : Chronicle ω :=
  if Buffer.sweepEvery cfg ≤ Time.sub i.now x.state.1.lastEvict then
    let x := x.sweep cfg h ask i
    { x with state := ({ x.state.1 with lastEvict := i.now }, x.state.2) }
  else x

-- The record when the slot for a fragment is there.
def opened (i : Instant) (ff : FragFrame) (x : Chronicle ω) : Chronicle ω :=
  let key := slotKey fmt ff
  if x.state.1.slots.lookup key = none ∧ Buffer.Opens fmt cfg x.state.1 ff then
    { x with
      state := Buffer.openSlot cfg h.chronicled i key ff x.state
      lives := Function.update x.lives key [] }
  else x

def gather (i : Instant) (ff : FragFrame) (x : Chronicle ω) : Chronicle ω :=
  { (x.opened fmt cfg h i ff).note (slotKey fmt ff)
    (Buffer.gather fmt cfg h.chronicled i ff x.state) with
    completes := x.completes +
      (Buffer.completing fmt cfg h.chronicled i x.state.1 ff).isSome.toNat }

def step (x : Chronicle ω) : Query ω × Op → Chronicle ω
  | (ask, .observe i ff) => (x.sweepIfDue cfg h ask i).gather fmt cfg h i ff
  | (ask, .tick i)       => x.sweep cfg h ask i
  | (_, .purge)          => { x with state := Buffer.purge h.chronicled x.state }

variable {fmt cfg h} {x : Chronicle ω} {i : Instant} {op : Op}
variable {pending : ω → HashKey → List SeqNum → Bool} {keys : List Bytes32}

theorem foldl_turn_state :
    (keys.foldl (turn cfg h (fun _ => pending) i) x).state =
      keys.foldl (Buffer.expire cfg (h.asking pending).chronicled i) x.state := by
  induction keys generalizing x
  case nil            => rfl
  case cons key ks hi => exact hi

theorem sweep_state :
    (x.sweep cfg h (fun _ => pending) i).state =
      Buffer.evictExpired cfg (h.asking pending).chronicled i x.state := by
  simp only [sweep, Buffer.evictExpired, foldl_turn_state]

theorem sweepIfDue_state :
    (x.sweepIfDue cfg h (fun _ => pending) i).state =
      Buffer.sweepIfDue cfg (h.asking pending).chronicled i x.state := by
  simp only [sweepIfDue, Buffer.sweepIfDue, ← sweep_state]
  split <;> rfl

-- With one answer for all slots, this is the buffer.
theorem step_state :
    (x.step fmt cfg h (fun _ => pending, op)).state =
      Reassembly.step fmt cfg (h.asking pending).chronicled x.state op := by
  cases op
  case observe i ff =>
    simp only [step, gather, note, Reassembly.step, Buffer.observe, ← sweepIfDue_state]
    rfl
  case tick i => exact sweep_state
  case purge  => rfl

end Chronicle
end Reassembly
