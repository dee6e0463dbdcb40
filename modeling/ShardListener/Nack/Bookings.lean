import ShardListener.Nack.System

namespace Nack

-- What is booked about the SeqNums of a flow, and when its numbering starts anew. The recorder is
-- told the bookings without the SeqNum.
inductive Booking
  | unrecovered (seq : SeqNum)
  | lateFill (seq : SeqNum)
  | restart
deriving DecidableEq

namespace FlowState

variable (cfg : Config) (i : Instant)

def lateFillBookings (fs : FlowState) (seq : SeqNum) : List Booking :=
  if (fs.abandoned.lookup seq).isSome then [.lateFill seq] else []

-- The real gaps that a restart gives up on.
def flushBookings : List (Sigma fun _ : SeqNum => GapEntry) → List Booking
  | []             => []
  | ⟨seq, e⟩ :: es =>
    if e.speculative then flushBookings es else .unrecovered seq :: flushBookings es

def ladderBookings (fs : FlowState) (a : Arrival) (elapsed : Duration) : List Booking :=
  match fs.verdict cfg elapsed a.seqNum a.source.isSome with
  | .restart => flushBookings fs.pending.entries ++ [.restart]
  | _        => []

def settleBookings (recorded : Bool) (fs : FlowState) (a : Arrival) (elapsed : Duration) :
    List Booking :=
  match fs.autoFill recorded a.seqNum with
  | none   => fs.ladderBookings cfg a elapsed
  | some r => if a.seqNum ≤ r.flow.lastSeqNum then [] else r.flow.ladderBookings cfg a elapsed

def observeBookings (recorded : Bool) (fs : FlowState) (a : Arrival) : List Booking :=
  let late := (fs.touch i.now a).noteLateFill a.seqNum
  fs.lateFillBookings a.seqNum ++
    late.flow.settleBookings cfg recorded a (Time.sub i.now fs.lastSeen)

def fillBookings (fs : FlowState) (seq : SeqNum) : List Booking :=
  match fs.pending.lookup seq with
  | none   => fs.lateFillBookings seq
  | some _ => []

def evictBookings (seq : SeqNum) (e : GapEntry) : List Booking :=
  if e.speculative then [] else [.unrecovered seq]

def sweepEntryBookings (now : Time) (fs : FlowState) (seq : SeqNum) : List Booking :=
  match fs.pending.lookup seq with
  | none   => []
  | some e => if now > e.deadline ∨ e.failRounds ≥ cfg.maxRetries then evictBookings seq e else []

def sweepEntriesBookings (now : Time) (room : SeqNum → Bool) (fs : FlowState) :
    List SeqNum → List Booking
  | []        => []
  | seq :: ss =>
    fs.sweepEntryBookings cfg now seq ++
      sweepEntriesBookings now room (fs.sweepEntry cfg now (room seq) seq).flow ss

def sweepBookings (now : Time) (room : SeqNum → Bool) (fs : FlowState) : List Booking :=
  (fs.purgeAbandoned now).sweepEntriesBookings cfg now room fs.pending.keys

-- The bookings of an operation on the flow, which is stored under `hk`.
def bookings (hk : HashKey) (recorded : Bool) (fs : FlowState) : Op → List Booking
  | .observe i a =>
    if a.hashKey = hk ∧ a.seqNum ≠ 0 then fs.observeBookings cfg i recorded a else []
  | .fill hk' seq => if hk' = hk ∧ seq ≠ 0 then fs.fillBookings seq else []
  | .sweep now room => fs.sweepBookings cfg now (room hk)
  | .complete _ e (.abandon _) => if e.hashKey = hk then evictBookings e.seqNum e else []
  | _ => []

end FlowState

namespace Tracker

def bookings (cfg : Config) (hk : HashKey) (t : Tracker) (op : Op) : List Booking :=
  (t.flows.lookup hk).elim [] (·.bookings cfg hk t.recorder.isSome op)

-- A step, with the log of the bookings on the flow `hk`.
def logged (cfg : Config) (hk : HashKey) (p : Tracker × List Booking) (op : Op) :
    Tracker × List Booking :=
  (p.1.step cfg op, p.2 ++ p.1.bookings cfg hk op)

end Tracker
end Nack
