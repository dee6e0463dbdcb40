import ShardListener.Nack.State

namespace Nack

-- The arguments of `ObserveFrom`. The txid argument is not read by the tracker.
structure Arrival where
  owner     : Int
  groupIdx  : GroupIdx
  subtreeID : Bytes32
  hashKey   : HashKey
  seqNum    : SeqNum
  source    : Option IP

namespace FlowState

variable (cfg : Config) (i : Instant)

-- Without a recorder `bookFill` returns before it resets `probeMisses`.
def bookFill (recorded : Bool) (fs : FlowState) (e : GapEntry) : Effect :=
  let fs := { fs with probing := if fs.probing = e.seqNum then 0 else fs.probing }
  if recorded = false then
    { flow := fs }
  else if e.speculative then
    { flow    := { fs with probeMisses := 0 }
      metrics := [.tailProbeRecovered fs.flowType fs.source, .gapDetected fs.flowType fs.source,
        .gapSuppressed fs.flowType fs.source] }
  else
    { flow := fs, metrics := [.gapSuppressed fs.flowType fs.source] }

def bookAbandon (now : Time) (fs : FlowState) (seq : SeqNum) (src : Option IP)
    (reason : AbandonReason) : Effect where
  flow :=
    if fs.abandoned.size < abandonedMax then { fs with abandoned := fs.abandoned.insert seq now }
    else fs
  metrics := [.gapUnrecovered fs.flowType src, .gapAbandoned fs.flowType src reason]

def noteLateFill (fs : FlowState) (seq : SeqNum) : Effect :=
  match fs.abandoned.lookup seq with
  | none   => { flow := fs }
  | some _ =>
    { flow    := { fs with abandoned := fs.abandoned.erase seq }
      metrics := [.gapLateFilled fs.flowType fs.source] }

-- How the ladder of `ObserveFrom` treats a frame that step 3 did not finish.
inductive Verdict
  | first | stale | restart | contiguous | emitterChange | gap
deriving DecidableEq

-- The frames a silence of `elapsed` misses at the flow's rate: `uint64(elapsed / ewmaIPG)`.
def expected (fs : FlowState) (elapsed : Duration) : Nat :=
  toUint64 (elapsed.tdiv fs.ewmaIPG)

def missing (fs : FlowState) (seqNum : SeqNum) : Nat :=
  seqNum - fs.lastSeqNum - 1

def implausibleJump (fs : FlowState) (elapsed : Duration) (seqNum : SeqNum) : Bool :=
  if fs.missing seqNum > cfg.maxJump then true
  else if fs.ewmaIPG > 0 ∧ fs.missing seqNum > 64 then
    fs.missing seqNum > 4 * (fs.expected elapsed + 1) % 2 ^ 64
  else false

def verdict (fs : FlowState) (elapsed : Duration) (seqNum : SeqNum) (live : Bool) : Verdict :=
  if fs.lastSeqNum = 0 then .first
  else if seqNum ≤ fs.lastSeqNum then
    if live ∧ seqNum ≤ cfg.resetThreshold ∧ cfg.resetThreshold < fs.lastSeqNum then .restart
    else .stale
  else if seqNum = fs.lastSeqNum + 1 then .contiguous
  else if fs.implausibleJump cfg elapsed seqNum then .emitterChange
  else .gap

-- Proxy restart: the pending gaps of the previous proxy lifetime are booked unrecovered.
def flushRestart (now : Time) (fs : FlowState) : List (Sigma fun _ : SeqNum => GapEntry) → Effect
  | []             => { flow := fs }
  | ⟨seq, e⟩ :: es =>
    if e.speculative then flushRestart now fs es
    else
      let b := fs.bookAbandon now seq fs.source .restart
      let r := flushRestart now b.flow es
      { r with metrics := b.metrics ++ r.metrics }

def restart (now : Time) (fs : FlowState) (seqNum : SeqNum) : Effect :=
  let r := fs.flushRestart now fs.pending.entries
  { r with flow := { r.flow with pending := ∅, lastSeqNum := seqNum } }

-- The smoothed inter-arrival estimate after a contiguous frame (EWMA, α = 1/8).
def nextIPG (ewmaIPG elapsed : Duration) : Duration :=
  if elapsed > 0 then
    if ewmaIPG = 0 then elapsed else ewmaIPG + (elapsed - ewmaIPG).tdiv 8
  else ewmaIPG

def advance (fs : FlowState) (elapsed : Duration) (seqNum : SeqNum) : FlowState :=
  { fs with
    ewmaIPG    := nextIPG fs.ewmaIPG elapsed
    lastSeqNum := seqNum
    contiguous := fs.contiguous + 1
    samples    := fs.samples + 1 }

-- The entry registered for the missing SeqNum `m` when the frame `a` reveals it.
def newGap (fs : FlowState) (a : Arrival) (m : SeqNum) : GapEntry where
  hashKey     := a.hashKey
  seqNum      := m
  groupIdx    := a.groupIdx
  subtreeID   := a.subtreeID
  source      := a.source
  nextAttempt := i.now + i.jitter m
  deadline    := i.now + cfg.gapTTL
  owner       := fs.owner

-- The transition tail a re-baseline asks for: how many SeqNums right below `seqNum`.
def tail (fs : FlowState) (elapsed : Duration) (seqNum : SeqNum) : Nat :=
  if fs.ewmaIPG > 0 ∧ minContiguousForRecover ≤ fs.contiguous then
    min (min (fs.expected elapsed) (fs.missing seqNum)) cfg.maxJump
  else 0

def registerTail (fs : FlowState) (a : Arrival) : List SeqNum → Effect
  | []      => { flow := fs }
  | m :: ms =>
    let r := registerTail { fs with pending := fs.pending.insert m (fs.newGap cfg i a m) } a ms
    { r with metrics := .gapDetected fs.flowType a.source :: r.metrics }

def rebaseline (fs : FlowState) (a : Arrival) (elapsed : Duration) : Effect :=
  let n := fs.tail cfg elapsed a.seqNum
  let r := registerTail cfg i { fs with pending := ∅ } a (List.range' (a.seqNum - n) n)
  { flow :=
      { r.flow with lastSeqNum := a.seqNum, ewmaIPG := 0, contiguous := 0, samples := 0 }
    metrics := r.metrics ++ [.seqRebaselined fs.flowType fs.source] }

-- Step 6: registers the SeqNums that are not pending yet; a pending one is left as it is.
def registerGaps (fs : FlowState) (a : Arrival) : List SeqNum → Effect
  | []      => { flow := fs }
  | m :: ms =>
    match fs.pending.lookup m with
    | some _ => registerGaps fs a ms
    | none   =>
      let r := registerGaps { fs with pending := fs.pending.insert m (fs.newGap cfg i a m) } a ms
      { r with metrics := .gapDetected fs.flowType a.source :: r.metrics }

def openGap (fs : FlowState) (a : Arrival) : Effect :=
  let ms := List.range' (fs.lastSeqNum + 1) (fs.missing a.seqNum)
  let r  := registerGaps cfg i fs a ms
  { r with flow := { r.flow with lastSeqNum := a.seqNum, contiguous := 0 } }

-- The ladder below step 3.
def ladder (fs : FlowState) (a : Arrival) (elapsed : Duration) : Effect :=
  match fs.verdict cfg elapsed a.seqNum a.source.isSome with
  | .first         => { flow := { fs with lastSeqNum := a.seqNum } }
  | .stale         => { flow := fs }
  | .restart       => fs.restart i.now a.seqNum
  | .contiguous    => { flow := fs.advance elapsed a.seqNum }
  | .emitterChange => fs.rebaseline cfg i a elapsed
  | .gap           => fs.openGap cfg i a

-- What every frame of the flow updates before it is classified.
def touch (fs : FlowState) (now : Time) (a : Arrival) : FlowState :=
  { fs with
    owner       := if a.owner = ownerUnknown then fs.owner else a.owner
    lastSeen    := now
    probeMisses := 0
    source      := a.source.or fs.source }

-- Step 3: closes the pending gap of the frame's own SeqNum.
def autoFill (recorded : Bool) (fs : FlowState) (seqNum : SeqNum) : Option Effect :=
  (fs.pending.lookup seqNum).map fun e =>
    bookFill recorded { fs with pending := fs.pending.erase seqNum } e

-- `ObserveFrom` on the frame's flow, from the touched and late-fill-booked flow on.
def settle (recorded : Bool) (fs : FlowState) (a : Arrival) (elapsed : Duration) : Effect :=
  match fs.autoFill recorded a.seqNum with
  | none   => fs.ladder cfg i a elapsed
  | some r =>
    if a.seqNum ≤ r.flow.lastSeqNum then r
    else
      let l := r.flow.ladder cfg i a elapsed
      { l with metrics := r.metrics ++ l.metrics }

def observe (recorded : Bool) (fs : FlowState) (a : Arrival) : Effect :=
  let late := (fs.touch i.now a).noteLateFill a.seqNum
  let r    := late.flow.settle cfg i recorded a (Time.sub i.now fs.lastSeen)
  { r with metrics := late.metrics ++ r.metrics }

end FlowState

-- `ObserveFrom`. At the flow cap a new source is refused and its frames are not tracked.
def Tracker.observeFrom (cfg : Config) (i : Instant) (t : Tracker) (a : Arrival) : Tracker :=
  if a.seqNum = 0 then t
  else
    match t.flows.lookup a.hashKey with
    | some fs => t.put a.hashKey (fs.observe cfg i t.recorder.isSome a)
    | none    =>
      if t.full cfg then
        { t with flowsRefused := t.flowsRefused + 1 }.emit [.flowsRefused (flowLabel a.groupIdx)]
      else
        let fs := FlowState.new a.groupIdx a.subtreeID
        t.put a.hashKey (fs.observe cfg i t.recorder.isSome a)

-- `Observe`: the entry point that names no worker.
def Tracker.observe (cfg : Config) (i : Instant) (t : Tracker) (a : Arrival) : Tracker :=
  t.observeFrom cfg i { a with owner := ownerUnknown }

end Nack
