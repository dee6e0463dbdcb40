import ShardListener.Nack.Observe

namespace Nack

-- The arguments of `RequestGapsFrom`.
structure Request where
  owner     : Int
  hashKey   : HashKey
  groupIdx  : GroupIdx
  subtreeID : Bytes32
  seqs      : List SeqNum

namespace FlowState

variable (cfg : Config) (i : Instant)

-- The entry `RequestGapsFrom` registers for a SeqNum that is known to be missing.
def requestedGap (fs : FlowState) (hashKey : HashKey) (groupIdx : GroupIdx) (subtreeID : Bytes32)
    (seq : SeqNum) : GapEntry where
  hashKey     := hashKey
  seqNum      := seq
  groupIdx    := groupIdx
  subtreeID   := subtreeID
  source      := fs.source
  nextAttempt := i.now + i.jitter seq
  deadline    := i.now + cfg.gapTTL
  owner       := fs.owner

def requestGaps (fs : FlowState) (hashKey : HashKey) (groupIdx : GroupIdx) (subtreeID : Bytes32) :
    List SeqNum → Effect
  | []        => { flow := fs }
  | seq :: ss =>
    match fs.pending.lookup seq with
    | some _ => requestGaps fs hashKey groupIdx subtreeID ss
    | none   =>
      let e := fs.requestedGap cfg i hashKey groupIdx subtreeID seq
      let r :=
        requestGaps { fs with pending := fs.pending.insert seq e } hashKey groupIdx subtreeID ss
      { r with
        metrics := .gapDetected fs.flowType fs.source :: r.metrics
        queued  := e :: r.queued }

-- `RequestGapsFrom` on the flow. The queue takes the first `room` copies; at the first one it
-- refuses the rest is left to the next sweep.
def request (room : Nat) (fs : FlowState) (q : Request) : Effect :=
  let fs := { fs with owner := if q.owner = ownerUnknown then fs.owner else q.owner }
  let r  := fs.requestGaps cfg i q.hashKey q.groupIdx q.subtreeID q.seqs
  { r with queued := r.queued.take room }

def fill (recorded : Bool) (fs : FlowState) (seqNum : SeqNum) : Effect :=
  (fs.autoFill recorded seqNum).getD (fs.noteLateFill seqNum)

-- Clears the in-flight probe and counts it against the consecutive-miss budget.
def retireProbe (fs : FlowState) (seq : SeqNum) : FlowState :=
  { fs with
    probing     := if fs.probing = seq then 0 else fs.probing
    probeMisses := fs.probeMisses + 1 }

-- Gives up on the stored entry `e`, which the caller has taken out of `pending`.
def evict (now : Time) (fs : FlowState) (seq : SeqNum) (e : GapEntry) (reason : AbandonReason) :
    Effect :=
  let fs := { fs with pending := fs.pending.erase seq }
  if e.speculative then { flow := fs.retireProbe seq }
  else fs.bookAbandon now seq e.source reason

-- The body of the loop of `sweepOnce` over `pending`. `room` says whether the queue takes the copy.
def sweepEntry (now : Time) (room : Bool) (fs : FlowState) (seq : SeqNum) : Effect :=
  match fs.pending.lookup seq with
  | none   => { flow := fs }
  | some e =>
    if now > e.deadline then fs.evict now seq e .ttl
    else if e.failRounds ≥ cfg.maxRetries then fs.evict now seq e .retries
    else if now > e.nextAttempt then
      if room then
        let e := { e with nextAttempt := now + (respTimeout + Time.ms 100) }
        { flow := { fs with pending := fs.pending.insert seq e }, queued := [e] }
      else
        { flow := { fs with pending := fs.pending.insert seq { e with nextAttempt := now } } }
    else { flow := fs }

def sweepEntries (now : Time) (room : SeqNum → Bool) (fs : FlowState) : List SeqNum → Effect
  | []        => { flow := fs }
  | seq :: ss =>
    let b := fs.sweepEntry cfg now (room seq) seq
    let r := sweepEntries now room b.flow ss
    { flow := r.flow, metrics := b.metrics ++ r.metrics, queued := b.queued ++ r.queued }

-- `time.Duration(float64(ewmaIPG) * factor)`, floored at the minimum idle time.
def idleAfter (fs : FlowState) : Duration :=
  max (cfg.idleThreshold fs.ewmaIPG) cfg.minIdle

def wantsProbe (fs : FlowState) (now : Time) : Bool :=
  cfg.tailProbe && fs.probing == 0 && decide (fs.ewmaIPG > 0) &&
    decide (fs.samples ≥ minContiguousForRecover) && decide (fs.probeMisses < cfg.maxMisses) &&
    decide (Time.sub now fs.lastSeen ≥ fs.idleAfter cfg)

def probe (fs : FlowState) (hashKey : HashKey) (now : Time) : GapEntry where
  hashKey     := hashKey
  seqNum      := (fs.lastSeqNum + 1) % 2 ^ 64
  groupIdx    := fs.groupIdx
  subtreeID   := fs.subtreeID
  source      := fs.source
  nextAttempt := now
  deadline    := now + cfg.gapTTL
  speculative := true
  owner       := fs.owner

-- A probe the queue does not take is dropped again, marker included.
def maybeProbeTail (hashKey : HashKey) (now : Time) (room : Bool) (fs : FlowState) : Effect :=
  if fs.wantsProbe cfg now = false then { flow := fs }
  else
    let e    := fs.probe cfg hashKey now
    let sent := [Metric.tailProbeSent (flowLabel fs.groupIdx) fs.source]
    if room then
      { flow    := { fs with probing := e.seqNum, pending := fs.pending.insert e.seqNum e }
        metrics := sent
        queued  := [e] }
    else
      { flow    := { fs with probing := 0, pending := fs.pending.erase e.seqNum }
        metrics := sent }

-- Forgets the abandoned SeqNums whose late-fill window has closed.
def purgeAbandoned (now : Time) (fs : FlowState) : FlowState :=
  { fs with
    abandoned := fs.abandoned.keys.foldl (fun m seq =>
      match m.lookup seq with
      | some at' => if Time.sub now at' > abandonedTTL then m.erase seq else m
      | none     => m) fs.abandoned }

-- One flow of `sweepOnce`, up to the eviction of an idle flow.
def sweep (hashKey : HashKey) (now : Time) (room : SeqNum → Bool) (fs : FlowState) : Effect :=
  let fs := fs.purgeAbandoned now
  let r  := sweepEntries cfg now room fs fs.pending.keys
  if r.flow.pending.size = 0 then
    let p := r.flow.maybeProbeTail cfg hashKey now (room ((r.flow.lastSeqNum + 1) % 2 ^ 64))
    { flow := p.flow, metrics := r.metrics ++ p.metrics, queued := r.queued ++ p.queued }
  else r

def idle (fs : FlowState) (now : Time) : Prop :=
  fs.pending.size = 0 ∧ Time.sub now fs.lastSeen > cfg.flowTTL

instance {fs : FlowState} {now : Time} : Decidable (fs.idle cfg now) :=
  inferInstanceAs (Decidable (_ ∧ _))

-- The completions of a NACK act on the flow of the entry copy `e` taken at dispatch.

def cancelGap (recorded : Bool) (fs : FlowState) (e : GapEntry) : Effect :=
  (fs.autoFill recorded e.seqNum).getD { flow := fs }

def abandonGap (now : Time) (fs : FlowState) (e : GapEntry) (reason : AbandonReason) : Effect :=
  let fs :=
    { fs with
      pending := fs.pending.erase e.seqNum
      probing := if fs.probing = e.seqNum then 0 else fs.probing }
  if e.speculative then { flow := fs }
  else fs.bookAbandon now e.seqNum fs.source reason

def probeMissed (fs : FlowState) (e : GapEntry) : Effect where
  flow    := { fs with pending := fs.pending.erase e.seqNum }.retireProbe e.seqNum
  metrics := [.tailProbeMiss (flowLabel fs.groupIdx) fs.source]

-- `BackoffBase << uint(failRounds-1)` in `int64`, capped, with the overflow guard.
def backoff (failRounds : Nat) : Duration :=
  let b := toInt64 (cfg.backoffBase * 2 ^ (failRounds - 1))
  if b > cfg.backoffMax ∨ b ≤ 0 then cfg.backoffMax else b

def advanceEntry (immediate : Bool) (numEndpoints : Nat) (e : GapEntry) : GapEntry :=
  let e := { e with retries := e.retries + 1, endpointIdx := e.endpointIdx + 1 }
  let exhausted := numEndpoints > 0 ∧ e.endpointIdx ≥ numEndpoints
  if immediate ∧ ¬exhausted then
    { e with failRounds := 0, nextAttempt := i.now }
  else
    let e    := { e with failRounds := e.failRounds + 1 }
    let half := (backoff cfg e.failRounds).tdiv 2
    { e with nextAttempt := i.now + (half + i.jitter e.seqNum) }

def advanceEndpoint (fs : FlowState) (e : GapEntry) (immediate : Bool) (numEndpoints : Nat) :
    Effect :=
  match fs.pending.lookup e.seqNum with
  | none        => { flow := fs }
  | some stored =>
    let stored := advanceEntry cfg i immediate numEndpoints stored
    { flow := { fs with pending := fs.pending.insert e.seqNum stored } }

-- `throttleHintBase << bucket`, capped at the maximal backoff.
def throttleHold (flags : UInt8) : Duration :=
  let hold := toInt64 (Time.ms 125 * 2 ^ (flags &&& 0x0F).toNat)
  if hold > cfg.backoffMax ∨ hold ≤ 0 then cfg.backoffMax else hold

def throttleGap (fs : FlowState) (e : GapEntry) (flags : UInt8) : Effect :=
  match fs.pending.lookup e.seqNum with
  | none        => { flow := fs }
  | some stored =>
    let wait   := (throttleHold cfg flags).tdiv 2 + i.jitter e.seqNum
    let stored := { stored with retries := stored.retries + 1, nextAttempt := i.now + wait }
    { flow    := { fs with pending := fs.pending.insert e.seqNum stored }
      metrics := [.nackThrottled (flowLabel e.groupIdx) e.source] }

end FlowState

namespace Tracker

variable (cfg : Config) (i : Instant)

def requestGapsFrom (room : Nat) (t : Tracker) (q : Request) : Tracker :=
  if q.seqs = [] then t
  else
    match t.flows.lookup q.hashKey with
    | some fs => t.put q.hashKey (fs.request cfg i room q)
    | none    =>
      if t.full cfg then t
      else
        let fs := { FlowState.new q.groupIdx q.subtreeID with lastSeen := i.now }
        t.put q.hashKey (fs.request cfg i room q)

-- Applies an operation to a flow; a flow that is not tracked (any more) is left alone.
def onFlow (t : Tracker) (hk : HashKey) (op : FlowState → Effect) : Tracker :=
  match t.flows.lookup hk with
  | none    => t
  | some fs => t.put hk (op fs)

def fill (t : Tracker) (hashKey : HashKey) (seqNum : SeqNum) : Tracker :=
  if seqNum = 0 then t else t.onFlow hashKey (·.fill t.recorder.isSome seqNum)

def sweepFlow (now : Time) (room : HashKey → SeqNum → Bool) (t : Tracker) (hk : HashKey) :
    Tracker :=
  let t := t.onFlow hk (·.sweep cfg hk now (room hk))
  match t.flows.lookup hk with
  | none    => t
  | some fs => if fs.idle cfg now then { t with flows := t.flows.erase hk } else t

def sweepOnce (now : Time) (room : HashKey → SeqNum → Bool) (t : Tracker) : Tracker :=
  t.flows.keys.foldl (sweepFlow cfg now room) t

def cancelGap (t : Tracker) (e : GapEntry) : Tracker :=
  t.onFlow e.hashKey (·.cancelGap t.recorder.isSome e)

def abandonGap (now : Time) (t : Tracker) (e : GapEntry) (reason : AbandonReason) : Tracker :=
  t.onFlow e.hashKey (·.abandonGap now e reason)

def probeMissed (t : Tracker) (e : GapEntry) : Tracker :=
  t.onFlow e.hashKey (·.probeMissed e)

def advanceEndpoint (t : Tracker) (e : GapEntry) (immediate : Bool) (numEndpoints : Nat) :
    Tracker :=
  t.onFlow e.hashKey (·.advanceEndpoint cfg i e immediate numEndpoints)

def throttleGap (t : Tracker) (e : GapEntry) (flags : UInt8) : Tracker :=
  t.onFlow e.hashKey (·.throttleGap cfg i e flags)

-- Whether any of `seqs` is still a pending gap of the flow.
def pending (t : Tracker) (hashKey : HashKey) (seqs : List SeqNum) : Bool :=
  match t.flows.lookup hashKey with
  | none    => false
  | some fs => seqs.any fun seq => (fs.pending.lookup seq).isSome

end Tracker
end Nack
