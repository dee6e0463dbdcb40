import ShardListener.Extensions.Dict
import ShardListener.Objects.Basic

namespace Nack

-- The tuning parameters of the gap tracker (`TrackerConfig`).
structure Config where
  jitterMax          : Duration
  backoffBase        : Duration
  backoffMax         : Duration
  maxRetries         : Int
  gapTTL             : Duration
  tailTTL            : Duration
  seqResetThreshold  : SeqNum
  maxFlows           : Int
  maxForwardJump     : Nat
  tailProbe          : Bool
  -- `time.Duration(float64(ipg) * factor)` for the configured (or default) idle factor. The
  -- multiplication is in floating point, so it stays a parameter.
  idleThreshold      : Duration → Duration
  tailProbeMinIdle   : Duration
  tailProbeMaxMisses : Int

namespace Config

-- The guard of `New` against a zero backoff base.
def new (cfg : Config) : Config :=
  if cfg.backoffBase ≤ 0 then { cfg with backoffBase := Time.ms 500 } else cfg

-- The defaults of the command line flags.
def default : Config where
  jitterMax          := Time.ms 200
  backoffBase        := Time.ms 500
  backoffMax         := Time.ms 5000
  maxRetries         := 5
  gapTTL             := Time.ms 600000
  tailTTL            := 0
  seqResetThreshold  := 0
  maxFlows           := 100000
  maxForwardJump     := 4096
  tailProbe          := true
  idleThreshold      := (· * 4)
  tailProbeMinIdle   := Time.ms 500
  tailProbeMaxMisses := 3

def resetThreshold (cfg : Config) : SeqNum :=
  if cfg.seqResetThreshold = 0 then 100 else cfg.seqResetThreshold

def maxJump (cfg : Config) : Nat :=
  if cfg.maxForwardJump = 0 then 4096 else cfg.maxForwardJump

def flowTTL (cfg : Config) : Duration :=
  if cfg.tailTTL ≤ 0 then cfg.gapTTL else cfg.tailTTL

def maxMisses (cfg : Config) : Int :=
  if cfg.tailProbeMaxMisses ≤ 0 then 3 else cfg.tailProbeMaxMisses

def minIdle (cfg : Config) : Duration :=
  if cfg.tailProbeMinIdle ≤ 0 then Time.ms 500 else cfg.tailProbeMinIdle

end Config

-- The deadline for a response to one NACK (`defaultRespTimeout`).
def respTimeout : Duration :=
  Time.ms 300

def minContiguousForRecover : Nat :=
  16

def abandonedTTL : Duration :=
  Time.ms 120000

def abandonedMax : Nat :=
  4096

-- The worker id of a flow whose observing worker is not known.
def ownerUnknown : Int :=
  -1

inductive FlowLabel
  | brc124 | brc131 | brc132 | brc133 | brc134 | brc148
deriving DecidableEq

def flowLabel (groupIdx : GroupIdx) : FlowLabel :=
  if groupIdx = 0xFFFE then .brc131
  else if groupIdx = 0xFFFB then .brc132
  else if groupIdx = 0xFFF8 then .brc133
  else if groupIdx = 0xFFF9 then .brc134
  else if 0x1000 ≤ groupIdx ∧ groupIdx ≤ 0x1FFF then .brc148
  else .brc124

inductive AbandonReason
  | ttl | retries | restart | rejected | noRecover
deriving DecidableEq

-- The calls the tracker makes on the metrics recorder, with their labels.
inductive Metric
  | gapDetected        (flow : FlowLabel) (src : Option IP)
  | gapSuppressed      (flow : FlowLabel) (src : Option IP)
  | gapUnrecovered     (flow : FlowLabel) (src : Option IP)
  | gapAbandoned       (flow : FlowLabel) (src : Option IP) (reason : AbandonReason)
  | gapLateFilled      (flow : FlowLabel) (src : Option IP)
  | flowsRefused       (flow : FlowLabel)
  | seqRebaselined     (flow : FlowLabel) (src : Option IP)
  | tailProbeSent      (flow : FlowLabel) (src : Option IP)
  | tailProbeRecovered (flow : FlowLabel) (src : Option IP)
  | tailProbeMiss      (flow : FlowLabel) (src : Option IP)
  | nackThrottled      (flow : FlowLabel) (src : Option IP)
deriving DecidableEq

-- The retry state of a single missing frame.
structure GapEntry where
  hashKey     : HashKey
  seqNum      : SeqNum
  groupIdx    : GroupIdx
  subtreeID   : Bytes32
  source      : Option IP
  retries     : Nat := 0
  failRounds  : Nat := 0
  nextAttempt : Time
  deadline    : Time
  endpointIdx : Nat := 0
  speculative : Bool := false
  owner       : Int
deriving DecidableEq

-- One per-flow sequence stream.
structure FlowState where
  lastSeqNum  : SeqNum := 0
  groupIdx    : GroupIdx
  subtreeID   : Bytes32
  flowType    : FlowLabel
  source      : Option IP := none
  pending     : Dict SeqNum GapEntry := ∅
  lastSeen    : Time := Time.zero
  abandoned   : Dict SeqNum Time := ∅
  ewmaIPG     : Duration := 0
  contiguous  : Nat := 0
  samples     : Nat := 0
  probeMisses : Int := 0
  probing     : SeqNum := 0
  owner       : Int := ownerUnknown

def FlowState.new (groupIdx : GroupIdx) (subtreeID : Bytes32) : FlowState where
  groupIdx  := groupIdx
  subtreeID := subtreeID
  flowType  := flowLabel groupIdx

-- What an operation does to one flow: the new flow state, the recorder calls in their order and the
-- entry copies it puts on the NACK queue.
structure Effect where
  flow    : FlowState
  metrics : List Metric := []
  queued  : List GapEntry := []

-- The gap state machine. `recorder` holds the recorder calls made so far (`none` for a nil
-- recorder); `inFlight` holds the entry copies that are queued or with a `sendNACK` goroutine.
structure Tracker where
  flows        : Dict HashKey FlowState := ∅
  flowsRefused : Nat := 0
  recorder     : Option (List Metric) := some []
  inFlight     : List GapEntry := []

namespace Tracker

def emit (t : Tracker) (ms : List Metric) : Tracker :=
  { t with recorder := t.recorder.map (· ++ ms) }

-- Stores the effect of an operation on the flow `hk`.
def put (t : Tracker) (hk : HashKey) (e : Effect) : Tracker :=
  { t with flows := t.flows.insert hk e.flow, inFlight := t.inFlight ++ e.queued }.emit e.metrics

def full (cfg : Config) (t : Tracker) : Prop :=
  cfg.maxFlows > 0 ∧ (t.flows.size : Int) ≥ cfg.maxFlows

instance {cfg : Config} {t : Tracker} : Decidable (t.full cfg) :=
  inferInstanceAs (Decidable (_ ∧ _))

end Tracker
end Nack
