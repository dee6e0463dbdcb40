import ShardListener.Extensions.Dict
import ShardListener.Reassembly.Slot

namespace Reassembly

inductive AbandonReason
  | expired | repairTimeout | capacity
deriving DecidableEq

-- The metrics hooks, without those that no code of the package calls.
inductive Metric
  | started | abandoned | abandonedReason (reason : AbandonReason) | extended | lateDone
  | hashMismatch | lateFragment | badFragment | oversize
deriving DecidableEq

structure Config where
  maxSlots      : Nat
  ttl           : Duration
  verifyHash    : Bool
  maxAge        : Duration
  completionTTL : Duration
  evictEvery    : Duration
  maxObject     : Int
  maxObjectV9   : Int

-- The settings of a buffer right after `New`.
def Config.new (maxSlots : Int) (ttl : Duration) (verifyHash : Bool) : Config where
  maxSlots      := if maxSlots ≤ 0 then 4096 else maxSlots.toNat
  ttl           := if ttl ≤ 0 then Time.ms 10000 else ttl
  verifyHash    := verifyHash
  maxAge        := Time.ms 120000
  completionTTL := Time.ms 60000
  evictEvery    := Time.ms 50
  maxObject     := 64 * 2 ^ 20
  maxObjectV9   := 0

-- The fragments an incomplete slot asks for.
structure Incomplete where
  hashKey   : HashKey
  groupIdx  : GroupIdx
  subtreeID : Bytes32
  missing   : List SeqNum
deriving DecidableEq

-- The callbacks of a buffer, over the state `ω` of what they belong to. Each gets the clock reading
-- of the call it is made in. A callback that is not installed does nothing; where the buffer tests
-- whether it is installed and acts otherwise, it is an `Option`.
structure Hooks (ω : Type) where
  metric              : Metric → ω → ω
  onComplete          : Instant → Frame → ω → ω
  onCompleteBlock     : Instant → BlockFrame → ω → ω
  onCompleteSubtree   : Instant → SubtreeDataFrame → ω → ω
  onCompleteBEEF      : Instant → BEEFFrame → ω → ω
  onCompleteBEEFFrame : Option (Instant → Bytes → BEEFFrame → ω → ω)
  onIncomplete        : Instant → Incomplete → ω → ω
  repairPending       : Option (ω → HashKey → List SeqNum → Bool)
  groupIdxFn          : FragFrame → GroupIdx

-- Hands a completed object to the callback of its class.
def Hooks.deliver {ω : Type} (fmt : Formats) (h : Hooks ω) (i : Instant) : Delivery → ω → ω
  | .tx f          => h.onComplete i f
  | .block f       => h.onCompleteBlock i f
  | .subtreeData f => h.onCompleteSubtree i f
  | .beef f        =>
    match h.onCompleteBEEFFrame with
    | some cb => cb i (Slot.whole fmt f.payload) f
    | none    => h.onCompleteBEEF i f

structure Buffer where
  slots       : Dict Bytes32 Slot := ∅
  lastEvict   : Time := Time.zero
  insertOrder : List Bytes32 := []
  done        : Dict Bytes32 Time := ∅
  doneOrder   : List Bytes32 := []

namespace Buffer

def removeSlot (b : Buffer) (key : Bytes32) : Buffer :=
  { b with slots := b.slots.erase key }

def putSlot (b : Buffer) (key : Bytes32) (s : Slot) : Buffer :=
  { b with slots := b.slots.insert key s }

-- Records a terminal slot key. The memory is bounded like the slot table.
def markDone (cfg : Config) (now : Time) (b : Buffer) (key : Bytes32) : Buffer :=
  let b :=
    if key ∈ b.done then b
    else
      let b :=
        match b.doneOrder with
        | oldest :: rest =>
          if cfg.maxSlots ≤ b.done.size then
            { b with done := b.done.erase oldest, doneOrder := rest }
          else b
        | [] => b
      { b with doneOrder := b.doneOrder ++ [key] }
  { b with done := b.done.insert key (now + cfg.completionTTL) }

-- One turn of the loop of `sweepDone`: the memory of a key goes when its window has closed.
def forget (now : Time) (done : Dict Bytes32 Time) (key : Bytes32) : Dict Bytes32 Time :=
  match done.lookup key with
  | none     => done
  | some exp => if exp < now then done.erase key else done

def sweepDone (now : Time) (b : Buffer) : Buffer :=
  if b.done.size = 0 then b
  else
    let done := b.doneOrder.foldl (forget now) b.done
    { b with done := done, doneOrder := b.doneOrder.filter (· ∈ done) }

variable {ω : Type} (fmt : Formats) (cfg : Config) (h : Hooks ω)

def abandon (p : Buffer × ω) (key : Bytes32) (reason : AbandonReason) : Buffer × ω :=
  (p.1.removeSlot key, h.metric (.abandonedReason reason) (h.metric .abandoned p.2))

def incomplete (s : Slot) (missing : List SeqNum) : Incomplete where
  hashKey   := s.hashKey
  groupIdx  := s.groupIdx
  subtreeID := s.subtreeID
  missing   := missing

def notifyIncomplete (i : Instant) (s : Slot) (w : ω) : ω :=
  if s.missingSeqNums = [] then w else h.onIncomplete i (incomplete s s.missingSeqNums) w

-- The first expiry of a slot asks for every missing fragment.
def request (i : Instant) (limit : Time) (s : Slot) (w : ω) : Slot × ω :=
  if ¬s.requested ∧ i.now < limit then
    ({ s with requested := true }, h.onIncomplete i (incomplete s s.missingSeqNums) w)
  else (s, w)

-- The slot is held: its deadline moves out by one TTL, never past `limit`.
def hold (i : Instant) (limit : Time) (s : Slot) (w : ω) : Slot × ω :=
  ({ s with deadline := min (i.now + cfg.ttl) limit, extended := true },
    if s.extended then w else h.metric .extended w)

-- Decides at TTL expiry under a repair wait whether the slot is kept, or for what reason it is not.
def holdForRepair (pending : ω → HashKey → List SeqNum → Bool) (i : Instant) (p : Buffer × ω)
    (key : Bytes32) (s : Slot) : Buffer × ω :=
  let missing := s.missingSeqNums
  if missing = [] then abandon h p key .expired
  else
    let limit := s.born + cfg.maxAge
    let asked := request h i limit s p.2
    if pending asked.2 s.hashKey missing then
      if limit ≤ i.now then abandon h (p.1, asked.2) key .repairTimeout
      else
        let kept := hold cfg h i limit asked.1 asked.2
        (p.1.putSlot key kept.1, kept.2)
    else abandon h (p.1, asked.2) key .expired

-- One turn of the loop of `evictExpired`.
def expire (i : Instant) (p : Buffer × ω) (key : Bytes32) : Buffer × ω :=
  match p.1.slots.lookup key with
  | none   => p
  | some s =>
    if i.now ≤ s.deadline then p
    else match h.repairPending with
      | none         => abandon h (p.1, notifyIncomplete h i s p.2) key .expired
      | some pending => holdForRepair cfg h pending i p key s

def compact (b : Buffer) : Buffer :=
  { b with insertOrder := b.insertOrder.filter (· ∈ b.slots) }

def evictExpired (i : Instant) (p : Buffer × ω) : Buffer × ω :=
  let p := p.1.insertOrder.foldl (expire cfg h i) (p.1.sweepDone i.now, p.2)
  (p.1.compact, p.2)

-- The capacity eviction takes the oldest live slot, and one occurrence of its key out of the order.
def evictOldest (p : Buffer × ω) : Buffer × ω :=
  match p.1.insertOrder.find? (· ∈ p.1.slots) with
  | none     => p
  | some key =>
    let p := abandon h p key .capacity
    ({ p.1 with insertOrder := p.1.insertOrder.erase key }, p.2)

-- Assembles the payload of a slot that has all its fragments, and hands it on by the class of the
-- object. Every outcome is terminal for the object.
def complete (i : Instant) (p : Buffer × ω) (s : Slot) : Buffer × ω :=
  let b := (p.1.markDone cfg i.now s.key).removeSlot s.key
  let w := if s.extended then h.metric .lateDone p.2 else p.2
  let payload := s.payload.getD s.assembled
  if cfg.verifyHash ∧ ¬verified fmt s.origFrameVer s.txID payload then (b, h.metric .hashMismatch w)
  else (b, h.deliver fmt i (s.delivery payload) w)

-- What `Observe` does with a fragment once its slot `s` is there.
def accept (i : Instant) (ff : FragFrame) (p : Buffer × ω) (s : Slot) : Buffer × ω :=
  if ff.fragTotal ≠ s.fragTotal ∨ s.fragTotal ≤ ff.fragIndex then p
  else if s.held[ff.fragIndex]? = some true then p
  else match s.checkFragLen ff with
    | none      => (p.1.removeSlot s.key, h.metric .badFragment p.2)
    | some size =>
      let s := s.receive size ff
      if s.received < s.fragTotal then (p.1.putSlot s.key s, p.2) else complete fmt cfg h i p s

-- The bound on the declared length of an object. A BEEF payload may exceed the bound on the object
-- by the envelope of its record.
def maxObj (origFrameVer : UInt8) : Int :=
  if origFrameVer = FrameVer.v9 ∧ 0 < cfg.maxObjectV9 then
    cfg.maxObjectV9 + fmt.beefRecordMaxEnvelope
  else cfg.maxObject

def oversize (ff : FragFrame) : Prop :=
  0 < maxObj fmt cfg ff.origFrameVer ∧ maxObj fmt cfg ff.origFrameVer < ff.origPayloadLen

instance {ff : FragFrame} : Decidable (oversize fmt cfg ff) :=
  inferInstanceAs (Decidable (_ ∧ _))

def newSlot (i : Instant) (key : Bytes32) (ff : FragFrame) : Slot where
  key            := key
  txID           := ff.txID
  subtreeID      := ff.subtreeID
  hashKey        := ff.hashKey
  seqNum         := ff.seqNum
  origPayloadLen := ff.origPayloadLen
  fragTotal      := ff.fragTotal
  held           := List.replicate ff.fragTotal false
  fragSeq        := List.replicate ff.fragTotal 0
  groupIdx       := h.groupIdxFn ff
  deadline       := i.now + cfg.ttl
  born           := i.now
  origFrameVer   := ff.origFrameVer
  msgType        := ff.msgType

-- Opens a slot for the first fragment of an object.
def openSlot (i : Instant) (key : Bytes32) (ff : FragFrame) (p : Buffer × ω) : Buffer × ω :=
  let p := if cfg.maxSlots ≤ p.1.slots.size then evictOldest h p else p
  let b := p.1.putSlot key (newSlot cfg h i key ff)
  ({ b with insertOrder := b.insertOrder ++ [key] }, h.metric .started p.2)

-- How often `Observe` sweeps.
def sweepEvery : Duration :=
  if 0 < cfg.ttl ∧ cfg.ttl.tdiv 2 < cfg.evictEvery then cfg.ttl.tdiv 2 else cfg.evictEvery

def sweepIfDue (i : Instant) (p : Buffer × ω) : Buffer × ω :=
  if sweepEvery cfg ≤ Time.sub i.now p.1.lastEvict then
    let p := evictExpired cfg h i p
    ({ p.1 with lastEvict := i.now }, p.2)
  else p

-- What `Observe` does with a fragment after the sweep. The addition on the declared length is in
-- 32 bits.
def gather (i : Instant) (ff : FragFrame) (p : Buffer × ω) : Buffer × ω :=
  let key := slotKey fmt ff
  match p.1.slots.lookup key with
  | some s => accept fmt cfg h i ff p s
  | none   =>
    if key ∈ p.1.done then (p.1, h.metric .lateFragment p.2)
    else if ff.fragTotal = 0 ∨ ff.fragTotal ≤ ff.fragIndex then p
    else if ff.origPayloadLen = 0 ∨ (ff.origPayloadLen + 1) % 2 ^ 32 < ff.fragTotal then p
    else if oversize fmt cfg ff then (p.1, h.metric .oversize p.2)
    else accept fmt cfg h i ff (openSlot cfg h i key ff p) (newSlot cfg h i key ff)

def observe (i : Instant) (p : Buffer × ω) (ff : FragFrame) : Buffer × ω :=
  gather fmt cfg h i ff (sweepIfDue cfg h i p)

def tick (i : Instant) (p : Buffer × ω) : Buffer × ω :=
  evictExpired cfg h i p

def purge (p : Buffer × ω) : Buffer × ω :=
  ({ lastEvict := p.1.lastEvict }, p.1.slots.keys.foldl (fun w _ => h.metric .abandoned w) p.2)

end Buffer

inductive Op
  | observe (i : Instant) (ff : FragFrame)
  | tick (i : Instant)
  | purge

variable {ω : Type}

def step (fmt : Formats) (cfg : Config) (h : Hooks ω) (p : Buffer × ω) : Op → Buffer × ω
  | .observe i ff => Buffer.observe fmt cfg h i p ff
  | .tick i       => Buffer.tick cfg h i p
  | .purge        => Buffer.purge h p

end Reassembly
