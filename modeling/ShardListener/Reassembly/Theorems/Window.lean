import ShardListener.Reassembly.Theorems.Exact
import ShardListener.Reassembly.Theorems.Memory
import ShardListener.Reassembly.Theorems.Requests

namespace Reassembly

-- A call of a delivery callback, or of the hook for incomplete slots.
inductive Call
  | complete (d : Delivery)
  | incomplete (q : Incomplete)
deriving DecidableEq

-- The callbacks with a log of these calls.
def Hooks.logged {ω : Type} (h : Hooks ω) : Hooks (ω × List Call) where
  metric m w              := (h.metric m w.1, w.2)
  onComplete i f w        := (h.onComplete i f w.1, w.2 ++ [.complete (.tx f)])
  onCompleteBlock i f w   := (h.onCompleteBlock i f w.1, w.2 ++ [.complete (.block f)])
  onCompleteSubtree i f w := (h.onCompleteSubtree i f w.1, w.2 ++ [.complete (.subtreeData f)])
  onCompleteBEEF i f w    := (h.onCompleteBEEF i f w.1, w.2 ++ [.complete (.beef f)])
  onCompleteBEEFFrame     := h.onCompleteBEEFFrame.map fun cb i whole f w =>
    (cb i whole f w.1, w.2 ++ [.complete (.beef f)])
  onIncomplete i q w      := (h.onIncomplete i q w.1, w.2 ++ [.incomplete q])
  repairPending           := h.repairPending.map fun pending w => pending w.1
  groupIdxFn              := h.groupIdxFn

theorem Hooks.logged_deliver {ω : Type} {h : Hooks ω} {fmt : Formats} {i : Instant} {d : Delivery}
    {w : ω × List Call} :
    h.logged.deliver fmt i d w = (h.deliver fmt i d w.1, w.2 ++ [.complete d]) := by
  cases d
  case beef f => cases hb : h.onCompleteBEEFFrame <;> simp [deliver, logged, hb]
  all_goals rfl

-- The call is made for the object with the key.
def Call.Of (fmt : Formats) (b : Buffer) (key : Bytes32) : Call → Prop
  | .complete d   => d.key fmt = key
  | .incomplete q => ∃ s ∈ b.slots.lookup key, q = Buffer.incomplete s s.missingSeqNums

-- The slot is one of the object with the key.
def Slot.Named (fmt : Formats) (key : Bytes32) (s : Slot) : Prop :=
  ∀ payload, (s.delivery payload).key fmt = key

namespace Slot.Named

variable {ω : Type} {fmt : Formats} {cfg : Config} {h : Hooks ω} {i : Instant} {ff : FragFrame}
variable {key : Bytes32} {s s' : Slot} {size : Nat}

theorem newSlot : Named fmt (slotKey fmt ff) (Buffer.newSlot cfg h i (slotKey fmt ff) ff) := by
  intro payload
  simp only [delivery, Buffer.newSlot, slotKey]
  by_cases h4 : ff.origFrameVer = FrameVer.v4
  case pos => simp [h4, Delivery.key, FrameVer.v4, FrameVer.v9]
  case neg =>
    by_cases h5 : ff.origFrameVer = FrameVer.v5
    case pos => simp [h5, Delivery.key, FrameVer.v4, FrameVer.v5, FrameVer.v9]
    case neg =>
      by_cases h9 : ff.origFrameVer = FrameVer.v9
      case pos => simp [h9, Delivery.key, FrameVer.v4, FrameVer.v5, FrameVer.v9]
      case neg => simp [h4, h5, h9, Delivery.key]

theorem receive (hn : Named fmt key s) : Named fmt key (s.receive size ff) := by
  have ⟨_, _, e⟩ := s.receive_eq size ff
  rw [e]
  exact hn

theorem kept (hn : Named fmt key s) (hk : s.Kept s') : Named fmt key s' := by
  have ⟨_, _, _, e⟩ := hk
  rw [e]
  exact hn

end Slot.Named

namespace Buffer

-- No object has a slot while its completion is remembered, and every slot is that of its object.
structure Sound (fmt : Formats) (b : Buffer) : Prop where
  remembers : b.Remembers
  apart     : ∀ key ∈ b.done, b.slots.lookup key = none
  keyed     : b.Keyed
  named     : b.All (Slot.Named fmt)

variable {ω : Type} {fmt : Formats} {cfg : Config} {h : Hooks ω} {i : Instant} {ff : FragFrame}
variable {b : Buffer} {p q : Buffer × ω} {k key : Bytes32} {s : Slot} {exp : Time}
variable {ks : List Bytes32}

-- What a sweep does to the memory.
theorem sweepIfDue_memory :
    (sweepIfDue cfg h i p).1.memory = p.1.memory ∨
      (sweepIfDue cfg h i p).1.memory = (p.1.sweepDone i.now).memory := by
  simp only [sweepIfDue]
  split
  case isTrue  => exact .inr evictExpired_memory
  case isFalse => exact .inl rfl

theorem Recalls.sweep (hr : p.1.Recalls k exp ks) (hm : p.1.Remembers) (hle : i.now ≤ exp)
    (he : q.1.memory = p.1.memory ∨ q.1.memory = (p.1.sweepDone i.now).memory) :
    q.1.Recalls k exp ks := by
  cases he
  case inl e => exact hr.of_memory e
  case inr e => exact (hr.sweepDone hm hle).of_memory e

namespace Sound

theorem new {t : Time} : Sound fmt { lastEvict := t } where
  remembers := ⟨List.nodup_nil, fun _ => by simp⟩
  apart     := by simp
  keyed     := nofun
  named     := nofun

theorem sweep (hs : p.1.Sound fmt) (ho : ∀ k, Outlives (p.1.slots.lookup k) (q.1.slots.lookup k))
    (he : q.1.memory = p.1.memory ∨ q.1.memory = (p.1.sweepDone i.now).memory) : q.1.Sound fmt where
  remembers := by
    cases he
    case inl e => exact hs.remembers.of_memory e
    case inr e => exact hs.remembers.sweepDone.of_memory e
  apart := by
    intro key hm
    have hd : key ∈ p.1.done := by
      cases he
      case inl e => exact (Prod.mk.inj e).1 ▸ hm
      case inr e => exact mem_done_of_sweepDone ((Prod.mk.inj e).1 ▸ hm)
    have hout := ho key
    rw [hs.apart key hd] at hout
    cases hl : q.1.slots.lookup key
    case none => rfl
    case some s' =>
      have ⟨_, e, _⟩ := hout s' hl
      cases e
  keyed := hs.keyed.sweep ho
  named := hs.named.sweep (fun _ _ _ hn hk => hn.kept hk) ho

theorem met_eq_none (hs : b.Sound fmt) (hd : slotKey fmt ff ∈ b.done) :
    met fmt cfg h i b ff = none := by
  simp [met, hs.apart _ hd, Opens, hd]

theorem lookup_gather_eq_none (hs : p.1.Sound fmt) (hd : key ∈ p.1.done) :
    (Buffer.gather fmt cfg h i ff p).1.slots.lookup key = none := by
  cases hl : (Buffer.gather fmt cfg h i ff p).1.slots.lookup key
  case none => rfl
  case some s' =>
    rcases lookup_gather hs.keyed hl with ⟨hl, _⟩ | ⟨e, s, _, hmet, _⟩
    case inl => cases (hs.apart key hd).symm.trans hl
    case inr => cases (hs.met_eq_none (e ▸ hd)).symm.trans hmet

theorem completing_not_mem (hs : b.Sound fmt) (hc : completing fmt cfg h i b ff = some s) :
    slotKey fmt ff ∉ b.done := by
  intro hd
  have ⟨_, _, hmet, _⟩ := completing_met hc
  cases (hs.met_eq_none hd).symm.trans hmet

theorem gather (hs : p.1.Sound fmt) : (Buffer.gather fmt cfg h i ff p).1.Sound fmt := by
  have hkeyed : (Buffer.gather fmt cfg h i ff p).1.Keyed := hs.keyed.gather
  have hnamed : (Buffer.gather fmt cfg h i ff p).1.All (Slot.Named fmt) := by
    intro k s' hl
    rcases lookup_gather hs.keyed hl with ⟨hl, _⟩ | ⟨e, s, size, hmet, _, _, _, e'⟩
    case inl => exact hs.named k s' hl
    case inr =>
      rw [e, e']
      exact (hs.named.met .newSlot hmet).receive
  cases hc : completing fmt cfg h i p.1 ff
  case none =>
    have e : (Buffer.gather fmt cfg h i ff p).1.memory = p.1.memory :=
      gather_not_completing_memory hc
    refine ⟨hs.remembers.of_memory e, fun key hm => ?_, hkeyed, hnamed⟩
    exact hs.lookup_gather_eq_none ((Prod.mk.inj e).1 ▸ hm)
  case some s =>
    have ⟨e, hgone⟩ := gather_completing_memory hs.keyed hc
    refine ⟨(hs.remembers.markDone (hs.completing_not_mem hc)).of_memory e,
      fun key hm => ?_, hkeyed, hnamed⟩
    rcases mem_done_of_markDone ((Prod.mk.inj e).1 ▸ hm) with rfl | hd
    case inl => exact hgone
    case inr => exact hs.lookup_gather_eq_none hd

end Sound
end Buffer

open Buffer

variable {ω : Type}

-- The calls in the log after those in `log` are all made for other objects than `k`.
def Others (fmt : Formats) (b : Buffer) (k : Bytes32) (log : List Call) (w : ω × List Call) :
    Prop :=
  ∃ calls, w.2 = log ++ calls ∧ ∀ c ∈ calls, ∃ key ≠ k, c.Of fmt b key

namespace Others

variable {fmt : Formats} {cfg : Config} {h : Hooks ω} {i : Instant} {ff : FragFrame} {b : Buffer}
variable {k : Bytes32} {log : List Call} {w : ω × List Call} {p : Buffer × (ω × List Call)}

theorem refl : Others fmt b k w.2 w :=
  ⟨[], (List.append_nil _).symm, by simp⟩

theorem snoc {w' : ω × List Call} {c : Call} {key : Bytes32} (ho : Others fmt b k log w)
    (hw : w'.2 = w.2 ++ [c]) (hne : key ≠ k) (hc : c.Of fmt b key) : Others fmt b k log w' := by
  have ⟨calls, e, hcalls⟩ := ho
  refine ⟨calls ++ [c], by rw [hw, e, List.append_assoc], fun c' hc' => ?_⟩
  rw [List.mem_append, List.mem_singleton] at hc'
  cases hc'
  case inl hc' => exact hcalls c' hc'
  case inr e   => exact ⟨key, hne, e ▸ hc⟩

-- The requests of a sweep are those of slots in the table.
theorem answers : h.logged.Answers (fun q => ∃ key ≠ k, (Call.incomplete q).Of fmt b key)
    (Others fmt b k log) (Others fmt b k log) where
  after _ _ _ ho          := ho
  idle _ ho               := ho
  onIncomplete _ _ _ hq ho := have ⟨_, hne, hc⟩ := hq; ho.snoc rfl hne hc

theorem request {key : Bytes32} {s : Slot} (hk : b.slots.lookup k = none)
    (hl : b.slots.lookup key = some s) :
    ∃ key ≠ k, (Call.incomplete (incomplete s s.missingSeqNums)).Of fmt b key := by
  refine ⟨key, fun e => ?_, s, hl, rfl⟩
  rw [e, hk] at hl
  cases hl

theorem evictExpired (hk : p.1.slots.lookup k = none) :
    Others fmt p.1 k p.2.2 (evictExpired cfg h.logged i p).2 :=
  answers.evictExpired (fun _ _ hl _ => request hk hl) refl

theorem sweepIfDue (hk : p.1.slots.lookup k = none) :
    Others fmt p.1 k p.2.2 (sweepIfDue cfg h.logged i p).2 :=
  answers.sweepIfDue (fun _ _ _ hl _ => request hk hl) refl

-- A fragment delivers at most the object that it completes.
theorem gather (hs : p.1.Sound fmt) (hk : k ∈ p.1.done) (ho : Others fmt b k log p.2) :
    Others fmt b k log (gather fmt cfg h.logged i ff p).2 := by
  refine gather_env (fun _ _ ho => ho) (fun _ ho => ho) (fun s hc w ho => ?_) ho
  have ⟨s₀, size, hmet, _, _, e⟩ := completing_met hc
  have hne : slotKey fmt ff ≠ k := fun e => hs.completing_not_mem hc (e ▸ hk)
  have hn : s.Named fmt (slotKey fmt ff) := e ▸ (hs.named.met .newSlot hmet).receive
  rw [Hooks.logged_deliver]
  exact ho.snoc rfl hne (hn _)

end Others

def Op.time : Op → Option Time
  | .observe i _ => some i.now
  | .tick i      => some i.now
  | .purge       => none

-- A buffer, watched for the object `k`. `since` is the time of the last completion of `k` that was
-- not followed by a purge, and the other keys that have completed since.
structure Watch (ω : Type) where
  state : Buffer × (ω × List Call)
  clock : Time
  since : Option (Time × List Bytes32) := none

namespace Watch

variable (fmt : Formats) (cfg : Config) (h : Hooks ω) (k : Bytes32)

def sinceAfter (x : Watch ω) : Op → Option (Time × List Bytes32)
  | .observe i ff =>
    let b := (sweepIfDue cfg h.logged i x.state).1
    if (completing fmt cfg h.logged i b ff).isSome then
      if slotKey fmt ff = k then some (i.now, [])
      else x.since.map fun c => (c.1, c.2.insert (slotKey fmt ff))
    else x.since
  | .tick _ => x.since
  | .purge  => none

def step (x : Watch ω) (op : Op) : Watch ω where
  state := Reassembly.step fmt cfg h.logged x.state op
  clock := op.time.getD x.clock
  since := x.sinceAfter fmt cfg h k op

-- The clock does not go back.
def Onward (x : Watch ω) (op : Op) : Prop :=
  ∀ now ∈ op.time, x.clock ≤ now

-- `k` has completed, no more than the TTL before the operation, and fewer than `maxSlots` other
-- keys have done so since.
def Within (x : Watch ω) (op : Op) : Prop :=
  ∃ now ∈ op.time, ∃ c ∈ x.since, now ≤ c.1 + cfg.completionTTL ∧ c.2.length < cfg.maxSlots

-- The operation opens no slot for `k` (nor leaves one there), and makes no call for it.
structure Silent (x : Watch ω) (op : Op) : Prop where
  unopened : ∀ i ff, op = .observe i ff → slotKey fmt ff = k →
    met fmt cfg h.logged i (sweepIfDue cfg h.logged i x.state).1 ff = none
  absent   : (x.step fmt cfg h k op).state.1.slots.lookup k = none
  calls    : Others fmt x.state.1 k x.state.2.2 (x.step fmt cfg h k op).state.2

variable {fmt cfg h k} {x : Watch ω} {op : Op}

instance : Decidable (x.Onward op) :=
  inferInstanceAs (Decidable (∀ now ∈ op.time, _))

instance : Decidable (x.Within cfg op) :=
  inferInstanceAs (Decidable (∃ now ∈ op.time, ∃ c ∈ x.since, _ ∧ _))

-- The buffer is sound, and has the completion of `k` in its memory as long as the window is open.
structure Guarded (fmt : Formats) (cfg : Config) (k : Bytes32) (x : Watch ω) : Prop where
  sound  : x.state.1.Sound fmt
  window : ∀ c ∈ x.since, x.clock ≤ c.1 + cfg.completionTTL → c.2.length < cfg.maxSlots →
    x.state.1.Recalls k (c.1 + cfg.completionTTL) c.2

theorem Guarded.step_tick {i : Instant} (hg : x.Guarded fmt cfg k) (ho : x.Onward (.tick i)) :
    (x.step fmt cfg h k (.tick i)).Guarded fmt cfg k where
  sound := hg.sound.sweep (fun _ => evictExpired_outlives) (.inr evictExpired_memory)
  window := by
    intro c hc hle hlt
    have hr := hg.window c hc ((ho i.now rfl).trans hle) hlt
    exact hr.sweep hg.sound.remembers hle (.inr evictExpired_memory)

theorem Guarded.step_observe {i : Instant} {ff : FragFrame} (hg : x.Guarded fmt cfg k)
    (ho : x.Onward (.observe i ff)) : (x.step fmt cfg h k (.observe i ff)).Guarded fmt cfg k := by
  have hs : (sweepIfDue cfg h.logged i x.state).1.Sound fmt :=
    hg.sound.sweep (fun _ => sweepIfDue_outlives) sweepIfDue_memory
  have hr : ∀ c ∈ x.since, i.now ≤ c.1 + cfg.completionTTL → c.2.length < cfg.maxSlots →
      (sweepIfDue cfg h.logged i x.state).1.Recalls k (c.1 + cfg.completionTTL) c.2 := by
    intro c hc hle hlt
    have hr := hg.window c hc ((ho i.now rfl).trans hle) hlt
    exact hr.sweep hg.sound.remembers hle sweepIfDue_memory
  refine ⟨hs.gather, ?_⟩
  intro c hc hle hlt
  simp only [step, sinceAfter] at hc
  split at hc
  case isFalse hno =>
    rw [Bool.not_eq_true, Option.isSome_eq_false_iff, Option.isNone_iff_eq_none] at hno
    exact (hr c hc hle hlt).of_memory (gather_not_completing_memory hno)
  case isTrue hyes =>
    have ⟨s, hcomp⟩ := Option.isSome_iff_exists.mp hyes
    have ⟨hmem, _⟩ := gather_completing_memory hs.keyed hcomp
    have hnew := hs.completing_not_mem hcomp
    split at hc
    case isTrue e =>
      cases hc
      subst e
      exact (Recalls.markDone_self hs.remembers hnew).of_memory hmem
    case isFalse =>
      have ⟨c₀, hc₀, e⟩ := Option.map_eq_some_iff.mp hc
      subst e
      have hlt₀ : c₀.2.length < cfg.maxSlots := (List.sublist_insert _ _).length_le.trans_lt hlt
      exact ((hr c₀ hc₀ hle hlt₀).markDone hs.remembers hnew hlt).of_memory hmem

theorem Guarded.step (hg : x.Guarded fmt cfg k) (ho : x.Onward op) :
    (x.step fmt cfg h k op).Guarded fmt cfg k := by
  cases op
  case observe => exact hg.step_observe ho
  case tick    => exact hg.step_tick ho
  case purge   => exact ⟨.new, nofun⟩

theorem Guarded.silent (hg : x.Guarded fmt cfg k) (ho : x.Onward op) (hw : x.Within cfg op) :
    x.Silent fmt cfg h k op := by
  have ⟨now, hnow, c, hc, hle, hlt⟩ := hw
  have hr := hg.window c hc ((ho now hnow).trans hle) hlt
  have hk := hg.sound.apart k hr.mem
  cases op
  case tick i =>
    have hs : (evictExpired cfg h.logged i x.state).1.Sound fmt :=
      hg.sound.sweep (fun _ => evictExpired_outlives) (.inr evictExpired_memory)
    cases hnow
    have hr := hr.sweep (q := evictExpired cfg h.logged i x.state) hg.sound.remembers hle
      (.inr evictExpired_memory)
    exact ⟨nofun, hs.apart k hr.mem, Others.evictExpired hk⟩
  case observe i ff =>
    have hs : (sweepIfDue cfg h.logged i x.state).1.Sound fmt :=
      hg.sound.sweep (fun _ => sweepIfDue_outlives) sweepIfDue_memory
    cases hnow
    have hr := hr.sweep (q := sweepIfDue cfg h.logged i x.state) hg.sound.remembers hle
      sweepIfDue_memory
    refine ⟨?_, hs.lookup_gather_eq_none hr.mem, .gather hs hr.mem (.sweepIfDue hk)⟩
    rintro _ _ ⟨⟩ e
    exact hs.met_eq_none (e ▸ hr.mem)
  case purge => cases hnow

-- In every run whose clock does not go back, and for every object: after it has completed, no slot
-- is opened and no call is made for it until a purge, the completion of `maxSlots` other objects,
-- or the end of the TTL.
theorem silent_within {ops : List Op} {w : ω} {t : Time}
    (ho : Run.Along (step fmt cfg h k) Onward ⟨({}, w, []), t, none⟩ ops) :
    Run.Along (step fmt cfg h k) (fun x op => x.Within cfg op → x.Silent fmt cfg h k op)
      ⟨({}, w, []), t, none⟩ ops := by
  have h₀ : Guarded fmt cfg k (⟨({}, w, []), t, none⟩ : Watch ω) := ⟨.new, nofun⟩
  exact Run.along_of_preserved (D := fun _ => True) (fun _ _ hg _ ho => hg.step ho)
    (fun _ _ hg _ ho hw => hg.silent ho hw) h₀ (fun _ _ => trivial) ho

theorem silent_late_copy :
    let x := Run.exec (step lastByte (.new 0 0 true) Hooks.none (someTx.key lastByte))
      ⟨({}, (), []), 0, none⟩ interleaving
    x.Within (.new 0 0 true) (arrive someTx 0 120) ∧
      x.Silent lastByte (.new 0 0 true) Hooks.none (someTx.key lastByte) (arrive someTx 0 120) := by
  intro x
  have hw : x.Within (.new 0 0 true) (arrive someTx 0 120) := by decide +kernel
  have ho : Run.Along (step lastByte (.new 0 0 true) Hooks.none (someTx.key lastByte)) Onward
      ⟨({}, (), []), 0, none⟩ (interleaving ++ [arrive someTx 0 120]) := by decide +kernel
  have hs := silent_within ho
  exact ⟨hw, (Run.Along.append.mp hs).2.1 hw⟩

end Watch
end Reassembly
