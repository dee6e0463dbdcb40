import ShardListener.Nack.Send

namespace Nack

-- A unicast-flagged ACK, which promises the frame to a listener that can re-inject it.
def isPromise (raw : Bytes) : Prop :=
  ∃ resp ∈ decodeResponse raw, resp.msgType = MsgType.ack ∧ resp.flags &&& respFlagUnicastSent ≠ 0

instance : DecidablePred isPromise :=
  fun _ => inferInstanceAs (Decidable (∃ resp ∈ _, _))

-- The deadline of the next read, if the datagram does not end the drain. `reinjects` says whether
-- there is a callback to re-inject into.
def nextDeadline (reinjects : Bool) (deadline now : Time) (raw : Bytes) : Option Time :=
  if reinjects ∧ isRetransmit raw then none
  else if reinjects ∧ isPromise raw then some (now + unicastDrainWindow)
  else if decodeResponse raw = none then some deadline
  else none

-- A read of the NACK socket: its deadline, and the datagram with its time, unless the deadline is
-- first.
structure Read where
  deadline : Time
  datagram : Option (Time × Bytes)

-- When the read is over.
def Read.done (r : Read) : Time :=
  r.datagram.elim r.deadline Prod.fst

-- The reads of the drain.
def reads (reinjects : Bool) (deadline : Time) : List (Time × Bytes) → List Read
  | []                => [⟨deadline, none⟩]
  | (now, raw) :: ds =>
    if deadline < now then [⟨deadline, none⟩]
    else
      ⟨deadline, some (now, raw)⟩ ::
        (nextDeadline reinjects deadline now raw).elim [] (reads reinjects · ds)

variable {σ : Type} {reinject : Option (Bytes → σ → Bool × σ)} {e : GapEntry} {n : Nat} {w : σ}
variable {deadline sent now : Time} {ack reinjects : Bool} {ds : List (Time × Bytes)} {raw : Bytes}

theorem isPromise_iff {resp : Response} (hd : decodeResponse raw = some resp) :
    isPromise raw ↔ resp.msgType = MsgType.ack ∧ resp.flags &&& respFlagUnicastSent ≠ 0 := by
  simp [isPromise, hd]

theorem not_isPromise (hd : decodeResponse raw = none) : ¬isPromise raw := by
  simp [isPromise, hd]

-- A datagram that ends the drain is the last one that is looked at.
theorem drain_last (hn : nextDeadline reinject.isSome deadline now raw = none) :
    drain reinject e n deadline ack w ((now, raw) :: ds) =
      drain reinject e n deadline ack w [(now, raw)] := by
  simp only [nextDeadline] at hn
  simp only [drain]
  split
  case isTrue => rfl
  case isFalse =>
    cases hd : decodeResponse raw
    case none =>
      cases reinject
      case none => simp [hd] at hn
      case some =>
        by_cases hr : isRetransmit raw
        case pos => simp [hr]
        case neg => simp [hr, hd, not_isPromise hd] at hn
    case some resp =>
      simp only [hd, isPromise_iff hd] at hn
      cases reinject
      case none => simp
      case some =>
        by_cases hr : isRetransmit raw
        case pos => simp [hr]
        case neg =>
          have hp : ¬(resp.msgType = MsgType.ack ∧ resp.flags &&& respFlagUnicastSent ≠ 0) := by
            simpa [hr] using hn
          simp only [hr, decide_false]
          split
          case isFalse => rfl
          case isTrue hm =>
            have hf : resp.flags &&& respFlagUnicastSent = 0 := not_not.mp fun hf => hp ⟨hm, hf⟩
            simp [hf]

theorem drain_next {d : Time} (h : ¬deadline < now)
    (hn : nextDeadline reinject.isSome deadline now raw = some d) :
    drain reinject e n deadline ack w ((now, raw) :: ds) =
      drain reinject e n d (ack || decide (reinject.isSome ∧ isPromise raw)) w ds := by
  simp only [nextDeadline] at hn
  simp only [drain, if_neg h]
  cases hd : decodeResponse raw
  case none =>
    have hp := not_isPromise hd
    cases reinject
    case none => simp_all
    case some =>
      by_cases hr : isRetransmit raw
      case pos => simp [hr] at hn
      case neg => simp_all
  case some resp =>
    simp only [hd, isPromise_iff hd] at hn ⊢
    cases reinject
    case none => simp at hn
    case some =>
      by_cases hr : isRetransmit raw
      case pos => simp [hr] at hn
      case neg =>
        simp only [hr, and_false, if_false, Option.isSome_some, true_and] at hn
        split at hn
        case isTrue hp  => cases hn; simp [hr, hp.1, hp.2]
        case isFalse hp => simp at hn

-- What the drain does depends on the datagrams that it reads only.
theorem drain_reads :
    drain reinject e n deadline ack w
      ((reads reinject.isSome deadline ds).filterMap Read.datagram) =
      drain reinject e n deadline ack w ds := by
  induction ds generalizing deadline ack
  case nil => rfl
  case cons d ds hi =>
    obtain ⟨now, raw⟩ := d
    simp only [reads]
    split
    case isTrue h  => simp [drain, h]
    case isFalse h =>
      cases hn : nextDeadline reinject.isSome deadline now raw
      case none   => simp [drain_last hn]
      case some d => simp [drain_next h hn, hi]

-- The reads of `sendNACK` for a NACK that is sent at the given time.
def sendReads (reinjects : Bool) (sent : Time) (ds : List (Time × Bytes)) : List Read :=
  reads reinjects (sent + respTimeout) ds

theorem sendNACK_reads :
    sendNACK reinject e
      ((sendReads reinject.isSome sent ds).filterMap Read.datagram) w (.sent sent n) =
      sendNACK reinject e ds w (.sent sent n) :=
  drain_reads

-- Until when a drain is to be over.
def drainLimit (sent : Time) : Time :=
  sent + respTimeout + unicastDrainWindow

-- The read is under a deadline within the limit, and over by then.
def Read.Bounded (sent : Time) (r : Read) : Prop :=
  r.deadline ≤ drainLimit sent ∧ r.done ≤ drainLimit sent

-- A promise that is read comes before the time for a response is over.
def Read.Timely (reinjects : Bool) (sent : Time) (r : Read) : Prop :=
  ∀ d ∈ r.datagram, reinjects ∧ ¬isRetransmit d.2 ∧ isPromise d.2 → d.1 ≤ sent + respTimeout

instance {r : Read} : Decidable (r.Bounded sent) :=
  inferInstanceAs (Decidable (_ ∧ _))

instance {r : Read} : Decidable (r.Timely reinjects sent) :=
  inferInstanceAs (Decidable (∀ d ∈ _, _ → _))

theorem nextDeadline_promise (h : reinjects ∧ ¬isRetransmit raw ∧ isPromise raw) :
    nextDeadline reinjects deadline now raw = some (now + unicastDrainWindow) := by
  simp [nextDeadline, h.1, h.2.1, h.2.2]

theorem nextDeadline_other {d : Time} (h : ¬(reinjects ∧ ¬isRetransmit raw ∧ isPromise raw))
    (hn : nextDeadline reinjects deadline now raw = some d) : d = deadline := by
  simp only [nextDeadline] at hn
  split at hn
  case isTrue => cases hn
  case isFalse hr =>
    have hp : ¬(reinjects ∧ isPromise raw) := fun hp => h ⟨hp.1, fun hm => hr ⟨hp.1, hm⟩, hp.2⟩
    rw [if_neg hp] at hn
    split at hn
    case isTrue  => cases hn; rfl
    case isFalse => cases hn

theorem exists_read (reinjects : Bool) (deadline : Time) (ds : List (Time × Bytes)) :
    ∃ r ∈ reads reinjects deadline ds, r.deadline = deadline := by
  cases ds
  case nil => exact ⟨_, List.mem_cons_self, rfl⟩
  case cons d ds =>
    simp only [reads]
    split
    case isTrue  => exact ⟨_, List.mem_cons_self, rfl⟩
    case isFalse => exact ⟨_, List.mem_cons_self, rfl⟩

-- Along the reads, from a deadline within the limit.
theorem bounded_reads_iff (h : deadline ≤ drainLimit sent) :
    (∀ r ∈ reads reinjects deadline ds, r.Bounded sent) ↔
      ∀ r ∈ reads reinjects deadline ds, r.Timely reinjects sent := by
  induction ds generalizing deadline
  case nil => simp [reads, Read.Bounded, Read.Timely, Read.done, h]
  case cons d ds hi =>
    obtain ⟨now, raw⟩ := d
    simp only [reads]
    split
    case isTrue => simp [Read.Bounded, Read.Timely, Read.done, h]
    case isFalse hlt =>
      have hb : Read.Bounded sent ⟨deadline, some (now, raw)⟩ := ⟨h, (not_lt.mp hlt).trans h⟩
      rw [List.forall_mem_cons, List.forall_mem_cons, and_iff_right hb]
      by_cases hp : reinjects ∧ ¬isRetransmit raw ∧ isPromise raw
      case pos =>
        have hnow : now + unicastDrainWindow ≤ drainLimit sent ↔ now ≤ sent + respTimeout := by
          simp [drainLimit]
        have ht : Read.Timely reinjects sent ⟨deadline, some (now, raw)⟩ ↔
            now ≤ sent + respTimeout := by
          simp [Read.Timely, hp]
        rw [nextDeadline_promise hp, ht]
        constructor
        case mp =>
          intro hall
          have ⟨r, hr, hd⟩ := exists_read reinjects (now + unicastDrainWindow) ds
          have hle := hnow.mp (hd ▸ (hall r hr).1)
          exact ⟨hle, (hi (hnow.mpr hle)).mp hall⟩
        case mpr =>
          intro ⟨hle, hall⟩
          exact (hi (hnow.mpr hle)).mpr hall
      case neg =>
        have ht : Read.Timely reinjects sent ⟨deadline, some (now, raw)⟩ := by
          rintro _ ⟨⟩ h
          exact absurd h hp
        rw [and_iff_right ht]
        cases hn : nextDeadline reinjects deadline now raw
        case none   => simp
        case some d =>
          cases nextDeadline_other hp hn
          exact hi h

-- The drain keeps to its limit exactly if every promise that it reads comes before the time for a
-- response is over.
theorem drain_bounded_iff_timely :
    (∀ r ∈ sendReads reinjects sent ds, r.Bounded sent) ↔
      ∀ r ∈ sendReads reinjects sent ds, r.Timely reinjects sent :=
  bounded_reads_iff (by simp [drainLimit, unicastDrainWindow, Time.ms])

-- The header of a response, and an ACK for a frame that is sent as a unicast.
def promise : Bytes :=
  [0xE3, 0xE1, 0xF3, 0xE8, 0, 0, 0x12, 0x02] ++ List.replicate 8 0

-- With a promise every 70 milliseconds the drain is not over after half a second.
theorem promises_not_bounded :
    let ds := (List.range 8).map fun k : Nat => (Time.ms (70 * k), promise)
    ¬∀ r ∈ sendReads true 0 ds, r.Bounded 0 := by
  decide +kernel

end Nack
