import ShardListener.Egress.Sender
import ShardListener.Extensions.Run
import ShardListener.Extensions.Window

namespace Sender

variable {s : Sender} {now : Time} {dial write : Option Errno} {e : Errno}

-- The backoff lasts.
def Blocked (s : Sender) (now : Time) : Prop :=
  s.udpBackoff > 0 ∧ now < s.udpRetryAt

instance : Decidable (s.Blocked now) :=
  inferInstanceAs (Decidable (_ ∧ _))

-- The sender with a fresh socket.
def connected (s : Sender) : Sender :=
  { s with udpConn := true, udpErr := none, udpBackoff := 0, udpDialed := true }

def nextBackoff (s : Sender) : Duration :=
  min (max (2 * s.udpBackoff) udpRedialMin) udpRedialMax

theorem udpRedialMin_le_nextBackoff : udpRedialMin ≤ s.nextBackoff :=
  le_min (le_max_right ..) (by decide)

-- The sender after a dial that failed.
def backedOff (s : Sender) (now : Time) (e : Errno) : Sender :=
  { s with
    udpErr := some (.dial e), udpBackoff := s.nextBackoff, udpRetryAt := now + s.nextBackoff }

-- What a `Send` does.
inductive Sends (s : Sender) (now : Time) (dial write : Option Errno) : Result → Prop
  | blocked (e : Errno) (hc : s.udpConn = false) (hb : s.Blocked now) :
    Sends s now dial write ⟨s, some (.dial e), false⟩
  | failed (e : Errno) (hc : s.udpConn = false) (hb : ¬s.Blocked now) :
    Sends s now dial write ⟨s.backedOff now e, some (.dial e), true⟩
  | reconnected (hc : s.udpConn = false) (hb : ¬s.Blocked now) :
    Sends s now dial write ⟨(s.connected.writeUDP write).1, (s.connected.writeUDP write).2, true⟩
  | written (hc : s.udpConn = true) :
    Sends s now dial write ⟨(s.writeUDP write).1, (s.writeUDP write).2, false⟩

theorem sends (hs : 0 < s.udpBackoff → ∃ e, s.udpErr = some (.dial e)) :
    s.Sends now dial write (s.sendUDP now dial write) := by
  cases hc : s.udpConn
  case true =>
    simp only [sendUDP, hc, if_true]
    exact .written hc
  case false =>
    by_cases hb : s.Blocked now
    case pos =>
      have ⟨e, he⟩ := hs hb.1
      have hd : s.dialUDP now dial = ⟨s, s.udpErr, false⟩ := if_pos hb
      simp only [sendUDP, hc, Bool.false_eq_true, if_false, hd, he]
      exact .blocked e hc hb
    case neg =>
      cases dial
      case none =>
        have hd : s.dialUDP now none = ⟨s.connected, none, true⟩ := if_neg hb
        simp only [sendUDP, hc, Bool.false_eq_true, if_false, hd]
        exact .reconnected hc hb
      case some e =>
        have hd : s.dialUDP now (some e) = ⟨s.backedOff now e, some (.dial e), true⟩ := if_neg hb
        simp only [sendUDP, hc, Bool.false_eq_true, if_false, hd]
        exact .failed e hc hb

end Sender

namespace Session

open Window

variable {x : Session} {c : SendCall}

-- No window shorter than `udpRedialMin` has more than two dials, and the second one is that of the
-- first `Send` after a path loss.
def Limited (x : Session) : Prop :=
  Sparse Dial.time udpRedialMin (·.afterLoss = true) x.dials

-- The first `Send` after a path loss comes at least `udpRedialMin` after every dial but the last.
def Paced (x : Session) (c : SendCall) : Prop :=
  x.lost = true → ∀ a b, [a, b].Sublist x.dials → udpRedialMin ≤ x.clock + c.elapsed - a.time

-- What holds of a sender at all times. A socket that is closed was lost, or could not be opened:
-- then the next dial has to wait.
structure Sound (x : Session) : Prop where
  chronological : Chronological Dial.time x.dials
  past          : ∀ d ∈ x.dials, d.time ≤ x.clock
  cached        : 0 < x.sender.udpBackoff → ∃ e, x.sender.udpErr = some (.dial e)
  opened        : x.sender.udpConn = true ∨ x.lost = true → x.sender.udpBackoff = 0
  closed        : x.lost = true → x.sender.udpConn = false
  waits         : x.sender.udpConn = false → x.lost = false →
    0 < x.sender.udpBackoff ∧ ∀ d ∈ x.dials, d.time + udpRedialMin ≤ x.sender.udpRetryAt

namespace Sound

-- A write on an open socket keeps it, or loses the path.
theorem written {s : Sender} {write : Option Errno} {now : Time} {dials : List Dial}
    (hc : s.udpConn = true) (hb : s.udpBackoff = 0) (hd : Chronological Dial.time dials)
    (hp : ∀ d ∈ dials, d.time ≤ now) :
    Sound ⟨(s.writeUDP write).1, now, losesPath (s.writeUDP write).2, dials⟩ := by
  cases write
  case none =>
    exact ⟨hd, hp, fun h => absurd hb h.ne', fun _ => hb, nofun, fun h => nomatch hc.symm.trans h⟩
  case some e =>
    cases hpath : isPathError e
    case false =>
      simp only [Sender.writeUDP, losesPath, hpath]
      exact ⟨hd, hp, fun h => absurd hb h.ne', fun _ => hb, nofun, fun h => nomatch hc.symm.trans h⟩
    case true =>
      simp only [Sender.writeUDP, losesPath, hpath]
      exact ⟨hd, hp, fun h => absurd hb h.ne', fun _ => hb, fun _ => rfl, fun _ => nofun⟩

-- A dial that has failed makes the next one wait.
theorem backedOff {s : Sender} {e : Errno} {now : Time} {dials : List Dial} (hc : s.udpConn = false)
    (hd : Chronological Dial.time dials) (hp : ∀ d ∈ dials, d.time ≤ now) :
    Sound ⟨s.backedOff now e, now, false, dials⟩ where
  chronological := hd
  past          := hp
  cached _      := ⟨e, rfl⟩
  opened h      := h.elim (fun h => nomatch hc.symm.trans h) nofun
  closed        := nofun
  waits _ _     := by
    have hmin : udpRedialMin ≤ s.nextBackoff := Sender.udpRedialMin_le_nextBackoff
    refine ⟨(by decide : 0 < udpRedialMin).trans_le hmin, fun d hd => ?_⟩
    exact add_le_add (hp d hd) hmin

theorem new {start : Time} {dial : Option Errno} : (Session.new start dial).Sound := by
  have hd : Chronological Dial.time [⟨start, false⟩] := List.pairwise_singleton ..
  have hp : ∀ d ∈ [(⟨start, false⟩ : Dial)], d.time ≤ start := by simp
  cases dial
  case none =>
    have hs : Sound ⟨(Sender.writeUDP none (Sender.connected {})).1, start, false,
        [⟨start, false⟩]⟩ :=
      written rfl rfl hd hp
    exact hs
  case some e =>
    have hs : Sound ⟨Sender.backedOff {} start e, start, false, [⟨start, false⟩]⟩ :=
      backedOff rfl hd hp
    exact hs

variable {now : Time}

theorem past_snoc (h : x.Sound) (hn : x.clock ≤ now) :
    ∀ d ∈ x.dials ++ [⟨now, x.lost⟩], d.time ≤ now := by
  intro d hd
  rcases List.mem_append.mp hd with hd | hd
  case inl => exact (h.past d hd).trans hn
  case inr => exact (List.mem_singleton.mp hd) ▸ le_rfl

theorem chronological_snoc (h : x.Sound) (hn : x.clock ≤ now) :
    Chronological Dial.time (x.dials ++ [⟨now, x.lost⟩]) :=
  h.chronological.snoc fun d hd => (h.past d hd).trans hn

theorem sends (h : x.Sound) :
    x.sender.Sends (x.clock + c.elapsed) c.dial c.write
      (x.sender.sendUDP (x.clock + c.elapsed) c.dial c.write) :=
  Sender.sends h.cached

theorem clock_le : x.clock ≤ x.clock + c.elapsed := by
  dsimp only [Time]
  omega

theorem send (h : x.Sound) : (x.send c).Sound := by
  have hp : ∀ d ∈ x.dials, d.time ≤ x.clock + c.elapsed := fun d hd => (h.past d hd).trans clock_le
  have hs := h.sends (c := c)
  simp only [Session.send]
  generalize x.sender.sendUDP (x.clock + c.elapsed) c.dial c.write = r at hs
  cases hs
  case blocked e hc hb =>
    have hl : x.lost = false := Bool.eq_false_iff.mpr fun hl => absurd (h.opened (.inr hl)) hb.1.ne'
    exact ⟨h.chronological, hp, h.cached,
      fun ho => ho.elim (fun ho => nomatch hc.symm.trans ho) nofun, nofun, fun _ _ => h.waits hc hl⟩
  case failed e hc hb    =>
    exact backedOff hc (h.chronological_snoc clock_le) (h.past_snoc clock_le)
  case reconnected hc hb =>
    exact written rfl rfl (h.chronological_snoc clock_le) (h.past_snoc clock_le)
  case written hc        => exact written hc (h.opened (.inl hc)) h.chronological hp

-- Without a path loss a dial is that of a sender which has waited since the last one.
theorem waited (h : x.Sound) (hc : x.sender.udpConn = false) (hl : x.lost = false)
    (hb : ¬x.sender.Blocked now) : ∀ d ∈ x.dials, udpRedialMin ≤ now - d.time := by
  intro d hd
  have ⟨hpos, hwait⟩ := h.waits hc hl
  have hretry : x.sender.udpRetryAt ≤ now := not_lt.mp fun hlt => hb ⟨hpos, hlt⟩
  exact le_sub_iff_add_le'.mpr ((hwait d hd).trans hretry)

theorem spaced_snoc_iff (h : x.Sound) (hl : x.Limited) (hc : x.sender.udpConn = false)
    (hb : ¬x.sender.Blocked (x.clock + c.elapsed)) :
    Spaced Dial.time udpRedialMin (·.afterLoss = true)
      (x.dials ++ [⟨x.clock + c.elapsed, x.lost⟩]) ↔ x.Paced c := by
  rw [Spaced.snoc_iff, and_iff_right ((sparse_iff_spaced h.chronological).mp hl)]
  cases hx : x.lost
  case false =>
    have hw := h.waited hc hx hb
    refine iff_of_true ⟨fun a b hs => hw a (hs.subset List.mem_cons_self),
      fun a ha hlt => ?_⟩ fun hl => ?_
    case refine_1 => exact absurd (hw a ha) hlt.not_ge
    case refine_2 => exact nomatch hx.symm.trans hl
  case true => exact ⟨fun hs _ => hs.1, fun hp => ⟨hp hx, fun _ _ _ => rfl⟩⟩

theorem limited_send_iff (h : x.Sound) (hl : x.Limited) : (x.send c).Limited ↔ x.Paced c := by
  have hs := h.sends (c := c)
  have hafter := h.send (c := c)
  rw [Limited, sparse_iff_spaced hafter.chronological]
  simp only [Session.send]
  generalize x.sender.sendUDP (x.clock + c.elapsed) c.dial c.write = r at hs
  have hsame := (sparse_iff_spaced h.chronological).mp hl
  cases hs
  case blocked e hc hb =>
    have hx : x.lost = true → False := fun hx => hb.1.ne' (h.opened (.inr hx))
    exact iff_of_true hsame fun hl => (hx hl).elim
  case written hc =>
    exact iff_of_true hsame fun hl => nomatch (h.closed hl).symm.trans hc
  case failed e hc hb    => exact h.spaced_snoc_iff hl hc hb
  case reconnected hc hb => exact h.spaced_snoc_iff hl hc hb

end Sound

theorem limited_iff_paced {start : Time} {dial : Option Errno} {calls : List SendCall} :
    Run.Always send Limited (new start dial) calls ↔
      Run.Along send Paced (new start dial) calls := by
  have hl : (new start dial).Limited := by
    refine (sparse_iff_spaced Sound.new.chronological).mpr ⟨fun a b c hs => ?_, fun a b hs => ?_⟩
    case refine_1 => exact absurd hs.length_le (by simp [new])
    case refine_2 => exact absurd hs.length_le (by simp [new])
  exact Run.always_iff_along (fun _ _ h => h.send) (fun _ _ h hl =>
    h.limited_send_iff hl) Sound.new hl

-- Ten frames in ten milliseconds: each one is lost with the path of a socket that could be opened.
def flapping : List SendCall :=
  List.replicate 10 ⟨10 ^ 6, none, some .enetunreach⟩

theorem dial_per_frame :
    (Run.exec send (new 0 none) flapping).dials.length = flapping.length ∧
      (Run.exec send (new 0 none) flapping).clock = Time.ms 10 ∧
      ¬Run.Always send Limited (new 0 none) flapping := by
  have hdials :
      10 = (within Dial.time 0 (Time.ms 10) (Run.exec send (new 0 none) flapping).dials).length :=
    by decide
  refine ⟨by decide, by decide, fun h => ?_⟩
  have hle := (h.last 0 (Time.ms 10) (by decide)).1
  exact absurd (hdials ▸ hle) (by decide)

end Session
