import ShardListener.Egress.Unicast
import ShardListener.Extensions.Framing
import ShardListener.Extensions.Run

namespace Sender

variable {s : Sender} {now : Time} {dial write : Option Errno}

-- Within the backoff there is an error to return.
def Sound (s : Sender) : Prop :=
  0 < s.udpBackoff → s.udpErr ≠ none

theorem Sound.dialUDP (h : s.Sound) :
    (s.dialUDP now dial).sender.Sound ∧
      ((s.dialUDP now dial).err = none → (s.dialUDP now dial).sender.udpConn = true) := by
  unfold Sender.dialUDP
  split
  case isTrue hb => exact ⟨h, fun he => absurd he (h hb.1)⟩
  case isFalse =>
    split
    case h_1 => exact ⟨fun hb => absurd hb (Int.lt_irrefl 0), fun _ => rfl⟩
    case h_2 => exact ⟨fun _ => nofun, nofun⟩

theorem Sound.writeUDP (h : s.Sound) : (s.writeUDP write).1.Sound := by
  unfold Sender.writeUDP
  split
  case h_1 => exact h
  case h_2 =>
    dsimp only
    split
    case isTrue  => exact h
    case isFalse => exact h

theorem writeUDP_ok (h : (s.writeUDP write).2 = none) : (s.writeUDP write).1 = s := by
  unfold Sender.writeUDP at h ⊢
  split at h
  case h_1 => rfl
  case h_2 => cases h

-- A datagram is only written to an open socket.
theorem Sound.sendUDP (h : s.Sound) :
    (s.sendUDP now dial write).sender.Sound ∧
      ((s.sendUDP now dial write).err = none →
        (s.sendUDP now dial write).sender.udpConn = true) := by
  have hr : (if s.udpConn then ⟨s, none, false⟩ else s.dialUDP now dial : Result).sender.Sound ∧
      ((if s.udpConn then ⟨s, none, false⟩ else s.dialUDP now dial : Result).err = none →
        (if s.udpConn then ⟨s, none, false⟩
          else s.dialUDP now dial : Result).sender.udpConn = true) := by
    split
    case isTrue hc => exact ⟨h, fun _ => hc⟩
    case isFalse   => exact h.dialUDP
  unfold Sender.sendUDP
  generalize (if s.udpConn then ⟨s, none, false⟩ else s.dialUDP now dial : Result) = r at hr ⊢
  dsimp only
  split
  case h_1     => exact ⟨hr.1, nofun⟩
  case h_2 he =>
    refine ⟨hr.1.writeUDP, fun hok => ?_⟩
    have hsame := writeUDP_ok hok
    exact (congrArg udpConn hsame).trans (hr.2 he)

end Sender

namespace Egress.Unicast

variable (obj : Objects) (next : Bytes → Option (Bytes × Bytes))

-- What the other end has got: the datagrams, and the messages that it reads off the connections.
def received (s : Unicast) : List Bytes :=
  s.datagrams ++ s.streams.flatMap (Framing.read next)

-- The bytes that an operation reports as sent.
def reported (s : Unicast) : Op → Option Bytes
  | .send a m => if (s.send obj a m).2.isNone then (m.buffer obj s.stripHeader).toOption else none
  | .close    => none

def reports : Unicast → List Op → List Bytes
  | _, []        => []
  | s, op :: ops => (s.reported obj op).toList ++ reports (s.step obj op) ops

-- The buffer is a message of the format, and a write that fails stops early.
def Op.Fits (M : Bytes → Prop) (stripHeader : Bool) : Op → Prop
  | .send a m => ∀ buf, m.buffer obj stripHeader = .ok buf →
    M buf ∧ ∀ n e, a.writeTCP = some (n, e) → n < buf.length
  | .close    => True

-- A write to a UDP socket finds an open one.
def WritesToSocket (s : Unicast) : Op → Prop
  | .send a _ => (s.udp.sendUDP a.now a.dialUDP a.writeUDP).err = none →
    (s.udp.sendUDP a.now a.dialUDP a.writeUDP).sender.udpConn = true
  | .close    => True

-- What an operation can do, and what it reports.
inductive Turn (M : Bytes → Prop) (s : Unicast) : Unicast → Option Bytes → Prop
  | idle : Turn M s s none
  | socket {udp : Sender} (sound : s.udp.Sound → udp.Sound) : Turn M s { s with udp := udp } none
  | datagram {udp : Sender} {buf : Bytes} (proto : s.proto = .udp)
    (sound : s.udp.Sound → udp.Sound) :
    Turn M s { s with udp := udp, datagrams := s.datagrams ++ [buf] } (some buf)
  | written {buf : Bytes} (proto : s.proto = .tcp) (fits : M buf) :
    Turn M s { s with tcpConn := some (s.tcpConn.getD [] ++ buf) } (some buf)
  | cut {buf c : Bytes} (proto : s.proto = .tcp) (fits : M buf) (start : c <+: buf)
    (early : c ≠ buf) :
    Turn M s { s with tcpConn := some (s.tcpConn.getD [] ++ c) }.closeTCP none
  | closed : Turn M s s.closeTCP none

variable {obj next} {M : Bytes → Prop} {s s' : Unicast} {a : Answers} {m : Message} {op : Op}
variable {ops : List Op}
variable {bs buf : Bytes} {r : Option Bytes}

theorem writeTCP_turn (hp : s.proto = .tcp) (hb : s.tcpConn.getD [] = bs) (hm : M buf)
    (he : ∀ n e, a.writeTCP = some (n, e) → n < buf.length) (hne : buf ≠ []) :
    Turn M s (s.writeTCP a bs buf).1
      (if (s.writeTCP a bs buf).2.isNone then some buf else none) := by
  subst hb
  unfold writeTCP
  split
  case h_1 =>
    have ht := Turn.cut (s := s) hp hm List.nil_prefix hne.symm
    rwa [List.append_nil] at ht
  case h_2 => exact .written hp hm
  case h_3 hw =>
    refine .cut hp hm (List.take_prefix _ _) fun h => ?_
    have hlen := congrArg List.length h
    rw [List.length_take] at hlen
    have := he _ _ hw
    omega

theorem sendTCP_turn (hp : s.proto = .tcp) (hm : M buf)
    (he : ∀ n e, a.writeTCP = some (n, e) → n < buf.length) (hne : buf ≠ []) :
    Turn M s (s.sendTCP a buf).1 (if (s.sendTCP a buf).2.isNone then some buf else none) := by
  unfold sendTCP
  split
  case h_1 hc => exact writeTCP_turn hp (by rw [hc]; rfl) hm he hne
  case h_2    => exact .idle
  case h_3 hc _ => exact writeTCP_turn hp (by rw [hc]; rfl) hm he hne

theorem sendUDP_turn (hp : s.proto = .udp) :
    Turn M s (s.sendUDP a buf).1 (if (s.sendUDP a buf).2.isNone then some buf else none) := by
  have hsound : s.udp.Sound → (s.udp.sendUDP a.now a.dialUDP a.writeUDP).sender.Sound :=
    fun h => h.sendUDP.1
  cases he : (s.udp.sendUDP a.now a.dialUDP a.writeUDP).err
  case none =>
    simp only [sendUDP, he]
    exact .datagram hp hsound
  case some =>
    simp only [sendUDP, he]
    exact .socket hsound

theorem step_turn (hd : Framing.Delimits next M) (hf : op.Fits obj M s.stripHeader) :
    Turn M s (s.step obj op) (s.reported obj op) := by
  cases op
  case close =>
    simp only [step, close, reported]
    split
    case isTrue  => exact .socket id
    case isFalse => exact .closed
  case send a m =>
    cases hbuf : m.buffer obj s.stripHeader
    case error =>
      simp only [step, send, reported, hbuf]
      exact .idle
    case ok buf =>
      obtain ⟨hm, he⟩ := hf buf hbuf
      cases hp : s.proto
      all_goals simp only [step, send, reported, hbuf, hp]
      case udp     => exact sendUDP_turn hp
      case tcp     => exact sendTCP_turn hp hm he (hd.ne_nil hm)
      case unknown => exact .idle

theorem streams_closeTCP : s.closeTCP.streams = s.streams := by
  unfold closeTCP streams
  split
  case h_1     => rfl
  case h_2 he => rw [he]; exact List.append_nil _

theorem closeTCP_eq : s.closeTCP = { s with tcpConn := none, closed := s.closeTCP.closed } := by
  unfold closeTCP
  split
  case h_1 hn => rw [← hn]
  case h_2    => rfl

-- The open connection has whole messages on it. There are datagrams over UDP only, and connections
-- over TCP only.
structure Sound (M : Bytes → Prop) (s : Unicast) : Prop where
  whole       : ∃ ms : List Bytes, s.tcpConn.getD [] = ms.flatten ∧ ∀ m ∈ ms, M m
  datagrams   : s.proto ≠ .udp → s.datagrams = []
  connections : s.proto ≠ .tcp → s.streams = []
  udp         : s.udp.Sound

theorem closeTCP_sound (hd : s.proto ≠ .udp → s.datagrams = [])
    (hc : s.proto ≠ .tcp → s.streams = []) (hu : s.udp.Sound) : s.closeTCP.Sound M where
  whole       := ⟨[], by rw [closeTCP_eq]; rfl, by simp⟩
  datagrams   := by rw [closeTCP_eq]; exact hd
  connections := by rw [streams_closeTCP, closeTCP_eq]; exact hc
  udp         := by rw [closeTCP_eq]; exact hu

theorem Sound.turn (h : s.Sound M) (ht : Turn M s s' r) : s'.Sound M := by
  cases ht
  case idle           => exact h
  case closed         => exact closeTCP_sound h.datagrams h.connections h.udp
  case socket hs      => exact ⟨h.whole, h.datagrams, h.connections, hs h.udp⟩
  case datagram hp hs => exact ⟨h.whole, fun hn => absurd hp hn, h.connections, hs h.udp⟩
  case cut hp _ _ _   => exact closeTCP_sound h.datagrams (fun hn => absurd hp hn) h.udp
  case written buf hp hm =>
    obtain ⟨ms, e, hms⟩ := h.whole
    refine ⟨⟨ms ++ [buf], by simp [e], ?_⟩, h.datagrams, fun hn => absurd hp hn, h.udp⟩
    simpa [or_imp, forall_and] using ⟨hms, hm⟩

-- What is read off the connections when the open one has the messages `ms` on it.
theorem read_streams (hd : Framing.Delimits next M) {ms : List Bytes}
    (e : s.tcpConn.getD [] = ms.flatten) (hms : ∀ m ∈ ms, M m) :
    s.streams.flatMap (Framing.read next) = s.closed.flatMap (Framing.read next) ++ ms := by
  rw [streams, List.flatMap_append]
  refine congrArg (s.closed.flatMap (Framing.read next) ++ ·) ?_
  cases hc : s.tcpConn
  case none =>
    rw [hc] at e
    exact (hd.eq_nil_of_flatten hms e.symm).symm
  case some bs =>
    rw [hc] at e
    subst e
    simpa using hd.read_flatten hms

theorem received_turn (hd : Framing.Delimits next M) (h : s.Sound M) (ht : Turn M s s' r) :
    s'.received next = s.received next ++ r.toList := by
  cases ht
  case idle      => exact (List.append_nil _).symm
  case socket hs => exact (List.append_nil _).symm
  case closed =>
    rw [received, streams_closeTCP, closeTCP_eq]
    exact (List.append_nil _).symm
  case datagram udp buf hp hs =>
    have hc : s.streams = [] := h.connections (by simp [hp])
    have hc' : { s with udp := udp, datagrams := s.datagrams ++ [buf] }.streams = [] := hc
    simp [received, hc, hc']
  case written buf hp hm =>
    obtain ⟨ms, e, hms⟩ := h.whole
    have hms' : ∀ m ∈ ms ++ [buf], M m := by simpa [or_imp, forall_and] using ⟨hms, hm⟩
    rw [received, received, read_streams hd e hms,
      read_streams (s := { s with tcpConn := some (s.tcpConn.getD [] ++ buf) }) hd
        (by simp [e]) hms']
    simp
  case cut buf c hp hm hc hne =>
    obtain ⟨ms, e, hms⟩ := h.whole
    rw [received, streams_closeTCP, closeTCP_eq, received, read_streams hd e hms, streams,
      List.flatMap_append]
    simp [e, hd.read_append hms (hd.cut hm hc hne)]

theorem stripHeader_turn (ht : Turn M s s' r) : s'.stripHeader = s.stripHeader := by
  cases ht
  case closed => rw [closeTCP_eq]
  case cut    => rw [closeTCP_eq]
  all_goals rfl

theorem writesToSocket_of_sound (h : s.udp.Sound) : s.WritesToSocket op := by
  cases op
  case close => trivial
  case send  => exact h.sendUDP.2

-- The other end gets what was reported as sent, message for message and in order: nothing else, and
-- nothing twice.
theorem received_reports (hd : Framing.Delimits next M) (h : s.Sound M)
    (hf : ∀ op ∈ ops, op.Fits obj M s.stripHeader) :
    (Run.exec (step obj) s ops).received next = s.received next ++ reports obj s ops ∧
      Run.Along (step obj) WritesToSocket s ops := by
  induction ops generalizing s
  case nil => exact ⟨(List.append_nil _).symm, trivial⟩
  case cons op ops hi =>
    have ht := step_turn hd (hf op List.mem_cons_self)
    have hrest := hi (h.turn ht) fun o ho => stripHeader_turn ht ▸ hf o (List.mem_cons_of_mem _ ho)
    refine ⟨?_, writesToSocket_of_sound h.udp, hrest.2⟩
    rw [Run.exec_cons, hrest.1, received_turn hd h ht, reports, List.append_assoc]

variable {validAddr strip : Bool} {start : Time} {dial : Option Errno} {proto : Proto}

theorem new_sound (next : Bytes → Option (Bytes × Bytes)) (M : Bytes → Prop)
    (hn : new validAddr start dial proto strip = some s) :
    s.Sound M ∧ s.received next = [] ∧ s.stripHeader = strip := by
  have hplain {udp : Sender} (hu : udp.Sound) :
      Sound M { proto := proto, stripHeader := strip, udp := udp } :=
    ⟨⟨[], rfl, by simp⟩, fun _ => rfl, fun _ => rfl, hu⟩
  have hfresh : Sender.Sound {} := fun h => absurd h (Int.lt_irrefl 0)
  cases proto
  case udp =>
    simp only [new] at hn
    split at hn
    case isTrue  => cases hn; exact ⟨hplain hfresh.dialUDP.1, rfl, rfl⟩
    case isFalse => cases hn
  case tcp     => cases hn; exact ⟨hplain hfresh, rfl, rfl⟩
  case unknown => cases hn; exact ⟨hplain hfresh, rfl, rfl⟩

theorem received_as_reported (hn : new validAddr start dial proto strip = some s)
    (hd : Framing.Delimits next M) (hf : ∀ op ∈ ops, op.Fits obj M strip) :
    (Run.exec (step obj) s ops).received next = reports obj s ops ∧
      Run.Along (step obj) WritesToSocket s ops := by
  obtain ⟨hs, hr, hstrip⟩ := new_sound next M hn
  obtain ⟨he, ha⟩ := received_reports hd hs (hstrip ▸ hf)
  exact ⟨by rw [he, hr, List.nil_append], ha⟩

-- Messages of two bytes.

def nextPair : Bytes → Option (Bytes × Bytes)
  | a :: b :: rest => some ([a, b], rest)
  | _              => none

theorem nextPair_delimits : Framing.Delimits nextPair (·.length = 2) where
  ne_nil {m} hm := by rintro rfl; cases hm
  whole {m} hm rest := by
    obtain ⟨a, b, rfl⟩ := List.length_eq_two.mp hm
    rfl
  cut {m c} hm hc hne := by
    have hlen := hc.length_le
    have hlt : c.length ≠ 2 := fun h => hne (hc.eq_of_length (h.trans hm.symm))
    rcases c with _ | ⟨a, _ | ⟨b, c⟩⟩
    case nil       => rfl
    case cons.nil  => rfl
    case cons.cons =>
      simp only [List.length_cons] at hlen hlt
      omega

def noObjects : Objects :=
  ⟨fun _ => none, fun _ => none, fun _ payload => payload⟩

def plainSend (buf : Bytes) (writeTCP : Option (Nat × Errno)) : Op :=
  .send { now := 0, writeTCP := writeTCP } (.plain buf)

-- The second message breaks off after its first byte, and the third one comes on a new connection.
theorem pairs_received :
    let ops := [plainSend [1, 2] none, plainSend [3, 4] (some (1, .einval)), plainSend [5, 6] none]
    let s := Run.exec (step noObjects) { proto := .tcp, stripHeader := false } ops
    s.streams = [[1, 2, 3], [5, 6]] ∧ s.received nextPair = [[1, 2], [5, 6]] := by
  intro ops s
  have hf : ∀ op ∈ ops, op.Fits noObjects (·.length = 2) false := by
    simp only [ops, plainSend, List.forall_mem_cons, Op.Fits, Message.buffer]
    refine ⟨?_, ?_, ?_, by simp⟩
    all_goals
      rintro _ ⟨⟩
      refine ⟨rfl, fun n e h => ?_⟩
      cases h
    decide
  have hn : new true 0 none .tcp false = some { proto := .tcp, stripHeader := false } := rfl
  have h := received_as_reported hn nextPair_delimits hf
  exact ⟨by decide, h.1.trans (by decide)⟩

end Egress.Unicast
