import ShardListener.Extensions.Run
import ShardListener.Worker.Receive

namespace Receive

variable {b i k : Nat} {d : Datagram} {ds : List Datagram} {o : Outcome} {os : List Outcome}

-- Both loops read the same address.
theorem RawSockaddrInet6.sockaddr_eq {raw : RawSockaddrInet6} (h : raw.family = afInet6) :
    raw.sockaddr = raw.anyToSockaddr := by
  have hlo : raw.port16 % 256 = raw.port.1.toNat := by
    simp only [port16, Nat.add_mul_mod_self_left]
    exact Nat.mod_eq_of_lt raw.port.1.toNat_lt
  have hhi : raw.port16 / 256 = raw.port.2.toNat := by
    have := raw.port.1.toNat_lt
    simp only [port16]
    omega
  have hp : raw.port16 >>> 8 ||| (raw.port16 &&& 0xff) <<< 8 = raw.port.1.toNat <<< 8 +
      raw.port.2.toNat := by
    rw [Nat.shiftRight_eq_div_pow, show (0xff : Nat) = 2 ^ 8 - 1 from rfl,
      Nat.and_two_pow_sub_one_eq_mod,
      Nat.shiftLeft_add_eq_or_of_lt raw.port.2.toNat_lt, Nat.or_comm]
    exact congrArg₂ (fun x y => x <<< 8 ||| y) hlo hhi
  simp [sockaddr, anyToSockaddr, h, hp]

theorem take_copyInto {buf bytes : Bytes} (h : bytes.length ≤ buf.length) :
    (copyInto buf bytes).take bytes.length = bytes := by
  simp [copyInto, List.take_of_length_le h]

-- The call of `handleDatagram` for a datagram, if there is one.
def Datagram.handled (d : Datagram) : List Handled :=
  if d.bytes = [] then [] else [(d.bytes, d.name.anyToSockaddr)]

namespace Outcome

def datagrams : Outcome → List Datagram
  | .batch ds _ => ds
  | .error _ _  => []

def stops : Outcome → Bool
  | .batch _ _           => false
  | .error err cancelled => returns err cancelled

-- The same on a socket that is read with `unix.Recvfrom`.
def recvfrom : Outcome → List Recvfrom
  | .batch ds _          => ds.map .data
  | .error err cancelled => [.error err cancelled]

end Outcome

-- The non-empty datagrams, in the order of the kernel, up to the outcome on which the loops return.
def received (os : List Outcome) : List Handled :=
  ((os.takeWhile (!·.stops)).flatMap Outcome.datagrams).flatMap Datagram.handled

theorem received_cons :
    received (o :: os) = o.datagrams.flatMap Datagram.handled ++
      if o.stops then [] else received os := by
  cases h : o.stops
  case false => simp [received, h]
  case true =>
    cases o
    case batch => cases h
    case error => simp [received, h, Outcome.datagrams]

section Inline

variable {buf : Bytes} {rest : List Recvfrom}

theorem length_copyInto {bytes : Bytes} (h : bytes.length ≤ buf.length) :
    (copyInto buf bytes).length = buf.length := by
  simp [copyInto, List.take_of_length_le h]
  omega

theorem serve_data (h : maxDatagram ≤ buf.length) :
    serve buf (.data d :: rest) = d.handled ++ serve (copyInto buf d.bytes) rest := by
  have hf := d.fits.trans h
  simp only [serve, min_eq_left hf, take_copyInto hf, Datagram.handled, List.length_pos_iff]
  by_cases hn : d.bytes = []
  case pos => simp [hn]
  case neg => simp [hn]

theorem serve_batch (ds : List Datagram) (rest : List Recvfrom) (h : maxDatagram ≤ buf.length) :
    ∃ buf', maxDatagram ≤ buf'.length ∧
      serve buf (ds.map .data ++ rest) = ds.flatMap Datagram.handled ++ serve buf' rest := by
  induction ds generalizing buf
  case nil => exact ⟨buf, h, rfl⟩
  case cons d ds hi =>
    have hl : maxDatagram ≤ (copyInto buf d.bytes).length := by
      rwa [length_copyInto (d.fits.trans h)]
    have ⟨buf', hb, he⟩ := hi hl
    refine ⟨buf', hb, ?_⟩
    simp [serve_data h, he]

-- The inline loop handles them.
theorem serve_eq_received (h : maxDatagram ≤ buf.length) :
    serve buf (os.flatMap Outcome.recvfrom) = received os := by
  induction os generalizing buf
  case nil => rfl
  case cons o os hi =>
    rw [received_cons, List.flatMap_cons]
    cases o
    case batch ds hd =>
      have ⟨buf', hb, he⟩ := serve_batch ds (os.flatMap Outcome.recvfrom) h
      simpa [Outcome.recvfrom, Outcome.datagrams, Outcome.stops, ← hi hb] using he
    case error err cancelled =>
      cases hr : returns err cancelled
      case false => simpa [Outcome.recvfrom, Outcome.datagrams, Outcome.stops, serve, hr] using hi h
      case true  => simp [Outcome.recvfrom, Outcome.datagrams, Outcome.stops, serve, hr]

end Inline

-- The calls of `handleDatagram` that a batch still has to give, from its datagram `i` on.
def Slot.handled (s : Slot) : List Handled :=
  if 0 < s.len then [(s.buf.take s.len, s.name.sockaddr)] else []

def RecvBatch.handled (b : RecvBatch) (i : Nat) : List Handled :=
  (List.range' i (b.n - i)).flatMap fun j => (b.slots j).handled

theorem Slot.handled_write {s : Slot} : (s.write d).handled = d.handled := by
  have hf : d.bytes.length ≤ s.buf.length := s.size ▸ d.fits
  simp only [Slot.handled, Slot.write, min_eq_left hf, take_copyInto hf, Datagram.handled,
    List.length_pos_iff, RawSockaddrInet6.sockaddr_eq d.inet6]
  by_cases hn : d.bytes = []
  case pos => simp [hn]
  case neg => simp [hn]

namespace RecvBatch

variable {batch : RecvBatch}

theorem handled_of_lt (h : i < batch.n) :
    batch.handled i = (batch.slots i).handled ++ batch.handled (i + 1) := by
  have hn : batch.n - i = batch.n - (i + 1) + 1 := by omega
  simp only [handled, hn, List.range'_succ, List.flatMap_cons]

theorem handled_of_le (h : batch.n ≤ i) : batch.handled i = [] := by
  simp [handled, Nat.sub_eq_zero_of_le h]

theorem handled_fill (h : ds.length ≤ recvBatchSize) :
    (batch.fill ds h).handled 0 = ds.flatMap Datagram.handled := by
  -- from the last datagram to the first
  have hd (n : Nat) : n ≤ ds.length →
      (batch.fill ds h).handled (ds.length - n) =
        (ds.drop (ds.length - n)).flatMap Datagram.handled := by
    induction n
    case zero => exact fun _ => by simp [handled_of_le, fill]
    case succ n hi =>
      intro hn
      have hlt : ds.length - (n + 1) < ds.length := by omega
      have he : ds.length - (n + 1) + 1 = ds.length - n := by omega
      rw [handled_of_lt hlt, he, hi (by omega), List.drop_eq_getElem_cons hlt,
        he, List.flatMap_cons]
      simp only [fill, List.getElem?_eq_getElem hlt, Option.elim_some, Slot.handled_write]
  simpa using hd ds.length le_rfl

end RecvBatch

def Reader.holds : Reader → List Nat
  | .resetting b | .calling b | .putting b _ | .sending b => [b]
  | _                                                     => []

-- The loop of the reader is over, and its deferred function is to run or runs.
def Reader.isOver : Reader → Bool
  | .putting _ stop                   => stop
  | .closing | .joining | .returned   => true
  | _                                 => false

def Reader.hasClosed : Reader → Bool
  | .joining | .returned => true
  | _                    => false

def Reader.weight : Reader → Nat
  | .getting         => 3
  | .resetting _     => 2
  | .calling _       => 1
  | .putting _ false => 4
  | .putting _ true  => 3
  | .sending _       => recvBatchSize + 8
  | .closing         => 2
  | .joining         => 1
  | .returned        => 0

def Processor.holds : Processor → List Nat
  | .handling b _ | .putting b => [b]
  | _                          => []

def Processor.isFinished : Processor → Bool
  | .finished => true
  | _         => false

namespace Pipeline

variable {s : Pipeline}

-- Every batch that is not garbage is in one place.
def owned (s : Pipeline) : List Nat :=
  s.pool ++ s.reader.holds ++ s.queue ++ s.processor.holds

-- What has been handled, what the batches on their way hold, and what the kernel is going to
-- return: all that is handled in the end, in order.
def inProcess (s : Pipeline) : List Handled :=
  match s.processor with
  | .handling b i => (s.heap b).handled i
  | _             => []

def inQueue (s : Pipeline) : List Handled :=
  s.queue.flatMap fun b => (s.heap b).handled 0

def inRead (s : Pipeline) : List Handled :=
  match s.reader with
  | .sending b => (s.heap b).handled 0
  | _          => []

def toCome (s : Pipeline) : List Handled :=
  if s.reader.isOver then [] else received s.kernel

def account (s : Pipeline) : List Handled :=
  s.handled ++ s.inProcess ++ s.inQueue ++ s.inRead ++ s.toCome

structure Sound (os : List Outcome) (s : Pipeline) : Prop where
  nodup    : s.owned.Nodup
  names    : ∀ b ∈ s.owned, b < s.fresh
  account  : s.account = received os
  closed   : s.qClosed = s.reader.hasClosed
  done     : s.done = s.processor.isFinished
  finished : s.done → s.qClosed ∧ s.queue = []
  joined   : s.reader = .returned → s.done
  ends     : (∃ o ∈ os, o.stops) → s.reader.isOver ∨ ∃ o ∈ s.kernel, o.stops

-- What a step of the reader can do.
inductive Reads (s : Pipeline) : Pipeline → Prop
  | wait : Reads s s
  | reuse {k b : Nat} (hr : s.reader = .getting) (hk : s.pool[k]? = some b) :
      Reads s { s with pool := s.pool.eraseIdx k, reader := .resetting b }
  | create (hr : s.reader = .getting) :
      Reads s { s.setBatch s.fresh {} with fresh := s.fresh + 1, reader := .resetting s.fresh }
  | reset {b : Nat} (hr : s.reader = .resetting b) :
      Reads s { s.setBatch b (s.heap b).reset with reader := .calling b }
  | fail {b : Nat} {err : Errno} {cancelled : Bool} {os : List Outcome} (hr : s.reader = .calling b)
      (hk : s.kernel = .error err cancelled :: os) :
      Reads s { s with kernel := os, reader := .putting b (returns err cancelled) }
  | fill {b : Nat} {ds : List Datagram} {h : ds.length ≤ recvBatchSize} {os : List Outcome}
      (hr : s.reader = .calling b) (hk : s.kernel = .batch ds h :: os) :
      Reads s { s.setBatch b ((s.heap b).fill ds h) with
        kernel := os
        reader := if ds.length = 0 then .putting b false else .sending b }
  | put {b : Nat} {stop : Bool} (hr : s.reader = .putting b stop) :
      Reads s { s with pool := s.pool ++ [b], reader := if stop then .closing else .getting }
  | send {b : Nat} (hr : s.reader = .sending b) :
    Reads s { s with queue := s.queue ++ [b], reader := .getting }
  | close (hr : s.reader = .closing) : Reads s { s with qClosed := true, reader := .joining }
  | join (hr : s.reader = .joining) (hd : s.done) : Reads s { s with reader := .returned }

theorem read_reads : s.Reads (s.read k) := by
  simp only [read]
  split
  case h_1 hr =>
    split
    case h_1 b hk => exact .reuse hr hk
    case h_2      => exact .create hr
  case h_2 hr => exact .reset hr
  case h_3 hr =>
    split
    case h_1    => exact .wait
    case h_2 hk => exact .fail hr hk
    case h_3 hk => exact .fill hr hk
  case h_4 hr => exact .put hr
  case h_5 hr =>
    split
    case isTrue  => exact .send hr
    case isFalse => exact .wait
  case h_6 hr => exact .close hr
  case h_7 hr =>
    split
    case isTrue hd => exact .join hr hd
    case isFalse   => exact .wait
  case h_8 => exact .wait

theorem handleDatagram_eq {slot : Slot} :
    s.handleDatagram slot = { s with handled := s.handled ++ slot.handled } := by
  simp only [handleDatagram, Slot.handled]
  split
  case isTrue  => rfl
  case isFalse => simp

-- What a step of the goroutine that handles the datagrams can do.
inductive Processes (s : Pipeline) : Pipeline → Prop
  | wait : Processes s s
  | receive {b : Nat} {queue : List Nat} (hp : s.processor = .receiving)
    (hq : s.queue = b :: queue) :
      Processes s { s with queue := queue, processor := .handling b 0 }
  | finish (hp : s.processor = .receiving) (hq : s.queue = []) (hc : s.qClosed) :
      Processes s { s with done := true, processor := .finished }
  | handle {b i : Nat} (hp : s.processor = .handling b i) (hi : i < (s.heap b).n) :
      Processes s { s with
        handled   := s.handled ++ ((s.heap b).slots i).handled
        processor := .handling b (i + 1) }
  | leave {b i : Nat} (hp : s.processor = .handling b i) (hi : (s.heap b).n ≤ i) :
      Processes s { s with processor := .putting b }
  | put {b : Nat} (hp : s.processor = .putting b) :
      Processes s { s with pool := s.pool ++ [b], processor := .receiving }

theorem process_processes : s.Processes s.process := by
  simp only [process]
  split
  case h_1 hp =>
    split
    case h_1 hq => exact .receive hp hq
    case h_2 hq =>
      split
      case isTrue hc => exact .finish hp hq hc
      case isFalse   => exact .wait
  case h_2 hp =>
    split
    case isTrue hi  => exact handleDatagram_eq ▸ .handle hp hi
    case isFalse hi => exact .leave hp (by omega)
  case h_3 hp => exact .put hp
  case h_4    => exact .wait

theorem inProcess_congr {s' : Pipeline} (hp : s'.processor = s.processor)
    (hh : ∀ b ∈ s.processor.holds, s'.heap b = s.heap b) : s'.inProcess = s.inProcess := by
  simp only [inProcess, hp]
  cases h : s.processor
  case handling b i => exact congrArg (RecvBatch.handled · i) (hh b (by simp [h, Processor.holds]))
  case receiving | putting | finished => rfl

theorem inQueue_congr {s' : Pipeline} (hq : s'.queue = s.queue)
    (hh : ∀ b ∈ s.queue, s'.heap b = s.heap b) : s'.inQueue = s.inQueue := by
  simp only [inQueue, hq]
  exact List.flatMap_congr fun b hb => congrArg (RecvBatch.handled · 0) (hh b hb)

namespace Reads

variable {s' : Pipeline}

-- A batch moves with the goroutine that has it, or is new.
theorem owned (h : s.Reads s') :
    s'.owned.Perm s.owned ∧ s'.fresh = s.fresh ∨ s'.owned.Perm (s.fresh :: s.owned) ∧
      s'.fresh = s.fresh + 1 := by
  cases h
  case wait => exact .inl ⟨.refl _, rfl⟩
  case reuse k b hr hk =>
    refine .inl ⟨?_, rfl⟩
    have ⟨hlt, he⟩ := List.getElem?_eq_some_iff.mp hk
    have hp : (b :: s.pool.eraseIdx k).Perm s.pool := he ▸ List.getElem_cons_eraseIdx_perm hlt
    rw [List.perm_iff_count]
    intro x
    have hc := hp.count_eq x
    simp only [Pipeline.owned, hr, Reader.holds, List.count_append, List.count_cons, List.count_nil]
      at hc ⊢
    omega
  case create hr =>
    refine .inr ⟨?_, rfl⟩
    rw [List.perm_iff_count]
    intro x
    simp only [Pipeline.owned, setBatch, hr, Reader.holds, List.count_append,
      List.count_cons, List.count_nil]
    omega
  case reset hr   => exact .inl ⟨by simp [Pipeline.owned, setBatch, hr, Reader.holds], rfl⟩
  case fail hr _  => exact .inl ⟨by simp [Pipeline.owned, hr, Reader.holds], rfl⟩
  case fill hr _  =>
    refine .inl ⟨?_, rfl⟩
    simp only [Pipeline.owned, setBatch, hr]
    split
    case isTrue  => exact .refl _
    case isFalse => exact .refl _
  case put stop hr =>
    refine .inl ⟨?_, rfl⟩
    cases stop <;> simp [Pipeline.owned, hr, Reader.holds]
  case send hr =>
    refine .inl ⟨?_, rfl⟩
    rw [List.perm_iff_count]
    intro x
    simp only [Pipeline.owned, hr, Reader.holds, List.count_append, List.count_cons, List.count_nil]
    omega
  case close hr   => exact .inl ⟨by simp [Pipeline.owned, hr, Reader.holds], rfl⟩
  case join hr _  => exact .inl ⟨by simp [Pipeline.owned, hr, Reader.holds], rfl⟩

-- The reader writes to no batch but its own.
theorem heap (h : s.Reads s') (hs : s.Sound os) (hb : b ∈ s.queue ++ s.processor.holds) :
    s'.heap b = s.heap b := by
  have hn : b ∉ s.reader.holds := by
    intro hr
    have hd := hs.nodup
    rw [Pipeline.owned, List.append_assoc] at hd
    exact (List.nodup_append.mp hd).2.2 b (List.mem_append_right _ hr) b hb rfl
  have hf : b ≠ s.fresh := by
    have ho : b ∈ s.owned := by
      rw [Pipeline.owned, List.append_assoc]
      exact List.mem_append_right _ hb
    exact Nat.ne_of_lt (hs.names b ho)
  have hset {b' : Nat} {batch : RecvBatch} (hr : b' ∈ s.reader.holds) :
      (s.setBatch b' batch).heap b = s.heap b :=
    Function.update_of_ne (show b ≠ b' from fun e => hn (e ▸ hr)) ..
  cases h
  case create    => exact Function.update_of_ne hf ..
  case reset hr  => exact hset (by simp [hr, Reader.holds])
  case fill hr _ => exact hset (by simp [hr, Reader.holds])
  case wait | reuse | fail | put | send | close | join => rfl

-- What the kernel returns goes into a batch, and a batch into the queue.
theorem account (h : s.Reads s') (hs : s.Sound os) : s'.account = s.account := by
  have hq (b) (hb : b ∈ s.queue) := h.heap hs (List.mem_append_left s.processor.holds hb)
  have hp (b) (hb : b ∈ s.processor.holds) := h.heap hs (List.mem_append_right s.queue hb)
  have keep (hh : s'.handled = s.handled) (hsq : s'.queue = s.queue)
      (hsp : s'.processor = s.processor)
      (ht : s'.inRead ++ s'.toCome = s.inRead ++ s.toCome) : s'.account = s.account := by
    simp only [Pipeline.account, hh, inProcess_congr hsp hp, inQueue_congr hsq hq,
      List.append_assoc, ht]
  cases h
  case wait         => rfl
  case reuse hr _   => exact keep rfl rfl rfl (by simp [inRead, toCome, hr, Reader.isOver])
  case create hr    =>
    exact keep rfl rfl rfl (by simp [inRead, toCome, hr, Reader.isOver, setBatch])
  case reset hr     =>
    exact keep rfl rfl rfl (by simp [inRead, toCome, hr, Reader.isOver, setBatch])
  case fail err cancelled os hr hk =>
    refine keep rfl rfl rfl ?_
    cases hc : returns err cancelled <;>
      simp [inRead, toCome, hr, hk, Reader.isOver, received_cons,
        Outcome.datagrams, Outcome.stops, hc]
  case fill b ds hd os hr hk =>
    refine keep rfl rfl rfl ?_
    have hf := (s.heap b).handled_fill hd
    by_cases hz : ds.length = 0
    case pos =>
      simp [inRead, toCome, hr, hk, Reader.isOver, received_cons, Outcome.datagrams, Outcome.stops,
        List.eq_nil_of_length_eq_zero hz]
    case neg =>
      simp [inRead, toCome, hr, hk, hz, Reader.isOver, received_cons, Outcome.datagrams,
        Outcome.stops, setBatch, hf]
  case put stop hr  =>
    refine keep rfl rfl rfl ?_
    cases stop <;> simp [inRead, toCome, hr, Reader.isOver]
  case send b hr    =>
    simp [Pipeline.account, inProcess, inQueue, inRead, toCome, hr, Reader.isOver]
  case close hr     => exact keep rfl rfl rfl (by simp [inRead, toCome, hr, Reader.isOver])
  case join hr _    => exact keep rfl rfl rfl (by simp [inRead, toCome, hr, Reader.isOver])

theorem closed (h : s.Reads s') (hs : s.Sound os) : s'.qClosed = s'.reader.hasClosed := by
  have hc := hs.closed
  cases h
  case wait         => exact hc
  case fill ds _ _ hr _ =>
    rw [hr] at hc
    by_cases hz : ds.length = 0 <;> simpa [hz, setBatch, Reader.hasClosed] using hc
  case put stop hr  =>
    rw [hr] at hc
    cases stop <;> exact hc
  case close        => rfl
  case reuse hr _ | create hr | reset hr | fail hr _ | send hr | join hr _ =>
    rw [hr] at hc
    exact hc

theorem processor (h : s.Reads s') : s'.processor = s.processor ∧ s'.done = s.done := by
  cases h <;> exact ⟨rfl, rfl⟩

-- The queue is closed after the last batch went into it.
theorem finished (h : s.Reads s') (hs : s.Sound os) (hd : s.done) : s'.qClosed ∧ s'.queue = [] := by
  have ⟨hc, hq⟩ := hs.finished hd
  cases h
  case send hr => exact absurd (hs.closed.symm.trans hc) (by simp [hr, Reader.hasClosed])
  case close   => exact ⟨rfl, hq⟩
  case wait | reuse | create | reset | fail | fill | put | join => exact ⟨hc, hq⟩

theorem joined (h : s.Reads s') (hs : s.Sound os) (hr : s'.reader = .returned) : s'.done := by
  cases h
  case wait        => exact hs.joined hr
  case join hd     => exact hd
  case fill ds _ _ _ _ => by_cases hz : ds.length = 0 <;> simp [hz] at hr
  case put stop _  => cases stop <;> cases hr
  case reuse | create | reset | fail | send | close => cases hr

theorem ends (h : s.Reads s') (he : s.reader.isOver ∨ ∃ o ∈ s.kernel, o.stops) :
    s'.reader.isOver ∨ ∃ o ∈ s'.kernel, o.stops := by
  cases h
  case wait => exact he
  case fail err cancelled os hr hk =>
    cases hc : returns err cancelled
    case true  => exact .inl (by simp [Reader.isOver])
    case false => simpa [hr, hk, Reader.isOver, Outcome.stops, hc] using he
  case fill ds hd os hr hk =>
    have ho : ∃ o ∈ os, o.stops := by simpa [hr, hk, Reader.isOver, Outcome.stops] using he
    exact .inr ho
  case put stop hr =>
    cases stop
    case false => simpa [hr, Reader.isOver] using he
    case true  => exact .inl rfl
  case reuse hr _ | create hr | reset hr | send hr =>
    exact .inr (by simpa [hr, Reader.isOver, setBatch] using he)
  case close | join => exact .inl rfl

theorem sound (h : s.Reads s') (hs : s.Sound os) : s'.Sound os := by
  have ⟨hp, hd⟩ := h.processor
  refine ⟨?nodup, ?names, (h.account hs).trans hs.account, h.closed hs, ?done,
    ?finished, h.joined hs, fun he => h.ends (hs.ends he)⟩
  case nodup =>
    match h.owned with
    | .inl ⟨ho, _⟩ => exact ho.nodup_iff.mpr hs.nodup
    | .inr ⟨ho, _⟩ =>
      refine ho.nodup_iff.mpr (List.nodup_cons.mpr ⟨fun hm => ?_, hs.nodup⟩)
      exact Nat.lt_irrefl _ (hs.names _ hm)
  case names =>
    intro b hb
    match h.owned with
    | .inl ⟨ho, hf⟩ => exact hf ▸ hs.names b (ho.mem_iff.mp hb)
    | .inr ⟨ho, hf⟩ =>
      rw [hf]
      match List.mem_cons.mp (ho.mem_iff.mp hb) with
      | .inl e  => exact e ▸ Nat.lt_succ_self _
      | .inr hb => exact Nat.lt_succ_of_lt (hs.names b hb)
  case done     => exact hd.trans (hp ▸ hs.done)
  case finished => exact fun h' => h.finished hs (hd ▸ h')

end Reads

namespace Processes

variable {s' : Pipeline}

theorem owned (h : s.Processes s') : s'.owned.Perm s.owned := by
  cases h
  case wait => exact .refl _
  case receive hp hq =>
    rw [List.perm_iff_count]
    intro x
    simp only [Pipeline.owned, hp, hq, Processor.holds, List.count_append,
      List.count_cons, List.count_nil]
    omega
  case finish hp _ _ => simp [Pipeline.owned, hp, Processor.holds]
  case handle hp _   => simp [Pipeline.owned, hp, Processor.holds]
  case leave hp _    => simp [Pipeline.owned, hp, Processor.holds]
  case put hp        =>
    rw [List.perm_iff_count]
    intro x
    simp only [Pipeline.owned, hp, Processor.holds, List.count_append,
      List.count_cons, List.count_nil]
    omega

theorem heap (h : s.Processes s') : s'.heap = s.heap := by
  cases h <;> rfl

theorem account (h : s.Processes s') : s'.account = s.account := by
  cases h
  case wait          => rfl
  case receive hp hq => simp [Pipeline.account, inProcess, inQueue, inRead, toCome, hp, hq]
  case finish hp _ _ => simp [Pipeline.account, inProcess, inQueue, inRead, toCome, hp]
  case handle b i hp hi =>
    simp [Pipeline.account, inProcess, inQueue, inRead, toCome, hp, RecvBatch.handled_of_lt hi]
  case leave hp hi   =>
    simp [Pipeline.account, inProcess, inQueue, inRead, toCome, hp, RecvBatch.handled_of_le hi]
  case put hp        => simp [Pipeline.account, inProcess, inQueue, inRead, toCome, hp]

theorem reader (h : s.Processes s') :
    s'.reader = s.reader ∧ s'.kernel = s.kernel ∧ s'.qClosed = s.qClosed ∧ s'.fresh = s.fresh := by
  cases h <;> exact ⟨rfl, rfl, rfl, rfl⟩

theorem done (h : s.Processes s') (hs : s.Sound os) : s'.done = s'.processor.isFinished := by
  have hd := hs.done
  cases h
  case wait        => exact hd
  case finish      => rfl
  case receive hp _ | handle hp _ | leave hp _ | put hp =>
    rw [hp] at hd
    exact hd

-- The goroutine finishes with a queue that stays closed and empty.
theorem finished (h : s.Processes s') (hs : s.Sound os) (hd : s'.done) :
    s'.qClosed ∧ s'.queue = [] := by
  cases h
  case wait         => exact hs.finished hd
  case finish hq hc => exact ⟨hc, hq⟩
  case receive hp _ | handle hp _ | leave hp _ | put hp =>
    exact absurd (hs.done.symm.trans hd) (by simp [hp, Processor.isFinished])

theorem done_mono (h : s.Processes s') (hd : s.done) : s'.done := by
  cases h
  case finish => rfl
  case wait | receive | handle | leave | put => exact hd

theorem sound (h : s.Processes s') (hs : s.Sound os) : s'.Sound os := by
  have ⟨hr, hk, hc, hf⟩ := h.reader
  refine ⟨h.owned.nodup_iff.mpr hs.nodup, fun b hb => hf ▸ hs.names b (h.owned.mem_iff.mp hb),
    h.account.trans hs.account, hc.trans (hr ▸ hs.closed), h.done hs, h.finished hs,
      ?joined, hr ▸ hk ▸ hs.ends⟩
  case joined => exact fun h' => h.done_mono (hs.joined (hr ▸ h'))

end Processes

namespace Sound

variable {a : Action} {as : List Action}

theorem init {recvQueue : Nat} : (new recvQueue os).Sound os := by
  refine ⟨.nil, nofun, ?_, rfl, rfl, nofun, nofun, .inr⟩
  simp [Pipeline.account, new, inProcess, inQueue, inRead, toCome, Reader.isOver]

theorem step (h : s.Sound os) : (s.step a).Sound os := by
  cases a
  case read    => exact read_reads.sound h
  case process => exact process_processes.sound h
  case collect k =>
    have hp : (s.pool.eraseIdx k).Sublist s.pool := List.eraseIdx_sublist ..
    have ho : { s with pool := s.pool.eraseIdx k }.owned.Sublist s.owned :=
      ((hp.append_right _).append_right _).append_right _
    exact ⟨ho.nodup h.nodup, fun b hb => h.names b (ho.mem hb), h.account, h.closed, h.done,
      h.finished, h.joined, h.ends⟩

theorem exec (h : s.Sound os) : (Run.exec Pipeline.step s as).Sound os :=
  Run.exec_of_step (Sound os) (fun _ _ => step) h

theorem handled_prefix (h : s.Sound os) : s.handled <+: received os := by
  rw [← h.account]
  simp only [Pipeline.account, List.append_assoc]
  exact List.prefix_append ..

-- Everything is handled when the reader has returned.
theorem handled_of_returned (h : s.Sound os) (hr : s.reader = .returned) :
    s.handled = received os ∧ s.queue = [] ∧ s.processor = .finished := by
  have hd := h.joined hr
  have ⟨_, hq⟩ := h.finished hd
  have hf : s.processor = .finished := by
    have hp := h.done.symm.trans hd
    cases hs : s.processor
    case finished => rfl
    case receiving | handling | putting => simp [hs, Processor.isFinished] at hp
  refine ⟨?_, hq, hf⟩
  rw [← h.account]
  simp [Pipeline.account, inProcess, inQueue, inRead, toCome, Reader.isOver, hr, hf, hq]

theorem heap_step (h : s.Sound os) (hb : b ∈ s.queue ++ s.processor.holds) :
    (s.step a).heap b = s.heap b := by
  cases a
  case read    => exact read_reads.heap h hb
  case process => exact congrFun process_processes.heap b
  case collect => rfl

end Sound

-- A bound for the steps that are left: what the kernel returns, the batches in the queue, and the
-- places of the two goroutines.
def processorWeight (s : Pipeline) : Nat :=
  match s.processor with
  | .receiving    => 1
  | .handling b i => (s.heap b).n - i + 3
  | .putting _    => 2
  | .finished     => 0

def weight (s : Pipeline) : Nat :=
  (recvBatchSize + 8) * s.kernel.length + s.reader.weight + (recvBatchSize + 4) *
    s.queue.length + s.processorWeight

theorem processorWeight_congr {s' : Pipeline} (hp : s'.processor = s.processor)
    (hh : ∀ b ∈ s.processor.holds, s'.heap b = s.heap b) :
    s'.processorWeight = s.processorWeight := by
  simp only [processorWeight, hp]
  cases h : s.processor
  case handling b i => simp only [hh b (by simp [h, Processor.holds])]
  case receiving | putting | finished => rfl

theorem Processes.weight_lt {s' : Pipeline} (h : s.Processes s')
    (hne : s'.processor ≠ s.processor) : s'.weight < s.weight := by
  cases h
  case wait => exact absurd rfl hne
  case receive b queue hp hq =>
    have := (s.heap b).le
    simp only [weight, processorWeight, hp, hq, List.length_cons, recvBatchSize] at this ⊢
    omega
  case finish hp hq _ => simp [weight, processorWeight, hp]
  case handle hp hi =>
    simp only [weight, processorWeight, hp]
    omega
  case leave hp hi =>
    simp only [weight, processorWeight, hp]
    omega
  case put hp => simp [weight, processorWeight, hp]

theorem Reads.weight_lt {s' : Pipeline} (h : s.Reads s') (hs : s.Sound os)
    (hne : s'.reader ≠ s.reader) : s'.weight < s.weight := by
  have hp : s'.processorWeight = s.processorWeight :=
    processorWeight_congr h.processor.1 fun b hb => h.heap hs (List.mem_append_right _ hb)
  simp only [weight, hp]
  cases h
  case wait => exact absurd rfl hne
  case fill ds _ os hr hk =>
    by_cases hz : ds.length = 0
    case pos =>
      simp only [hr, hk, hz, if_true, Reader.weight, setBatch, List.length_cons, recvBatchSize]
      omega
    case neg =>
      simp only [hr, hk, hz, if_false, Reader.weight, setBatch, List.length_cons, recvBatchSize]
      omega
  case fail err cancelled os hr hk =>
    cases hc : returns err cancelled <;> simp only [hr, hk, Reader.weight, List.length_cons,
      recvBatchSize] <;> omega
  case put stop hr =>
    cases stop <;> simp [hr, Reader.weight]
  case send hr =>
    simp only [hr, Reader.weight, List.length_append, List.length_singleton, recvBatchSize]
    omega
  case reuse hr _ | create hr | reset hr | close hr | join hr _ =>
    simp [hr, Reader.weight, setBatch]

theorem process_moves (hf : s.processor ≠ .finished)
    (hw : s.processor = .receiving → s.queue ≠ [] ∨ s.qClosed) :
    s.process.processor ≠ s.processor := by
  simp only [process]
  split
  case h_1 hp =>
    split
    case h_1    => simp [hp]
    case h_2 hq => simp [hp, (hw hp).resolve_left (not_not.mpr hq)]
  case h_2 hp =>
    split
    case isTrue  => simp [hp]
    case isFalse => simp [hp]
  case h_3 hp => simp [hp]
  case h_4 hp => exact absurd hp hf

-- Until the reader has returned, one of the goroutines can go on: the reader waits for a place in
-- the queue only while there is a batch for the other goroutine, or at the end for it to finish.
theorem Sound.progress (h : s.Sound os) (he : ∃ o ∈ os, o.stops) (hr : s.reader ≠ .returned) :
    ∃ a, (s.step a).weight < s.weight := by
  have reads (hne : (s.read 0).reader ≠ s.reader) : ∃ a, (s.step a).weight < s.weight :=
    ⟨.read 0, read_reads.weight_lt h hne⟩
  have processes (hf : s.processor ≠ .finished) (hw : s.processor = .receiving →
      s.queue ≠ [] ∨ s.qClosed) :
      ∃ a, (s.step a).weight < s.weight :=
        ⟨.process, process_processes.weight_lt (process_moves hf hw)⟩
  cases hs : s.reader
  case getting =>
    refine reads ?_
    simp only [read, hs]
    split <;> simp
  case calling b =>
    have ⟨o, ho, _⟩ := (h.ends he).resolve_left (by simp [hs, Reader.isOver])
    have ⟨o, os, hk⟩ := List.exists_cons_of_ne_nil (List.ne_nil_of_mem ho)
    refine reads ?_
    cases o
    case error => simp [read, hs, hk]
    case batch ds _ => by_cases hz : ds.length = 0 <;> simp [read, hs, hk, hz]
  case putting b stop => exact reads (by cases stop <;> simp [read, hs])
  case sending b =>
    cases hm : s.room
    case true  => exact reads (by simp [read, hs, hm])
    case false =>
      refine processes ?_ fun hp => .inl ?_
      case refine_1 =>
        intro hp
        have hd : s.done := h.done.trans (by simp [hp, Processor.isFinished])
        exact absurd (h.closed.symm.trans (h.finished hd).1) (by simp [hs, Reader.hasClosed])
      case refine_2 =>
        intro hq
        simp [room, hq, hp, Processor.isReceiving] at hm
  case joining =>
    cases hd : s.done
    case true  => exact reads (by simp [read, hs, hd])
    case false =>
      refine processes ?_ fun _ => .inr (by simp [h.closed, hs, Reader.hasClosed])
      intro hp
      exact absurd (hd.symm.trans h.done) (by simp [hp, Processor.isFinished])
  case resetting => exact reads (by simp [read, hs])
  case closing   => exact reads (by simp [read, hs])
  case returned  => exact absurd hs hr

theorem Sound.returns (h : s.Sound os) (he : ∃ o ∈ os, o.stops) :
    ∃ as, (Run.exec Pipeline.step s as).reader = .returned := by
  induction hn : s.weight using Nat.strong_induction_on generalizing s
  case h n hi =>
    by_cases hr : s.reader = .returned
    case pos => exact ⟨[], hr⟩
    case neg =>
      have ⟨a, ha⟩ := h.progress he hr
      have ⟨as, has⟩ := hi _ (hn ▸ ha) h.step rfl
      exact ⟨a :: as, has⟩

end Pipeline

theorem pipelined_as_inline (recvQueue : Nat) (os : List Outcome) (as : List Pipeline.Action) :
    let s := Run.exec Pipeline.step (.new recvQueue os) as
    let inline := serve (List.replicate recvBufSize 0) (os.flatMap Outcome.recvfrom)
    inline = received os ∧
    s.handled <+: inline ∧
    (s.reader = .returned → s.handled = inline ∧ s.queue = [] ∧ s.processor = .finished) ∧
    (∀ a, ∀ b ∈ s.queue ++ s.processor.holds, (s.step a).heap b = s.heap b) ∧
    ((∃ o ∈ os, o.stops) → ∃ bs, (Run.exec Pipeline.step s bs).reader = .returned) := by
  intro s inline
  have h : s.Sound os := Pipeline.Sound.init.exec
  have hi : inline = received os := serve_eq_received (by rw [List.length_replicate]; decide)
  exact ⟨hi, hi ▸ h.handled_prefix, fun hr => hi ▸ h.handled_of_returned hr,
    fun a b hb => h.heap_step hb, h.returns⟩

end Receive
