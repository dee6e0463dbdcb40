import ShardListener.Egress.Theorems.Stream
import ShardListener.Worker.Theorems.Delivery

-- A receiver, the senders to its delivery hosts, and the hosts.

namespace Worker.Egress

-- The method of the sink that the call is on, for the calls that there are on this sink.
def message : Worker.Egress → Egress.Message
  | .send raw f            => .tx raw f
  | .sendBlock raw f       => .block raw f
  | .sendSubtreeData raw f => .subtreeData raw f
  | .sendBeef raw f        => .beef raw f
  | k                      => .plain k.raw

theorem buffer_message {obj : Egress.Objects} {k : Worker.Egress} :
    k.message.buffer obj false = .ok k.raw := by
  cases k <;> rfl

end Worker.Egress

namespace Egress

variable {obj : Objects} {i : ℕ}

namespace Unicast

variable {s : Unicast} {a : Answers} {k : Worker.Egress}

-- A sender over UDP that leaves the header on.
def Relays (s : Unicast) : Prop :=
  s.proto = .udp ∧ s.stripHeader = false

theorem Relays.send (h : s.Relays) : (s.send obj a k.message).1.Relays := by
  obtain ⟨hp, hstrip⟩ := h
  simp only [Unicast.send, hstrip, k.buffer_message, hp]
  exact ⟨hp, hstrip⟩

theorem Relays.datagrams_send (h : s.Relays) :
    (s.send obj a k.message).1.datagrams =
      s.datagrams ++ if (s.send obj a k.message).2.isNone then [k.raw] else [] := by
  obtain ⟨hp, hstrip⟩ := h
  simp only [Unicast.send, hstrip, k.buffer_message, hp, sendUDP, Option.isNone_map]
  split
  case isTrue  => rfl
  case isFalse => exact (List.append_nil _).symm

end Unicast

namespace MultiSender

-- A call of the worker, with what the network answers to each of the senders.
abbrev Call := Worker.Egress × (ℕ → Answers)

variable {m : MultiSender} {s : Unicast} {c : Call} {calls : List Call}

def perform (obj : Objects) (m : MultiSender) (c : Call) : MultiSender × List Failure :=
  m.send obj c.2 c.1.message

def deliver (obj : Objects) : MultiSender → List Call → MultiSender :=
  Run.exec fun m c => (m.perform obj c).1

-- The calls that sender `i` got out.
def acknowledged (obj : Objects) (i : ℕ) : MultiSender → List Call → List Worker.Egress
  | _, []         => []
  | m, c :: calls =>
    (if m.senders[i]?.any fun s => (s.send obj (c.2 i) c.1.message).2.isNone then [c.1] else []) ++
      acknowledged obj i (m.perform obj c).1 calls

theorem senders_perform (hs : m.senders[i]? = some s) :
    (m.perform obj c).1.senders[i]? = some (s.send obj (c.2 i) c.1.message).1 := by
  simp [perform, send, fanout, hs]

-- The errors of all senders are joined.
theorem perform_ok (h : (m.perform obj c).2 = []) (hs : m.senders[i]? = some s) :
    (s.send obj (c.2 i) c.1.message).2 = none := by
  have hmem : s.send obj (c.2 i) c.1.message ∈
      m.senders.mapIdx fun i s => s.send obj (c.2 i) c.1.message :=
    List.mem_of_getElem? (i := i) (by simp [hs])
  simp only [perform, send, fanout, List.filterMap_eq_nil_iff] at h
  exact h _ hmem

-- What the other senders do and what they meet with makes no difference to sender `i`.
theorem datagrams_deliver (calls : List Call) (hs : m.senders[i]? = some s) (hr : s.Relays) :
    ∃ s', (m.deliver obj calls).senders[i]? = some s' ∧
      s'.datagrams = s.datagrams ++ (m.acknowledged obj i calls).map (·.raw) := by
  induction calls generalizing m s
  case nil => exact ⟨s, hs, (List.append_nil _).symm⟩
  case cons c calls hi =>
    obtain ⟨s', hs', hd⟩ := hi (senders_perform hs) hr.send
    refine ⟨s', hs', hd.trans ?_⟩
    rw [hr.datagrams_send, acknowledged, hs, Option.any_some, List.map_append, List.append_assoc]
    split <;> rfl

theorem acknowledged_of_ok (hs : m.senders[i]? = some s)
    (h : Run.Along (fun m c => (m.perform obj c).1) (fun m c => (m.perform obj c).2 = []) m calls) :
    m.acknowledged obj i calls = calls.map (·.1) := by
  induction calls generalizing m s
  case nil => rfl
  case cons c calls hi =>
    rw [acknowledged, hi (senders_perform hs) h.2, hs, Option.any_some, perform_ok h.1 hs]
    rfl

theorem mem_of_acknowledged {k : Worker.Egress} (hk : k ∈ m.acknowledged obj i calls) :
    k ∈ calls.map (·.1) := by
  induction calls generalizing m
  case nil => cases hk
  case cons c calls hi =>
    rcases List.mem_append.mp hk with hk | hk
    case inl =>
      obtain ⟨_, hk⟩ := List.mem_ite_nil_right.mp hk
      exact List.mem_singleton.mp hk ▸ List.mem_cons_self
    case inr => exact List.mem_cons_of_mem _ (hi hk)

theorem length_deliver : (m.deliver obj calls).senders.length = m.senders.length := by
  refine Run.exec_of_step (fun m' : MultiSender => m'.senders.length = m.senders.length) ?_ rfl
  intro m' c h
  simpa [perform, send, fanout] using h

-- The senders that a receiver starts with.

variable {senders : List (Option Unicast)} {ss : List Unicast}

theorem mem_of_mapM (h : senders.mapM id = some ss) (hs : s ∈ ss) : some s ∈ senders := by
  induction senders generalizing ss
  case nil => cases h; cases hs
  case cons o os hi =>
    simp only [List.mapM_cons, id_eq, Option.bind_eq_bind, Option.bind_eq_some_iff] at h
    obtain ⟨s₀, rfl, ss₀, hss, h⟩ := h
    cases h
    rcases List.mem_cons.mp hs with rfl | hs
    case inl => exact List.mem_cons_self
    case inr => exact List.mem_cons_of_mem _ (hi hss hs)

theorem mem_of_newMulti (hm : newMulti senders = some m) (hs : s ∈ m.senders) :
    some s ∈ senders := by
  unfold newMulti at hm
  split at hm
  case h_1     => cases hm
  case h_2     => cases hm
  case h_3 h   => cases hm; exact mem_of_mapM h hs

-- What `New` is given for a delivery host: whether its address is valid, and how the first dial
-- goes.
abbrev Host := Bool × Time × Option Errno

def relays (hosts : List Host) : Option MultiSender :=
  newMulti (hosts.map fun h => Unicast.new h.1 h.2.1 h.2.2 .udp false)

theorem relays_of_mem {hosts : List Host} (hm : relays hosts = some m) (hs : s ∈ m.senders) :
    s.Relays ∧ s.datagrams = [] := by
  obtain ⟨h, _, hnew⟩ := List.mem_map.mp (mem_of_newMulti hm hs)
  simp only [Unicast.new] at hnew
  split at hnew
  case isTrue  => cases hnew; exact ⟨⟨rfl, rfl⟩, rfl⟩
  case isFalse => cases hnew

end MultiSender
end Egress

namespace Node

open Worker Egress

variable {wire : Wire} {cfg : Settings} {obj : Objects} {m : MultiSender} {s : Unicast} {i : ℕ}

theorem exists_of_map_raw {arrivals : List (Env × Bytes)} {ks : List Worker.Egress}
    (h : arrivals.map (·.2) = ks.map (·.raw)) :
    ∃ xs : List (Env × Worker.Egress), arrivals = xs.map (fun x => (x.1, x.2.raw)) ∧
      xs.map (·.2) = ks := by
  induction ks generalizing arrivals
  case nil => exact ⟨[], List.map_eq_nil_iff.mp h, rfl⟩
  case cons k ks hi =>
    obtain ⟨⟨env, raw⟩, rest, rfl, hraw, hrest⟩ := List.map_eq_cons_iff.mp h
    obtain ⟨xs, rfl, rfl⟩ := hi hrest
    subst hraw
    exact ⟨(env, k) :: xs, rfl, rfl⟩

def refusedByFirst : MultiSender.Call :=
  (.send [7] relayedFrame, fun i =>
    { now := 0, writeUDP := if i = 0 then some (.other 111) else none })

end Node
