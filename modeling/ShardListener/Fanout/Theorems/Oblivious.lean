import ShardListener.Fanout.Theorems.Shared

namespace Fanout

variable {ρ ε : Type} {env : Env ρ ε} {headerSink : ρ → Bool} {k : Call} {c : ρ} {cs : List ρ}
variable {s : Sink ρ ε} {p : Pass ρ ε} {q : Pass ρ ε × Nat}

-- The same consumers, with sinks that accept everything.
def Env.obliging (env : Env ρ ε) : Env ρ Unit where
  wire          := env.wire
  engine        := env.engine
  beefEngine    := env.beefEngine
  hash          := env.hash
  consumer      := env.consumer
  reply _ _ _ _ := none
  isNotElected  := fun _ => false

-- What is left of the record without what the sinks returned.

def Outcome.forget : Outcome ε → Outcome Unit
  | .sent calls               => .sent (calls.map fun k => (k.1, none))
  | .ingress wire members     => .ingress wire members
  | .beefFiltered reason wire => .beefFiltered reason wire

def Entry.forget (e : Entry ρ ε) : Entry ρ Unit :=
  ⟨e.consumer, e.outcome.forget⟩

def Sink.forget (s : Sink ρ ε) : Sink ρ Unit where
  consumers := s.consumers
  byShard   := s.byShard
  allShards := s.allShards
  egressSeq := s.egressSeq
  log       := s.log.map Entry.forget

def Pass.forget (p : Pass ρ ε) : Pass ρ Unit where
  sink    := p.sink.forget
  members := p.members

theorem note_forget {outcome : Outcome ε} :
    (p.note c outcome).forget = p.forget.note c outcome.forget := by
  simp only [Pass.note, Pass.forget, Sink.forget, List.map_append]
  rfl

theorem foldl_attempt_obliging {log : List (Entry ρ Unit)} {ks : List Worker.Egress}
    {calls : List (Worker.Egress × Option Unit)} :
    ks.foldl (attempt env.obliging log c) (calls, none) =
      (calls ++ ks.map fun k => (k, none), none) := by
  induction ks generalizing calls
  case nil          => simp
  case cons k ks hi =>
    rw [List.foldl_cons, List.map_cons, List.append_cons]
    exact hi

theorem calls_forget {ks : List Worker.Egress} :
    (p.calls env c ks).forget = p.forget.calls env.obliging c ks := by
  obtain ⟨calls, hk, e⟩ := Extends.foldl_attempt env c p.sink.log ([], p.firstErr) ks
  have h : (p.calls env c ks).forget = (p.note c (.sent calls)).forget := by
    simp only [Pass.calls, e]
    rfl
  rw [h, note_forget]
  have ho : p.forget.calls env.obliging c ks =
      p.forget.note c (.sent (ks.map fun k => (k, none))) := by
    simp only [Pass.calls, Pass.forget, foldl_attempt_obliging]
    rfl
  rw [ho, ← hk, List.map_map]
  rfl

theorem decoalesced_forget {b : Bundle} :
    (p.forget.decoalesced env.obliging b) =
      ((p.decoalesced env b).1, (p.decoalesced env b).2.forget) := by
  unfold Pass.decoalesced
  cases hm : p.members
  all_goals simp only [Pass.forget, hm]
  case none => rfl

theorem item_turn_forget {item : Item} {g : GroupIdx} :
    (item.turn env g p c).forget = item.turn env.obliging g p.forget c := by
  cases item
  case frame raw f =>
    simp only [Item.turn, deliverFrame, apply_ite Pass.forget, note_forget, calls_forget]
    rfl
  case bundle raw b =>
    simp only [Item.turn, deliverBundle, apply_ite Pass.forget, note_forget, calls_forget,
      decoalesced_forget]
    rfl
  case beef raw f =>
    have hm : matchedTopic env.obliging (env.obliging.consumer c) f =
        matchedTopic env (env.consumer c) f := rfl
    simp only [Item.turn, deliverBeef, hm]
    cases matchedTopic env (env.consumer c) f
    case none => simp only [apply_ite Pass.forget, note_forget]; rfl
    case some => simp only [apply_ite Pass.forget, note_forget, calls_forget]; rfl

theorem turn_forget {n : Nat} :
    (k.turn env headerSink q c).1.forget =
      (k.turn env.obliging headerSink (q.1.forget, n) c).1 := by
  cases k
  case item item =>
    have hg : item.group env.obliging = item.group env := by cases item <;> rfl
    simp only [Call.turn, hg]
    cases item.group env
    case none => rfl
    case some => exact item_turn_forget
  case header =>
    simp only [Call.turn, deliverHeader]
    split
    case isTrue  => exact calls_forget
    case isFalse => rfl
  all_goals exact calls_forget

theorem snapshot_forget : s.forget.snapshot env.obliging k = s.snapshot env k := by
  cases k
  case item item => cases item <;> rfl
  all_goals rfl

-- A method under way, but for the number of headers that it has delivered.
inductive Running.Alike : Option (Running ρ ε) → Option (Running ρ Unit) → Prop
  | idle : Alike none none
  | busy {call : Call} {rest : List ρ} {firstErr : Option ε}
    {members : Option (List EncodedMember)} {n n' : Nat} :
    Alike (some ⟨call, rest, firstErr, members, n⟩) (some ⟨call, rest, none, members, n'⟩)

namespace Shared

variable {s : Shared ρ ε} {s' : Shared ρ Unit} {a : Act ρ} {acts : List (Act ρ)}

-- The two machines are at the same place. What was returned need not be the same.
inductive Alike : Shared ρ ε → Shared ρ Unit → Prop
  | intro {sink : Sink ρ ε} {running : Option (Running ρ ε)} {running' : Option (Running ρ Unit)}
    {applying : List (Applying ρ)} {returned : List (Call × Result ε)}
    {returned' : List (Call × Result Unit)} (h : Running.Alike running running') :
    Alike ⟨sink, running, applying, returned⟩ ⟨sink.forget, running', applying, returned'⟩

namespace Alike

theorem enter (h : s.Alike s') : (s.enter env k).Alike (s'.enter env.obliging k) := by
  obtain @⟨sink, _, _, _, _, _, hrun⟩ := h
  simp only [Shared.enter, snapshot_forget]
  cases hrun
  case busy => exact ⟨.busy⟩
  case idle =>
    cases sink.snapshot env k
    case none => exact ⟨.idle⟩
    case some => exact ⟨.busy⟩

theorem goOn (h : s.Alike s') :
    (s.goOn env headerSink).Alike (s'.goOn env.obliging headerSink) := by
  obtain ⟨hrun⟩ := h
  cases hrun
  case idle => exact ⟨.idle⟩
  case busy sink _ _ _ call rest firstErr members n n' =>
    cases rest
    case nil => exact ⟨.idle⟩
    case cons c rest =>
      have ht : (call.turn env headerSink (⟨sink, firstErr, members⟩, n) c).1.forget =
          (call.turn env.obliging headerSink (⟨sink.forget, none, members⟩, n') c).1 := turn_forget
      simp only [Shared.goOn, ← ht]
      exact ⟨.busy⟩

theorem step (h : s.Alike s') :
    (s.step env headerSink a).Alike (s'.step env.obliging headerSink a) := by
  cases a
  case call  => exact h.enter
  case turn  => exact h.goOn
  case apply =>
    obtain ⟨hrun⟩ := h
    exact ⟨hrun⟩
  case index i =>
    obtain ⟨hrun⟩ := h
    simp only [Shared.step, buildOn]
    split
    case h_1 => exact ⟨hrun⟩
    case h_2 => split <;> exact ⟨hrun⟩
  case swap i =>
    obtain ⟨hrun⟩ := h
    simp only [Shared.step, swap]
    split
    case h_1 => exact ⟨hrun⟩
    case h_2 => split <;> exact ⟨hrun⟩

theorem exec (h : s.Alike s') :
    (Run.exec (Shared.step env headerSink) s acts).Alike
      (Run.exec (Shared.step env.obliging headerSink) s' acts) := by
  induction acts generalizing s s'
  case nil            => exact h
  case cons a acts hi => exact hi h.step

theorem sink_eq (h : s.Alike s') : s.sink.forget = s'.sink := by
  cases h
  rfl

end Alike

-- The sinks of the consumers do not steer the fan-out: whatever they return, and whenever the
-- tables are pushed, the record is the one of sinks that accept everything.
theorem served_despite_failures (env : Env ρ ε) (headerSink : ρ → Bool) (acts : List (Act ρ)) :
    (Run.exec (step env headerSink) {} acts).sink.forget =
      (Run.exec (step env.obliging headerSink) {} acts).sink :=
  Alike.sink_eq (.exec (.intro .idle))

end Shared
end Fanout
