import ShardListener.Fanout.Shared

namespace Fanout

variable {ρ ε : Type} {env : Env ρ ε} {headerSink : ρ → Bool} {k : Call} {c : ρ} {cs table : List ρ}
variable {built : Dict GroupIdx (List ρ) × List ρ} {s : Sink ρ ε} {p : Pass ρ ε}
variable {q : Pass ρ ε × Nat}

-- What the sink is for, without the loops: a method or `Apply`, each at once.
inductive Op (ρ : Type)
  | call (k : Call)
  | apply (table : List ρ)

def Sink.serve (env : Env ρ ε) (headerSink : ρ → Bool) (t : Sink ρ ε × List (Call × Result ε)) :
    Op ρ → Sink ρ ε × List (Call × Result ε)
  | .call k      =>
    let r := t.1.perform env headerSink k
    (r.1, t.2 ++ [(k, r.2)])
  | .apply table => (t.1.apply env table, t.2)

-- The loops of a method, over the consumers that are left.
def Call.loops (env : Env ρ ε) (headerSink : ρ → Bool) (k : Call) (cs : List ρ)
    (q : Pass ρ ε × Nat) : Pass ρ ε × Nat :=
  cs.foldl (fun q c => k.turn env headerSink q c) q

def Result.of (q : Pass ρ ε × Nat) : Result ε :=
  ⟨q.1.firstErr.map .sink, q.2⟩

theorem loops_item {item : Item} {g : GroupIdx} {n : Nat} (hg : item.group env = some g) :
    (Call.item item).loops env headerSink cs (p, n) = (cs.foldl (item.turn env g) p, n) := by
  induction cs generalizing p
  case nil => rfl
  case cons c cs hi =>
    rw [Call.loops, List.foldl_cons, List.foldl_cons, ← hi]
    simp only [Call.loops, Call.turn, hg, Option.map_some, Option.getD_some]

theorem foldl_calls {e : Worker.Egress} {n : Nat} :
    cs.foldl (fun (q : Pass ρ ε × Nat) c => (q.1.calls env c [e], q.2)) (p, n) =
      (cs.foldl (fun p c => p.calls env c [e]) p, n) := by
  induction cs generalizing p
  case nil          => rfl
  case cons c cs hi => exact hi

theorem perform_of_snapshot (h : s.snapshot env k = some cs) :
    s.perform env headerSink k =
      let q := k.loops env headerSink cs ({ sink := s }, 0)
      (q.1.sink, .of q) := by
  cases k
  case item item =>
    obtain ⟨g, hg, rfl⟩ := Option.map_eq_some_iff.mp h
    simp only [Sink.perform, Sink.deliver_eq hg, loops_item hg]
    rfl
  case header =>
    cases h
    rfl
  all_goals
    cases h
    simp only [Sink.perform, Call.loops, Call.turn, foldl_calls]
    rfl

theorem perform_of_no_snapshot (h : s.snapshot env k = none) :
    s.perform env headerSink k = (s, { err := some .beefEngineUnset }) := by
  cases k
  case item item =>
    cases item
    case beef raw f =>
      have he : env.beefEngine = none := by simpa [Sink.snapshot, Item.group] using h
      simp only [Sink.perform, Sink.deliver, Sink.sendBeef, he]
    all_goals cases h
  all_goals cases h

-- The loops neither read the table nor write it.

def Pass.publish (p : Pass ρ ε) (table : List ρ) (built : Dict GroupIdx (List ρ) × List ρ) :
    Pass ρ ε :=
  { p with sink := p.sink.publish table built }

theorem decoalesced_publish {b : Bundle} :
    (p.publish table built).decoalesced env b =
      ((p.decoalesced env b).1, (p.decoalesced env b).2.publish table built) := by
  unfold Pass.decoalesced
  cases hm : p.members
  all_goals simp only [Pass.publish, hm]
  case none => rfl

theorem item_turn_publish {item : Item} {g : GroupIdx} :
    item.turn env g (p.publish table built) c = (item.turn env g p c).publish table built := by
  cases item
  all_goals simp only [Item.turn, deliverFrame, deliverBundle, deliverBeef, decoalesced_publish]
  case frame => split_ifs <;> rfl
  case bundle => split_ifs <;> rfl
  case beef =>
    split
    case h_1 => split <;> rfl
    case h_2 => split_ifs <;> rfl

theorem turn_publish :
    k.turn env headerSink (q.1.publish table built, q.2) c =
      ((k.turn env headerSink q c).1.publish table built, (k.turn env headerSink q c).2) := by
  cases k
  case item item =>
    simp only [Call.turn]
    cases item.group env
    case none => rfl
    case some => exact Prod.ext item_turn_publish rfl
  case header =>
    simp only [Call.turn, deliverHeader]
    split <;> rfl
  all_goals rfl

theorem loops_publish :
    k.loops env headerSink cs (q.1.publish table built, q.2) =
      ((k.loops env headerSink cs q).1.publish table built, (k.loops env headerSink cs q).2) := by
  induction cs generalizing q
  case nil => rfl
  case cons c cs hi =>
    simp only [Call.loops, List.foldl_cons] at hi ⊢
    rw [turn_publish]
    exact hi

namespace Shared

variable {s s' : Shared ρ ε} {a : Act ρ}

-- Where an action takes effect: a method when it reads the table, `Apply` when it replaces it.
def effect (s : Shared ρ ε) : Act ρ → Option (Op ρ)
  | .call k => if s.running.isNone then some (.call k) else none
  | .swap i => (s.applying[i]?.filter (·.rest.isEmpty)).map fun a => .apply a.table
  | _       => none

-- The sink and what was returned, once the method under way has returned.
def settled (env : Env ρ ε) (headerSink : ρ → Bool) (s : Shared ρ ε) :
    Sink ρ ε × List (Call × Result ε) :=
  match s.running with
  | none   => (s.sink, s.returned)
  | some r =>
    let q := r.call.loops env headerSink r.rest (⟨s.sink, r.firstErr, r.members⟩, r.delivered)
    (q.1.sink, s.returned ++ [(r.call, .of q)])

-- The indexes that are being built.
def Builds (env : Env ρ ε) (s : Shared ρ ε) : Prop :=
  ∀ a ∈ s.applying, a.rest.foldl (index env) a.built = a.table.foldl (index env) (∅, [])

theorem applying_enter : (s.enter env k).applying = s.applying := by
  unfold enter
  split <;> rfl

theorem applying_goOn : (s.goOn env headerSink).applying = s.applying := by
  unfold goOn
  split
  case h_1 => rfl
  case h_2 => split <;> rfl

theorem Builds.buildOn {i : Nat} (h : s.Builds env) : (s.buildOn env i).Builds env := by
  unfold Shared.buildOn
  split
  case h_1 => exact h
  case h_2 a ha =>
    split
    case h_1 => exact h
    case h_2 hrest =>
      intro a' ha'
      rcases List.mem_or_eq_of_mem_set ha' with hm | rfl
      case inl => exact h a' hm
      case inr =>
        have hb := h a (List.mem_of_getElem? ha)
        rwa [hrest, List.foldl_cons] at hb

theorem Builds.swap {i : Nat} (h : s.Builds env) : (s.swap i).Builds env := by
  unfold Shared.swap
  split
  case h_1 => exact h
  case h_2 =>
    split
    case h_1 => exact fun a ha => h a (List.mem_of_mem_eraseIdx ha)
    case h_2 => exact h

theorem Builds.of_applying_eq (e : s'.applying = s.applying) (h : s.Builds env) :
    s'.Builds env := by
  rwa [Builds, e]

theorem Builds.step (h : s.Builds env) : (s.step env headerSink a).Builds env := by
  cases a
  case call    => exact h.of_applying_eq applying_enter
  case turn    => exact h.of_applying_eq applying_goOn
  case index i => exact h.buildOn
  case swap i  => exact h.swap
  case apply table =>
    intro a ha
    rcases List.mem_append.mp ha with hm | hm
    case inl => exact h a hm
    case inr => cases List.mem_singleton.mp hm; rfl

theorem settled_enter :
    (s.enter env k).settled env headerSink =
      Run.exec (Sink.serve env headerSink) (s.settled env headerSink)
        (s.effect (.call k)).toList := by
  simp only [enter, effect]
  split
  case h_1 hr => rw [hr]; rfl
  case h_2 hr hn =>
    simp only [hr, settled, Option.isNone_none, if_true, Option.toList_some, Run.exec_cons,
      Run.exec_nil, Sink.serve, perform_of_no_snapshot hn]
  case h_3 hr hs =>
    simp only [hr, settled, Option.isNone_none, if_true, Option.toList_some, Run.exec_cons,
      Run.exec_nil, Sink.serve, perform_of_snapshot hs]

theorem settled_goOn :
    (s.goOn env headerSink).settled env headerSink = s.settled env headerSink := by
  unfold goOn
  cases hr : s.running
  case none => rfl
  case some r =>
    cases hc : r.rest
    case nil  => simp only [settled, hr, hc]; rfl
    case cons => simp only [settled, hr, hc]; rfl

theorem settled_publish :
    settled env headerSink { s with sink := s.sink.publish table built } =
      ((s.settled env headerSink).1.publish table built, (s.settled env headerSink).2) := by
  unfold settled
  cases hr : s.running
  case none => rfl
  case some r =>
    let q : Pass ρ ε × Nat := (⟨s.sink, r.firstErr, r.members⟩, r.delivered)
    have h : r.call.loops env headerSink r.rest (q.1.publish table built, q.2) = _ := loops_publish
    exact Prod.ext (congrArg (·.1.sink) h) (congrArg (fun q => s.returned ++ [(r.call, .of q)]) h)

theorem settled_swap {i : Nat} (h : s.Builds env) :
    (s.swap i).settled env headerSink =
      Run.exec (Sink.serve env headerSink) (s.settled env headerSink)
        (s.effect (.swap i)).toList := by
  simp only [swap, effect]
  cases ha : s.applying[i]?
  case none => rfl
  case some a =>
    cases hrest : a.rest
    case cons =>
      simp only [Option.filter_some, hrest, List.isEmpty_cons]
      rfl
    case nil =>
      have hb := h a (List.mem_of_getElem? ha)
      rw [hrest, List.foldl_nil] at hb
      simp only [Option.filter_some, hrest, List.isEmpty_nil, if_true, Option.map_some,
        Option.toList_some]
      rw [hb]
      exact settled_publish

theorem settled_step (h : s.Builds env) :
    (s.step env headerSink a).settled env headerSink =
      Run.exec (Sink.serve env headerSink) (s.settled env headerSink) (s.effect a).toList := by
  cases a
  case call    => exact settled_enter
  case turn    => exact settled_goOn
  case apply   => rfl
  case index i =>
    show (s.buildOn env i).settled env headerSink = s.settled env headerSink
    unfold buildOn
    split
    case h_1 => rfl
    case h_2 => split <;> rfl
  case swap i  => exact settled_swap h

theorem Builds.new : Builds env ({} : Shared ρ ε) :=
  fun _ ha => absurd ha List.not_mem_nil

theorem Builds.exec {acts : List (Act ρ)} (h : s.Builds env) :
    (Run.exec (Shared.step env headerSink) s acts).Builds env :=
  Run.exec_of_step (Builds env) (fun _ _ => Builds.step) h

theorem settled_exec {acts : List (Act ρ)} (h : s.Builds env) :
    (Run.exec (step env headerSink) s acts).settled env headerSink =
      Run.exec (Sink.serve env headerSink) (s.settled env headerSink)
        (Run.points (step env headerSink) effect s acts) :=
  Run.exec_points (fun _ _ => Builds.step) (fun _ _ => settled_step) h

-- However the tables are pushed while the worker is at work, the sink has done what it does when
-- each method and each `Apply` runs at once, in the order in which the methods read the table and
-- the tables replace it.
theorem linearizable (acts : List (Act ρ)) :
    let s : Shared ρ ε := Run.exec (step env headerSink) {} acts
    let ops := Run.points (step env headerSink) effect {} acts
    s.settled env headerSink = Run.exec (Sink.serve env headerSink) ({}, []) ops ∧
      (s.running = none →
        (s.sink, s.returned) = Run.exec (Sink.serve env headerSink) ({}, []) ops) := by
  intro s ops
  have h : s.settled env headerSink = Run.exec (Sink.serve env headerSink) ({}, []) ops :=
    settled_exec .new
  refine ⟨h, fun hr => h.symm ▸ ?_⟩
  simp only [settled, hr]

end Shared
end Fanout
