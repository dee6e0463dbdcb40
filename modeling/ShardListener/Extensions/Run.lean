import Mathlib.Tactic

-- Runs of a deterministic machine `step : σ → α → σ`, driven by a list of actions. Everything that
-- is not determined by the state (scheduling, clocks, random draws) is part of the action.
namespace Run

variable {σ α : Type} {step : σ → α → σ} {s : σ} {a : α} {as bs : List α}

def exec (step : σ → α → σ) (s : σ) (as : List α) : σ :=
  as.foldl step s

-- `P` holds of every step of the run, read in the state in which the step is taken.
def Along (step : σ → α → σ) (P : σ → α → Prop) : σ → List α → Prop
  | _, []      => True
  | s, a :: as => P s a ∧ Along step P (step s a) as

-- `Q` holds in every state of the run, the first and the last included.
def Always (step : σ → α → σ) (Q : σ → Prop) : σ → List α → Prop
  | s, []      => Q s
  | s, a :: as => Q s ∧ Always step Q (step s a) as

@[simp]
theorem exec_nil : exec step s [] = s :=
  rfl

@[simp]
theorem exec_cons : exec step s (a :: as) = exec step (step s a) as :=
  rfl

theorem exec_append : exec step s (as ++ bs) = exec step (exec step s as) bs :=
  List.foldl_append

-- The machine that keeps its actions.
theorem exec_concat {seen : List α} : exec (fun seen a => seen ++ [a]) seen as = seen ++ as := by
  induction as generalizing seen
  case nil          => exact (List.append_nil seen).symm
  case cons a as hi => rw [exec_cons, hi, List.append_assoc, List.singleton_append]

-- A machine that sees only a part of each action, and of some nothing.
theorem exec_filterMap {β : Type} {part : α → Option β} {step' : σ → β → σ}
    (h : ∀ s a, step s a = (part a).elim s (step' s)) :
    exec step s as = exec step' s (as.filterMap part) := by
  induction as generalizing s
  case nil => rfl
  case cons a as hi =>
    rw [exec_cons, hi, h, List.filterMap_cons]
    cases part a
    case none => rfl
    case some => rfl

theorem Along.append {P : σ → α → Prop} :
    Along step P s (as ++ bs) ↔ Along step P s as ∧ Along step P (exec step s as) bs := by
  induction as generalizing s
  case nil          => simp [Along]
  case cons a as hi => simp [Along, hi, and_assoc]

theorem Along.mono {P Q : σ → α → Prop} (h : ∀ s a, P s a → Q s a) :
    Along step P s as → Along step Q s as := by
  induction as generalizing s
  case nil          => exact id
  case cons a as hi => exact fun ⟨hp, ha⟩ => ⟨h _ _ hp, hi ha⟩

theorem Along.and {P Q : σ → α → Prop} (hp : Along step P s as) (hq : Along step Q s as) :
    Along step (fun s a => P s a ∧ Q s a) s as := by
  induction as generalizing s
  case nil          => trivial
  case cons a as hi => exact ⟨⟨hp.1, hq.1⟩, hi hp.2 hq.2⟩

theorem Along.of_forall {D : α → Prop} (h : ∀ a ∈ as, D a) : Along step (fun _ a => D a) s as := by
  induction as generalizing s
  case nil => trivial
  case cons a as hi =>
    exact ⟨h a List.mem_cons_self, hi fun b hb => h b (List.mem_cons_of_mem _ hb)⟩

theorem Always.head {Q : σ → Prop} (h : Always step Q s as) : Q s := by
  cases as
  case nil  => exact h
  case cons => exact h.1

theorem Always.last {Q : σ → Prop} (h : Always step Q s as) : Q (exec step s as) := by
  induction as generalizing s
  case nil          => exact h
  case cons a as hi => exact hi h.2

theorem Always.mono {P Q : σ → Prop} (h : ∀ s, P s → Q s) :
    Always step P s as → Always step Q s as := by
  induction as generalizing s
  case nil          => exact h s
  case cons a as hi => exact fun ⟨hp, ha⟩ => ⟨h _ hp, hi ha⟩

-- A machine that another one follows, step by step.
section

variable {τ : Type} {step' : τ → α → τ} {f : σ → τ}

theorem Always.map {Q : τ → Prop} (hf : ∀ s a, f (step s a) = step' (f s) a)
    (h : Always step (fun s => Q (f s)) s as) : Always step' Q (f s) as := by
  induction as generalizing s
  case nil          => exact h
  case cons a as hi => exact ⟨h.1, hf s a ▸ hi h.2⟩

theorem Along.map_iff {P : τ → α → Prop} (hf : ∀ s a, f (step s a) = step' (f s) a) :
    Along step (fun s => P (f s)) s as ↔ Along step' P (f s) as := by
  induction as generalizing s
  case nil          => exact Iff.rfl
  case cons a as hi => simp only [Along, hi, hf]

theorem Along.map {P : τ → α → Prop} (hf : ∀ s a, f (step s a) = step' (f s) a)
    (h : Along step (fun s => P (f s)) s as) : Along step' P (f s) as :=
  (Along.map_iff hf).mp h

end

-- What a run puts out.
section

variable {β γ : Type} {out : σ → α → List β}

def outputs (step : σ → α → σ) (out : σ → α → List β) : σ → List α → List β
  | _, []      => []
  | s, a :: as => out s a ++ outputs step out (step s a) as

theorem outputs_append :
    outputs step out s (as ++ bs) = outputs step out s as ++
      outputs step out (exec step s as) bs := by
  induction as generalizing s
  case nil          => rfl
  case cons a as hi => rw [List.cons_append, outputs, hi, outputs, List.append_assoc]; rfl

theorem mem_outputs_iff {b : β} :
    b ∈ outputs step out s as ↔
      ∃ before a after, as = before ++ a :: after ∧ b ∈ out (exec step s before) a := by
  constructor
  case mp =>
    intro h
    induction as generalizing s
    case nil => exact absurd h List.not_mem_nil
    case cons a as hi =>
      rcases List.mem_append.mp h with h | h
      case inl => exact ⟨[], a, as, rfl, h⟩
      case inr =>
        obtain ⟨before, a', after, rfl, hb⟩ := hi h
        exact ⟨a :: before, a', after, rfl, hb⟩
  case mpr =>
    rintro ⟨before, a, after, rfl, h⟩
    rw [outputs_append]
    exact List.mem_append_right _ (List.mem_append_left _ h)

theorem along_of_outputs {Q : β → Prop} (h : ∀ b ∈ outputs step out s as, Q b) :
    Along step (fun s a => ∀ b ∈ out s a, Q b) s as := by
  induction as generalizing s
  case nil => trivial
  case cons a as hi =>
    exact ⟨fun b hb => h b (List.mem_append_left _ hb),
      hi fun b hb => h b (List.mem_append_right _ hb)⟩

theorem outputs_sublist {out' : σ → α → List γ} {f : β → Option γ} {P : σ → α → Prop}
    (h : ∀ s a, P s a → (out' s a).Sublist ((out s a).filterMap f)) (hp : Along step P s as) :
    (outputs step out' s as).Sublist ((outputs step out s as).filterMap f) := by
  induction as generalizing s
  case nil => exact .slnil
  case cons a as hi =>
    rw [outputs, outputs, List.filterMap_append]
    exact (h s a hp.1).append (hi hp.2)

end

-- A machine with smaller steps: `point` says which of them a step of the other one stands for.
section

variable {τ β : Type} {step' : τ → β → τ} {f : σ → τ} {point : σ → α → Option β}

def points (step : σ → α → σ) (point : σ → α → Option β) : σ → List α → List β :=
  outputs step fun s a => (point s a).toList

theorem exec_points {Inv : σ → Prop} (hs : ∀ s a, Inv s → Inv (step s a))
    (hf : ∀ s a, Inv s → f (step s a) = exec step' (f s) (point s a).toList) (h₀ : Inv s) :
    f (exec step s as) = exec step' (f s) (points step point s as) := by
  induction as generalizing s
  case nil          => rfl
  case cons a as hi =>
    rw [exec_cons, hi (hs s a h₀), hf s a h₀]
    exact exec_append.symm

theorem points_forall (Inv : σ → Prop) {D : α → Prop} {P : β → Prop}
    (hs : ∀ s a, Inv s → D a → Inv (step s a)) (hp : ∀ s a, Inv s → D a → ∀ b ∈ point s a, P b)
    (h₀ : Inv s) (hd : ∀ a ∈ as, D a) : ∀ b ∈ points step point s as, P b := by
  induction as generalizing s
  case nil => exact fun b hb => absurd hb List.not_mem_nil
  case cons a as hi =>
    intro b hb
    have ha := hd a List.mem_cons_self
    rcases List.mem_append.mp hb with hb | hb
    case inl => exact hp s a h₀ ha b (Option.mem_toList.mp hb)
    case inr => exact hi (hs s a h₀ ha) (fun a' ha' => hd a' (List.mem_cons_of_mem _ ha')) b hb

end

-- The invariant rule: what every admitted step preserves holds in every state of an admitted run.
theorem always_of_preserved {Inv : σ → Prop} {P : σ → α → Prop}
    (hs : ∀ s a, Inv s → P s a → Inv (step s a)) (h₀ : Inv s) (ha : Along step P s as) :
    Always step Inv s as := by
  induction as generalizing s
  case nil          => exact h₀
  case cons a as hi => exact ⟨h₀, hi (hs s a h₀ ha.1) ha.2⟩

-- The same for a property of steps, along the runs of the actions in `D`.
theorem along_of_preserved {Inv : σ → Prop} {D : α → Prop} {P Q : σ → α → Prop}
    (hs : ∀ s a, Inv s → D a → P s a → Inv (step s a)) (hq : ∀ s a, Inv s → D a → P s a → Q s a)
    (h₀ : Inv s) (hd : ∀ a ∈ as, D a) (hp : Along step P s as) : Along step Q s as := by
  induction as generalizing s
  case nil => trivial
  case cons a as hi =>
    have ha := hd a List.mem_cons_self
    have hi := hi (hs s a h₀ ha hp.1) (fun b hb => hd b (List.mem_cons_of_mem _ hb)) hp.2
    exact ⟨hq s a h₀ ha hp.1, hi⟩

theorem exec_of_step (Inv : σ → Prop) (hs : ∀ s a, Inv s → Inv (step s a)) (h₀ : Inv s) :
    Inv (exec step s as) := by
  induction as generalizing s
  case nil          => exact h₀
  case cons a as hi => exact hi (hs s a h₀)

-- The exact form of the invariant rule. `J` holds in every run; if, from a state with `J`, a step
-- keeps `Inv` exactly when it is `Good`, then the runs that keep `Inv` throughout are those with
-- only good steps.
theorem always_iff_along {J Inv : σ → Prop} {Good : σ → α → Prop} (hj : ∀ s a, J s → J (step s a))
    (hs : ∀ s a, J s → Inv s → (Inv (step s a) ↔ Good s a)) (h₀ : J s) (h : Inv s) :
    Always step Inv s as ↔ Along step Good s as := by
  induction as generalizing s
  case nil => simp [Always, Along, h]
  case cons a as hi =>
    simp only [Always, Along, h, true_and]
    constructor
    case mp =>
      intro ha
      exact ⟨(hs s a h₀ h).mp ha.head, (hi (hj s a h₀) ha.head).mp ha⟩
    case mpr =>
      intro ⟨hg, ha⟩
      exact (hi (hj s a h₀) ((hs s a h₀ h).mpr hg)).mpr ha

-- The same for a property of steps, along the runs of the actions in `D`. `J` has to survive the
-- steps with the property only.
theorem along_iff_along {J : σ → Prop} {D : α → Prop} {P Q : σ → α → Prop}
    (hs : ∀ s a, J s → D a → (P s a ↔ Q s a)) (hj : ∀ s a, J s → D a → P s a → J (step s a))
    (h₀ : J s) (hd : ∀ a ∈ as, D a) : Along step P s as ↔ Along step Q s as := by
  induction as generalizing s
  case nil => exact Iff.rfl
  case cons a as hi =>
    have ha := hd a List.mem_cons_self
    simp only [Along, ← hs s a h₀ ha]
    exact and_congr_right fun hp => hi (hj s a h₀ ha hp) fun b hb =>
      hd b (List.mem_cons_of_mem _ hb)

instance decidableAlong {P : σ → α → Prop} [∀ s a, Decidable (P s a)] :
    ∀ s as, Decidable (Along step P s as)
  | _, []      => .isTrue trivial
  | s, a :: as =>
    have : Decidable (Along step P (step s a) as) := decidableAlong (step s a) as
    inferInstanceAs (Decidable (P s a ∧ Along step P (step s a) as))

end Run
