import ShardListener.Fanout.Theorems.Turns

namespace Fanout

variable {ρ ε : Type} {env : Env ρ ε} {groupIdx : GroupIdx} {item : Item} {c : ρ} {s : Sink ρ ε}

-- The reverse index.
section

variable {cs : List ρ}

theorem lookup_foldl_insert {shards : List GroupIdx} {m : Dict GroupIdx (List ρ)} :
    ((shards.foldl (fun m sh => m.insert sh ((m.lookup sh).getD [] ++ [c])) m).lookup groupIdx).getD
      [] = (m.lookup groupIdx).getD [] ++ List.replicate (shards.count groupIdx) c := by
  induction shards generalizing m
  case nil => simp
  case cons sh shards hi =>
    rw [List.foldl_cons, hi, AList.lookup_insert_eq_ite, List.count_cons]
    by_cases e : groupIdx = sh
    case pos => subst e; simp [List.replicate_succ]
    case neg => simp [e, Ne.symm e]

theorem lookup_foldl_index {t : Dict GroupIdx (List ρ) × List ρ} :
    ((cs.foldl (index env) t).1.lookup groupIdx).getD [] = (t.1.lookup groupIdx).getD [] ++
      cs.flatMap fun c => List.replicate ((env.consumer c).shards.count groupIdx) c := by
  induction cs generalizing t
  case nil => simp
  case cons c cs hi =>
    rw [List.foldl_cons, hi]
    simp only [index]
    split
    case isTrue e  => simp [e]
    case isFalse e => simp [lookup_foldl_insert]

theorem snd_foldl_index {t : Dict GroupIdx (List ρ) × List ρ} :
    (cs.foldl (index env) t).2 = t.2 ++ cs.filter fun c => (env.consumer c).shards = [] := by
  induction cs generalizing t
  case nil => simp
  case cons c cs hi =>
    rw [List.foldl_cons, hi]
    simp only [index]
    split
    case isTrue e  => simp [e]
    case isFalse e => simp [e]

-- How often the loops come to a consumer that stands once in the table.
def times (env : Env ρ ε) (groupIdx : GroupIdx) (c : ρ) : Nat :=
  if (env.consumer c).shards = [] then 1 else (env.consumer c).shards.count groupIdx

variable [DecidableEq ρ]

theorem count_filter_eq_ite {P : ρ → Prop} [DecidablePred P] :
    (cs.filter (P ·)).count c = if P c then cs.count c else 0 := by
  split
  case isTrue h  => exact List.count_filter (decide_eq_true h)
  case isFalse h =>
    exact List.count_eq_zero.mpr fun hm => h (by simpa using (List.mem_filter.mp hm).2)

theorem count_bucket :
    (cs.flatMap fun d => List.replicate ((env.consumer d).shards.count groupIdx) d).count c =
      cs.count c * (env.consumer c).shards.count groupIdx := by
  induction cs
  case nil => simp
  case cons d cs hi =>
    rw [List.flatMap_cons, List.count_append, hi, List.count_replicate, List.count_cons]
    by_cases e : d = c
    case pos => subst e; simp [Nat.add_mul, Nat.add_comm]
    case neg => simp [e]

theorem count_routed :
    ((s.apply env cs).routed groupIdx).count c = cs.count c * times env groupIdx c := by
  simp only [Sink.routed, Sink.apply, lookup_foldl_index, snd_foldl_index, AList.lookup_empty,
    Option.getD_none, List.nil_append, List.count_append, count_bucket, count_filter_eq_ite, times]
  split
  case isTrue e  => simp [e]
  case isFalse e => rfl

omit [DecidableEq ρ] in
theorem times_eq_zero : times env groupIdx c = 0 ↔ ¬Subscribed env groupIdx c := by
  simp only [times, Subscribed]
  split
  case isTrue e  => simp [e]
  case isFalse e => simp [e, List.count_eq_zero]

omit [DecidableEq ρ] in
theorem times_eq_one (hs : Subscribed env groupIdx c) :
    times env groupIdx c = 1 ↔ (env.consumer c).shards.count groupIdx ≤ 1 := by
  have hpos : times env groupIdx c ≠ 0 := fun h => times_eq_zero.mp h hs
  simp only [times] at hpos ⊢
  split
  case isTrue e => simp [e]
  case isFalse e =>
    rw [if_neg e] at hpos
    omega

-- The loops go through the consumers of the table that are in `P`, each once, exactly if none of
-- them is there twice.
theorem perm_routed_iff {P Q : ρ → Prop} [DecidablePred P] [DecidablePred Q]
    (hpq : ∀ c, P c → Q c) :
    (((s.apply env cs).routed groupIdx).filter (P ·)).Perm
        (cs.dedup.filter fun c => Subscribed env groupIdx c ∧ Q c) ↔
      ∀ c ∈ cs, Subscribed env groupIdx c → Q c →
        P c ∧ cs.count c = 1 ∧ (env.consumer c).shards.count groupIdx ≤ 1 := by
  have hr (c : ρ) : (cs.dedup.filter fun c => Subscribed env groupIdx c ∧ Q c).count c =
      if c ∈ cs ∧ Subscribed env groupIdx c ∧ Q c then 1 else 0 := by
    simp [((List.nodup_dedup cs).filter _).count]
  simp only [List.perm_iff_count, count_filter_eq_ite, count_routed, hr]
  constructor
  case mp =>
    intro h c hc hs hq
    have e := h c
    by_cases hp : P c
    case neg => rw [if_neg hp, if_pos ⟨hc, hs, hq⟩] at e; cases e
    case pos =>
      rw [if_pos hp, if_pos ⟨hc, hs, hq⟩] at e
      have ⟨h₁, h₂⟩ := mul_eq_one.mp e
      exact ⟨hp, h₁, (times_eq_one hs).mp h₂⟩
  case mpr =>
    intro h c
    by_cases hc : c ∈ cs ∧ Subscribed env groupIdx c ∧ Q c
    case pos =>
      have ⟨hp, h₁, h₂⟩ := h c hc.1 hc.2.1 hc.2.2
      rw [if_pos hp, if_pos hc, h₁, (times_eq_one hc.2.1).mpr h₂]
    case neg =>
      rw [if_neg hc]
      split
      case isFalse => rfl
      case isTrue hp =>
        by_cases hm : c ∈ cs
        case neg => rw [List.count_eq_zero.mpr hm, Nat.zero_mul]
        case pos =>
          have hs : ¬Subscribed env groupIdx c := fun hs => hc ⟨hm, hs, hpq c hp⟩
          rw [times_eq_zero.mpr hs, Nat.mul_zero]

namespace Sink

-- The delivery does what a scan of the whole table would do: the sinks that are called are those of
-- the consumers that are subscribed and elected and do not get their own traffic back, each for one
-- turn; the observers that are told likewise; and the error is the first that a sink has returned,
-- other than for an election.
def Scans (env : Env ρ ε) (table : List ρ) (groupIdx : GroupIdx) (item : Item) (s : Sink ρ ε) :
    Prop :=
  ∃ es, (s.deliver env item).1.log = s.log ++ es ∧
    ((es.filter Entry.invokes).map Entry.consumer).Perm
      (table.dedup.filter fun c => Subscribed env groupIdx c ∧ Sends env groupIdx item c) ∧
    ((es.filter Entry.tells).map Entry.consumer).Perm
      (table.dedup.filter fun c => Subscribed env groupIdx c ∧ Tells env groupIdx item c) ∧
    (s.deliver env item).2 = (es.flatMap (Entry.failures env)).head?.map .sink

-- A consumer that is concerned stands once in the table and does not name the group twice. If its
-- sink is to be called, there is something to call it with.
def Single (env : Env ρ ε) (table : List ρ) (groupIdx : GroupIdx) (item : Item) (s : Sink ρ ε) :
    Prop :=
  ∀ c ∈ table, Subscribed env groupIdx c → Sends env groupIdx item c ∨ Tells env groupIdx item c →
    table.count c = 1 ∧ (env.consumer c).shards.count groupIdx ≤ 1 ∧
      (Sends env groupIdx item c → item.Carries env s c)

instance {table : List ρ} : Decidable (s.Single env table groupIdx item) :=
  inferInstanceAs (Decidable (∀ c ∈ _, _ → _ ∨ _ → _ ∧ _ ∧ (_ → _)))

-- In terms of the consumers that the loops go through.
theorem scans_iff_perm {table : List ρ} (hg : item.group env = some groupIdx) :
    s.Scans env table groupIdx item ↔
      ((s.routed groupIdx).filter fun c => Sends env groupIdx item c ∧ item.Carries env s c).Perm
          (table.dedup.filter fun c => Subscribed env groupIdx c ∧ Sends env groupIdx item c) ∧
        ((s.routed groupIdx).filter (Tells env groupIdx item ·)).Perm
          (table.dedup.filter fun c => Subscribed env groupIdx c ∧ Tells env groupIdx item c) := by
  have ⟨es, hlog, herr, hes⟩ := deliver_records (s := s) hg
  rw [← hes.invoked, ← hes.told]
  constructor
  case mp =>
    intro ⟨es', hlog', hinvoked, htold, _⟩
    cases List.append_cancel_left (hlog.symm.trans hlog')
    exact ⟨hinvoked, htold⟩
  case mpr => exact fun ⟨hinvoked, htold⟩ => ⟨es, hlog, hinvoked, htold, herr⟩

-- The index delivers like a full scan exactly if no consumer that is concerned is found in it
-- twice.
theorem scans_iff_single {table : List ρ} (hg : item.group env = some groupIdx) :
    (s.apply env table).Scans env table groupIdx item ↔
      (s.apply env table).Single env table groupIdx item := by
  rw [scans_iff_perm hg, perm_routed_iff fun c h => h.1, perm_routed_iff fun c h => h]
  constructor
  case mp =>
    intro ⟨hsends, htells⟩ c hc hs hst
    cases hst
    case inl h =>
      have ⟨hp, h₁, h₂⟩ := hsends c hc hs h
      exact ⟨h₁, h₂, fun _ => hp.2⟩
    case inr h =>
      have ⟨_, h₁, h₂⟩ := htells c hc hs h
      exact ⟨h₁, h₂, fun h' => absurd h (not_tells_of_sends h')⟩
  case mpr =>
    intro h
    refine ⟨fun c hc hs hq => ?_, fun c hc hs hq => ?_⟩
    case refine_1 =>
      have ⟨h₁, h₂, hcarries⟩ := h c hc hs (.inl hq)
      exact ⟨⟨hq, hcarries hq⟩, h₁, h₂⟩
    case refine_2 =>
      have ⟨h₁, h₂, _⟩ := h c hc hs (.inr hq)
      exact ⟨hq, h₁, h₂⟩

end Sink
end

-- Three consumers: one for the groups 0 and 1, one for all groups whose own traffic is that with
-- HashKey 7, and one that names group 0 twice. Their sinks fail once they have been called.
def someConsumers : Fin 3 → Consumer
  | 0 => { shards := [0, 1] }
  | 1 => { ownIngressIP := 5, ingressObs := true }
  | 2 => { shards := [0, 0] }

def someEnv : Env (Fin 3) Nat where
  wire               := .blank
  engine             := ⟨fun _ => 0, 0⟩
  beefEngine         := none
  hash ip _ _        := ip.toNat + 2
  consumer           := someConsumers
  reply log _ c _    := if log.any (·.consumer = c) then some 1 else none
  isNotElected _     := false

def someFrame (hashKey : HashKey) : Item :=
  .frame [1] ⟨FrameVer.v2, .zero, hashKey, 1, .zero, []⟩

theorem Sink.scans_distinct :
    let s : Sink (Fin 3) Nat := Sink.apply someEnv {} [0, 1]
    s.Scans someEnv [0, 1] 0 (someFrame 7) :=
  (Sink.scans_iff_single rfl).mpr (by decide)

-- The sink of the third consumer is called twice for one frame.
theorem Sink.repeated_not_scans :
    let s : Sink (Fin 3) Nat := Sink.apply someEnv {} [0, 1, 2]
    (someFrame 3).group someEnv = some 0 ∧ ¬s.Scans someEnv [0, 1, 2] 0 (someFrame 3) := by
  refine ⟨rfl, fun ⟨es, hlog, hinvoked, _⟩ => ?_⟩
  have hes : es = [⟨0, .sent [(.send [1] ⟨FrameVer.v2, .zero, 3, 1, .zero, []⟩, none)]⟩,
      ⟨2, .sent [(.send [1] ⟨FrameVer.v2, .zero, 3, 1, .zero, []⟩, none)]⟩,
      ⟨2, .sent [(.send [1] ⟨FrameVer.v2, .zero, 3, 1, .zero, []⟩, some 1)]⟩,
      ⟨1, .sent [(.send [1] ⟨FrameVer.v2, .zero, 3, 1, .zero, []⟩, none)]⟩] := hlog.symm
  rw [hes] at hinvoked
  exact absurd hinvoked (by decide)

end Fanout
