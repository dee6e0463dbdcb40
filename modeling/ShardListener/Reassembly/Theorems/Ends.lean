import ShardListener.Extensions.Run
import ShardListener.Reassembly.Theorems.Lives

namespace Reassembly

open Buffer

variable {ω : Type} {fmt : Formats} {cfg : Config} {h : Hooks ω} {i : Instant} {ff : FragFrame}
variable {b b' : Buffer} {key : Bytes32} {calls : List Event}

namespace Chronicle

variable {x x' : Chronicle ω} {ask : Query ω} {keys : List Bytes32} {op : Op} {a : Query ω × Op}

-- Every slot that was opened is there, or it was completed, dropped or abandoned.
def Balanced (x : Chronicle ω) : Prop :=
  x.state.2.2.count (.metric .started) = x.state.1.slots.size + x.completes +
    x.state.2.2.count (.metric .badFragment) + x.state.2.2.count (.metric .abandoned)

-- The calls between two states, with the reasons.
def Reasoned (x x' : Chronicle ω) : Prop :=
  ∃ calls, x'.state.2.2 = x.state.2.2 ++ calls ∧ Paired calls

-- The state after the sweep of the operation, and when it is made.

def swept (cfg : Config) (h : Hooks ω) (x : Chronicle ω) : Query ω × Op → Chronicle ω
  | (ask, .observe i _) => x.sweepIfDue cfg h ask i
  | (ask, .tick i)      => x.sweep cfg h ask i
  | (_, .purge)         => x

def sweepsAt (cfg : Config) (b : Buffer) : Op → Option Instant
  | .observe i _ => if sweepEvery cfg ≤ Time.sub i.now b.lastEvict then some i else none
  | .tick i      => some i
  | .purge       => none

-- The sweep leaves no slot that is too old.
def Clears (cfg : Config) (h : Hooks ω) (x : Chronicle ω) (a : Query ω × Op) : Prop :=
  ∀ i ∈ sweepsAt cfg x.state.1 a.2, ∀ key s, x.state.1.slots.lookup key = some s →
    s.born + max cfg.ttl cfg.maxAge < i.now → (x.swept cfg h a).state.1.slots.lookup key = none

theorem Balanced.extend (hb : x.Balanced) (he : x.Extends x' key calls)
    (hn : x'.state.1.slots.size + x'.completes + calls.count (.metric .badFragment) +
      calls.count (.metric .abandoned) = x.state.1.slots.size + x.completes +
        calls.count (.metric .started)) : x'.Balanced := by
  simp only [Balanced, he.log, List.count_append] at hb ⊢
  omega

theorem Balanced.opened (hb : x.Balanced) : (x.opened fmt cfg h i ff).Balanced := by
  rcases opened_cases fmt cfg h i ff x with e | ⟨hl, hc, _, e⟩
  case inl => rwa [e]
  case inr =>
    have hsize : (openSlot cfg h.chronicled i (slotKey fmt ff) ff x.state).1.slots.size = _ :=
      size_openSlot hl
    simp only [Balanced] at hb
    rcases openSlot_chronicled cfg h i (slotKey fmt ff) ff x.state with
      ⟨er, hlog⟩ | ⟨k, ho, er, hlog⟩
    case inl =>
      simp only [Balanced, e, hc, hsize, er, hlog, List.count_append, List.count_singleton]
      simp
      omega
    case inr =>
      have ⟨s, hk⟩ := AList.mem_iff_lookup.mp (oldest_mem ho).1
      have hev : (x.state.1.evict k).slots.size + 1 = x.state.1.slots.size := size_removeSlot hk
      simp only [Balanced, e, hc, hsize, er, hlog, List.count_append]
      simp
      omega

theorem foldl_abandoned {w : ω × List Event} :
    (keys.foldl (fun w _ => h.chronicled.metric .abandoned w) w).2 =
      w.2 ++ List.replicate keys.length (.metric .abandoned) := by
  induction keys generalizing w
  case nil => simp
  case cons key keys hi =>
    rw [List.foldl_cons, hi, List.length_cons, List.replicate_succ]
    simp [Hooks.chronicled]

-- A purge abandons all slots.
theorem Balanced.purge (hb : x.Balanced) :
    Balanced { x with state := Buffer.purge h.chronicled x.state } := by
  simp only [Balanced] at hb
  simp only [Balanced, Buffer.purge, foldl_abandoned, List.count_append, List.count_replicate_self,
    ← AList.size_eq_length_keys, hb]
  simp [List.count_replicate, AList.size_empty]
  omega

namespace Reasoned

theorem refl : x.Reasoned x :=
  ⟨[], (List.append_nil _).symm, .nil⟩

theorem trans {x₁ x₂ : Chronicle ω} (h₁ : x.Reasoned x₁) (h₂ : x₁.Reasoned x₂) : x.Reasoned x₂ := by
  have ⟨calls₁, e₁, hp₁⟩ := h₁
  have ⟨calls₂, e₂, hp₂⟩ := h₂
  exact ⟨calls₁ ++ calls₂, by rw [e₂, e₁, List.append_assoc], hp₁.append hp₂⟩

theorem foldl_turn : x.Reasoned (keys.foldl (turn cfg h ask i) x) := by
  induction keys generalizing x
  case nil => exact refl
  case cons key keys hi =>
    have ⟨calls, ht, he⟩ := turn_turned cfg h ask i x key
    exact trans ⟨calls, he.log, ht.paired⟩ hi

theorem sweep : x.Reasoned (x.sweep cfg h ask i) :=
  foldl_turn (x := { x with state := (x.state.1.sweepDone i.now, x.state.2) })

theorem sweepIfDue : x.Reasoned (x.sweepIfDue cfg h ask i) := by
  simp only [Chronicle.sweepIfDue]
  split
  case isTrue  => exact sweep
  case isFalse => exact refl

theorem opened : x.Reasoned (x.opened fmt cfg h i ff) := by
  have hstart : Paired [.metric .started] := .other _ _ nofun nofun .nil
  rcases opened_cases fmt cfg h i ff x with e | ⟨_, _, _, e⟩
  case inl => rw [e]; exact refl
  case inr =>
    rcases openSlot_chronicled cfg h i (slotKey fmt ff) ff x.state with ⟨_, hlog⟩ | ⟨_, _, _, hlog⟩
    case inl => exact ⟨_, e ▸ hlog, hstart⟩
    case inr => exact ⟨_, e ▸ hlog, .abandoned .capacity _ hstart⟩

theorem gather (hkd : x.state.1.Keyed) : x.Reasoned (x.gather fmt cfg h i ff) := by
  cases hm : met fmt cfg h.chronicled i x.state.1 ff
  case none =>
    have ⟨_, _, _, calls, hidle, he⟩ := gather_unmet hm
    refine ⟨calls, he.log, ?_⟩
    clear he
    induction calls
    case nil => exact .nil
    case cons e calls hi =>
      have ⟨hhead, htail⟩ := List.forall_mem_cons.mp hidle
      rcases hhead with rfl | rfl
      case inl => exact .other _ _ nofun nofun (hi htail)
      case inr => exact .other _ _ nofun nofun (hi htail)
  case some s =>
    have ⟨_, _, _, calls, ha, he⟩ := gather_met hkd hm
    exact opened.trans ⟨calls, he.log, ha.paired⟩

end Reasoned

-- What holds of the record in every run.
structure Sound (cfg : Config) (x : Chronicle ω) : Prop where
  keyed    : x.state.1.Keyed
  listed   : x.state.1.Listed
  balanced : x.Balanced
  lived    : ∀ key, Life (x.state.1.slots.lookup key) (x.lives key)
  bounded  : x.state.1.All fun _ s => s.deadline ≤ s.born + max cfg.ttl cfg.maxAge

-- The slots that one turn leaves are not held for longer than they may be.
theorem Turned.bounded (ht : Turned cfg i b key b' calls)
    (hb : b.All fun _ s => s.deadline ≤ s.born + max cfg.ttl cfg.maxAge) :
    b'.All fun _ s => s.deadline ≤ s.born + max cfg.ttl cfg.maxAge := by
  cases ht
  case idle      => exact hb
  case abandoned => exact hb.removeSlot
  case held s _ _ _ _ =>
    have hle : s.born + cfg.maxAge ≤ s.born + max cfg.ttl cfg.maxAge :=
      Int.add_le_add_left (le_max_right ..) _
    exact hb.putSlot ((min_le_right ..).trans hle)

namespace Sound

theorem empty {w : ω} : Sound cfg ⟨({}, w, []), fun _ => [], 0⟩ where
  keyed    := nofun
  listed   := nofun
  balanced := rfl
  lived _  := ⟨.nil, nofun⟩
  bounded  := nofun

-- The steps that do not touch the slots.
theorem relist (hs : x.Sound cfg) (e : b.slots = x.state.1.slots) (hl : b.Listed) :
    Sound cfg { x with state := (b, x.state.2) } where
  keyed    := fun key s hk => hs.keyed key s (e ▸ hk)
  listed   := hl
  balanced := by
    have hb := hs.balanced
    simpa only [Balanced, e] using hb
  lived    := by
    intro key
    simp only [e]
    exact hs.lived key
  bounded  := fun key s hk => hs.bounded key s (e ▸ hk)

theorem turn (hs : x.Sound cfg) : (x.turn cfg h ask i key).Sound cfg := by
  have ⟨calls, ht, he⟩ := turn_turned cfg h ask i x key
  have ⟨hsize, hstart, hbad⟩ := ht.account
  refine ⟨?keyed, ?listed, hs.balanced.extend he ?balanced, fun k => ?lived,
    Turned.bounded ht hs.bounded⟩
  case keyed =>
    exact Keyed.sweep (p := x.state) (q := (x.turn cfg h ask i key).state) hs.keyed fun _ =>
      ht.outlives
  case listed =>
    intro k hm
    have ⟨s', hl'⟩ := AList.mem_iff_lookup.mp hm
    have ⟨s, hl, _⟩ := ht.outlives s' hl'
    rw [ht.insertOrder]
    exact hs.listed k (AList.mem_iff_lookup.mpr ⟨s, hl⟩)
  case balanced =>
    have hc : (x.turn cfg h ask i key).completes = x.completes := rfl
    omega
  case lived =>
    rw [he.lives]
    split
    case isTrue e =>
      subst e
      exact (hs.lived k).turn ht
    case isFalse e =>
      rw [ht.lookup_of_ne e]
      exact hs.lived k

theorem foldl_turn (hs : x.Sound cfg) : (keys.foldl (Chronicle.turn cfg h ask i) x).Sound cfg := by
  induction keys generalizing x
  case nil              => exact hs
  case cons key keys hi => exact hi hs.turn

theorem sweep (hs : x.Sound cfg) : (x.sweep cfg h ask i).Sound cfg := by
  have hd : Sound cfg { x with state := (x.state.1.sweepDone i.now, x.state.2) } := by
    refine hs.relist sweepDone_slots fun key hm => ?_
    rw [sweepDone_insertOrder]
    exact hs.listed key (sweepDone_slots ▸ hm)
  have hf : (x.state.1.insertOrder.foldl (Chronicle.turn cfg h ask i)
      { x with state := (x.state.1.sweepDone i.now, x.state.2) }).Sound cfg := hd.foldl_turn
  refine hf.relist rfl fun key hm => ?_
  exact List.mem_filter.mpr ⟨hf.listed key hm, decide_eq_true hm⟩

theorem sweepIfDue (hs : x.Sound cfg) : (x.sweepIfDue cfg h ask i).Sound cfg := by
  simp only [Chronicle.sweepIfDue]
  split
  case isTrue =>
    have hw : (x.sweep cfg h ask i).Sound cfg := hs.sweep
    exact hw.relist rfl hw.listed
  case isFalse => exact hs

theorem opened (hs : x.Sound cfg) : (x.opened fmt cfg h i ff).Sound cfg := by
  rcases opened_cases fmt cfg h i ff x with e | ⟨hl, hc, hlives, e⟩
  case inl => rwa [e]
  case inr =>
    refine ⟨?keyed, ?listed, ?balanced, fun k => ?lived, ?bounded⟩
    case keyed => rw [e]; exact hs.keyed.openSlot rfl
    case listed => rw [e]; exact hs.listed.openSlot
    case bounded =>
      rw [e]
      exact All.openSlot (Int.add_le_add_left (le_max_left ..) _) hs.bounded
    case lived =>
      rw [hlives, e]
      split
      case isTrue ek =>
        rw [openSlot_fst, ek, lookup_putSlot, if_pos rfl]
        exact .newSlot
      case isFalse hne =>
        cases hk : (openSlot cfg h.chronicled i (slotKey fmt ff) ff x.state).1.slots.lookup k
        case none   => exact (hs.lived k).gone
        case some s => exact lookup_openSlot hne hk ▸ hs.lived k
    case balanced => exact hs.balanced.opened

theorem gather (hs : x.Sound cfg) : (x.gather fmt cfg h i ff).Sound cfg := by
  have ho : (x.opened fmt cfg h i ff).Sound cfg := hs.opened
  have hkeyed : (x.gather fmt cfg h i ff).state.1.Keyed := hs.keyed.gather
  have hlisted : (x.gather fmt cfg h i ff).state.1.Listed := hs.listed.gather hs.keyed
  have hbounded : (x.gather fmt cfg h i ff).state.1.All fun _ s =>
      s.deadline ≤ s.born + max cfg.ttl cfg.maxAge := by
    refine All.gather (fun k s size hb => ?_) (Int.add_le_add_left (le_max_left ..) _) hs.bounded
    have ⟨_, _, e⟩ := s.receive_eq size ff
    rw [e]
    exact hb
  refine ⟨hkeyed, hlisted, ?balanced, fun k => ?lived, hbounded⟩
  all_goals cases hm : met fmt cfg h.chronicled i x.state.1 ff
  case balanced.none =>
    have ⟨_, hb, hc, calls, hidle, he⟩ := gather_unmet hm
    refine hs.balanced.extend he ?_
    rw [hb, hc, hidle.count (m := .badFragment) nofun nofun,
      hidle.count (m := .abandoned) nofun nofun, hidle.count (m := .started) nofun nofun]
  case lived.none =>
    have ⟨_, hb, _, calls, hidle, he⟩ := gather_unmet hm
    rw [he.lives, hb]
    split
    case isTrue  => exact (hs.lived k).idle hidle
    case isFalse => exact hs.lived k
  case balanced.some s =>
    have ⟨hl, hkey, hc, calls, ha, he⟩ := gather_met hs.keyed hm
    have ⟨hsize, hstart, hgone⟩ := ha.account (hkey ▸ hl)
    have hcomp : (x.opened fmt cfg h i ff).completes = x.completes := opened_completes
    refine ho.balanced.extend he ?_
    omega
  case lived.some s =>
    have ⟨hl, hkey, _, calls, ha, he⟩ := gather_met hs.keyed hm
    rw [he.lives]
    split
    case isTrue e =>
      have hlife := ho.lived (slotKey fmt ff)
      rw [hl] at hlife
      rw [e]
      exact hkey ▸ hlife.accept ha (hkey ▸ hl)
    case isFalse hne =>
      rw [ha.lookup_of_ne (hkey ▸ hne)]
      exact ho.lived k

theorem purge (hs : x.Sound cfg) :
    Sound cfg { x with state := Buffer.purge h.chronicled x.state } where
  keyed    := nofun
  listed   := nofun
  balanced := hs.balanced.purge
  lived k  := (hs.lived k).gone
  bounded  := nofun

theorem step (hs : x.Sound cfg) : (x.step fmt cfg h a).Sound cfg := by
  obtain ⟨ask, op⟩ := a
  cases op
  case observe i ff => exact hs.sweepIfDue.gather
  case tick i       => exact hs.sweep
  case purge        => exact hs.purge

end Sound

theorem reasoned_step (hs : x.Sound cfg) (hp : a.2 ≠ .purge) : x.Reasoned (x.step fmt cfg h a) := by
  obtain ⟨ask, op⟩ := a
  cases op
  case observe i ff => exact Reasoned.sweepIfDue.trans (.gather hs.sweepIfDue.keyed)
  case tick i       => exact .sweep
  case purge        => exact absurd rfl hp

-- The slot is too old for every sweep at `i`.
def Overdue (cfg : Config) (i : Instant) (s : Slot) : Prop :=
  s.deadline ≤ s.born + max cfg.ttl cfg.maxAge ∧ s.born + max cfg.ttl cfg.maxAge < i.now

theorem absent (ht : Turned cfg i b key b' calls)
    (hd : ∀ s, b.slots.lookup key = some s → Overdue cfg i s) : b'.slots.lookup key = none := by
  cases ht
  case idle hle =>
    refine Option.eq_none_iff_forall_ne_some.mpr fun s hs => ?_
    have ⟨hb, hlt⟩ := hd s hs
    exact absurd (hle s hs) (not_le.mpr (hb.trans_lt hlt))
  case abandoned => rw [lookup_removeSlot, if_pos rfl]
  case held s hl _ hlim _ =>
    have ⟨_, hlt⟩ := hd s hl
    have hle : s.born + cfg.maxAge ≤ s.born + max cfg.ttl cfg.maxAge :=
      Int.add_le_add_left (le_max_right ..) _
    exact absurd hlim (not_lt.mpr (hle.trans hlt.le))

-- The turns leave a slot that is not late.
theorem foldl_turn_idle (cfg : Config) (h : Hooks ω) (ask : Query ω) (keys : List Bytes32)
    (hd : ∀ s, x.state.1.slots.lookup key = some s → i.now ≤ s.deadline) :
    let x' := keys.foldl (turn cfg h ask i) x
    x'.state.1.slots.lookup key = x.state.1.slots.lookup key ∧ x'.lives key = x.lives key := by
  induction keys generalizing x
  case nil => exact ⟨rfl, rfl⟩
  case cons k keys hi =>
    have ⟨calls, ht, he⟩ := turn_turned cfg h ask i x k
    have hsame : (x.turn cfg h ask i k).state.1.slots.lookup key = x.state.1.slots.lookup key ∧
        (x.turn cfg h ask i k).lives key = x.lives key := by
      rw [he.lives]
      by_cases e : key = k
      case pos =>
        subst e
        have ⟨eb, ec⟩ := ht.eq_of_idle hd
        rw [eb, ec, if_pos rfl, List.append_nil]
        exact ⟨rfl, rfl⟩
      case neg => exact ⟨ht.lookup_of_ne e, if_neg e⟩
    have ⟨hl, hlives⟩ := hi (x := x.turn cfg h ask i k) (hsame.1 ▸ hd)
    exact ⟨hl.trans hsame.1, hlives.trans hsame.2⟩

theorem foldl_turn_overdue (hm : key ∈ keys)
    (hd : ∀ s, x.state.1.slots.lookup key = some s → Overdue cfg i s) :
    (keys.foldl (turn cfg h ask i) x).state.1.slots.lookup key = none := by
  induction keys generalizing x
  case nil => cases hm
  case cons k keys hi =>
    have ⟨_, ht, _⟩ := turn_turned cfg h ask i x k
    by_cases e : key = k
    case pos =>
      subst e
      have habsent : (x.turn cfg h ask i key).state.1.slots.lookup key = none := absent ht hd
      rw [List.foldl_cons,
        (foldl_turn_idle cfg h ask keys fun s hs => nomatch habsent.symm.trans hs).1]
      exact habsent
    case neg =>
      refine hi ((List.mem_cons.mp hm).resolve_left e) fun s hs => ?_
      rw [ht.lookup_of_ne e] at hs
      exact hd s hs

theorem Sound.sweep_absent {s : Slot} (hs : x.Sound cfg) (hl : x.state.1.slots.lookup key = some s)
    (hd : s.born + max cfg.ttl cfg.maxAge < i.now) :
    (x.sweep cfg h ask i).state.1.slots.lookup key = none := by
  refine foldl_turn_overdue (hs.listed key (AList.mem_iff_lookup.mpr ⟨s, hl⟩)) fun s' hs' => ?_
  simp only [sweepDone_slots] at hs'
  cases hl.symm.trans hs'
  exact ⟨hs.bounded key s hl, hd⟩

theorem swept_of_due (h : Hooks ω) (hi : i ∈ sweepsAt cfg x.state.1 a.2) :
    let x' := x.sweep cfg h a.1 i
    (x.swept cfg h a).state.1.slots = x'.state.1.slots ∧ (x.swept cfg h a).lives = x'.lives := by
  obtain ⟨ask, op⟩ := a
  cases op
  case observe i' ff =>
    simp only [sweepsAt] at hi
    split at hi
    case isFalse => cases hi
    case isTrue hdue =>
      cases hi
      simp only [swept, Chronicle.sweepIfDue, if_pos hdue, and_self]
  case tick i' => cases hi; exact ⟨rfl, rfl⟩
  case purge   => cases hi

theorem Sound.clears (hs : x.Sound cfg) : x.Clears cfg h a := by
  intro i hi key s hl hd
  rw [(swept_of_due h hi).1]
  exact hs.sweep_absent hl hd

-- Every slot that is opened ends once: in every run, whatever the sweeps are told of the repairs.
theorem ends_once {as : List (Query ω × Op)} {w : ω} :
    Run.Always (step fmt cfg h) (fun x => x.Balanced ∧ ∀ key, Told (x.lives key))
        ⟨({}, w, []), fun _ => [], 0⟩ as ∧
      Run.Along (step fmt cfg h)
        (fun x a => (a.2 ≠ .purge → x.Reasoned (x.step fmt cfg h a)) ∧ x.Clears cfg h a)
        ⟨({}, w, []), fun _ => [], 0⟩ as := by
  have h₀ : Sound cfg (⟨({}, w, []), fun _ => [], 0⟩ : Chronicle ω) := .empty
  have hall : Run.Along (step fmt cfg h) (fun _ _ => True) ⟨({}, w, []), fun _ => [], 0⟩ as :=
    .of_forall fun _ _ => trivial
  have hsound := Run.always_of_preserved (fun x a hs _ => hs.step) h₀ hall
  refine ⟨hsound.mono fun x hs => ⟨hs.balanced, fun key => (hs.lived key).told⟩, ?_⟩
  exact Run.along_of_preserved (D := fun _ => True) (fun x a hs _ _ => hs.step)
    (fun x a hs _ _ => ⟨reasoned_step hs, hs.clears⟩) h₀ (fun _ _ => trivial) hall

end Chronicle

end Reassembly
