import ShardListener.Reassembly.Theorems.Ends
import ShardListener.Reassembly.Theorems.Representation

namespace Reassembly

open Buffer

variable {ω : Type} {fmt : Formats} {cfg : Config} {h : Hooks ω} {i : Instant} {ff : FragFrame}
variable {b b' : Buffer} {key k : Bytes32} {s : Slot} {calls : List Event} {fs : List FragFrame}

-- The SeqNums of the received fragments are above their indices, and far from those that wrap.
def Slot.Anchored (s : Slot) : Prop :=
  ∀ j < s.fragTotal, s.held[j]? = some true → ∀ n ∈ s.fragSeq[j]?, j < n ∧ n < 2 ^ 62

instance : DecidablePred Slot.Anchored :=
  fun _ => inferInstanceAs (Decidable (∀ j < _, _ → ∀ n ∈ _, _ ∧ _))

-- Such a slot can name a fragment that is missing.
theorem Slot.Staged.missing (hs : s.Staged fs) (hp : s.Partly) (ha : s.Anchored) :
    s.missingSeqNums ≠ [] := by
  have hm := hs.made
  have ⟨hlen, hlen'⟩ := hm.lengths
  have ⟨f, hf⟩ := List.exists_mem_of_length_pos (hm.received ▸ hp.1)
  have hfh : s.held[f.fragIndex]? = some true := (hm.held _).mpr (List.mem_map_of_mem hf)
  have ⟨j, hj, hjh⟩ : ∃ j < s.fragTotal, ¬s.held[j]? = some true := by
    by_contra hno
    have hall : ∀ e ∈ s.held, true = e := by
      intro e he
      have ⟨j, hj, ej⟩ := List.getElem_of_mem he
      have hjh : s.held[j]? = some true := not_not.mp fun hn => hno ⟨j, hlen ▸ hj, hn⟩
      exact (Option.some_inj.mp (hjh.symm.trans (List.getElem?_eq_some_iff.mpr ⟨hj, ej⟩)))
    have hfull := List.count_eq_length.mpr hall
    exact absurd hp.2 (by rw [hm.received, ← hm.count, hfull, hlen]; exact Nat.lt_irrefl _)
  have ⟨best, hb⟩ := exists_nearestHeld hfh (hm.within hf) hj fun e => hjh (e ▸ hfh)
  have ⟨hbt, hbh⟩ := nearestHeld_some hb hj
  have ⟨n, hn⟩ : ∃ n, s.fragSeq[best]? = some n := ⟨_, List.getElem?_eq_getElem (hlen'.symm ▸ hbt)⟩
  have ⟨hlow, hhigh⟩ := ha best hbt hbh n hn
  have htot := hs.total.2
  have hseq : s.missingSeqNum j = some (n + j - best) := by
    dsimp only [SeqNum] at hhigh
    have hn' : n < 2 ^ 63 := by dsimp only [SeqNum]; omega
    have hm' : n + j - best < 2 ^ 63 := by dsimp only [SeqNum]; omega
    exact missingSeqNum_eq hjh hb hn hn' hm' (by dsimp only [SeqNum]; omega)
  have hmem : n + j - best ∈ s.missingSeqNums := by
    rw [missingSeqNums, if_neg hp.1.ne', List.mem_filterMap]
    exact ⟨j, List.mem_range.mpr hj, hseq⟩
  exact List.ne_nil_of_mem hmem

-- After the turn of a slot it is not late any more.
theorem Turned.settled (httl : 0 < cfg.ttl) (ht : Turned cfg i b key b' calls) :
    ∀ s, b'.slots.lookup key = some s → i.now ≤ s.deadline := by
  intro s hs
  cases ht
  case idle hd   => exact hd s hs
  case abandoned =>
    rw [lookup_removeSlot, if_pos rfl] at hs
    cases hs
  case held s' _ _ ha _ =>
    rw [lookup_putSlot, if_pos rfl] at hs
    cases hs
    exact le_min (le_add_of_nonneg_right httl.le) ha.le

namespace Chronicle

variable {x : Chronicle ω} {ask : Query ω} {keys : List Bytes32} {op : Op} {a : Query ω × Op}

-- The slots that the sweep of an operation gives up have asked for what they missed, once and
-- before.
def Asks (cfg : Config) (h : Hooks ω) (x : Chronicle ω) (a : Query ω × Op) : Prop :=
  ∀ key s, x.state.1.slots.lookup key = some s → s.Anchored →
    (x.swept cfg h a).state.1.slots.lookup key = none →
      ∃ earlier reason s₀, (x.swept cfg h a).lives key =
          earlier ++ [.metric .abandoned, .metric (.abandonedReason reason)] ∧ reason ≠ .capacity ∧
        Slot.Earlier s₀ s ∧ Event.asked earlier = [incomplete s₀ s₀.missingSeqNums]

-- The sweep of an operation finds no slot late that has not asked and is too old to do so.
def Prompt (cfg : Config) (b : Buffer) (op : Op) : Prop :=
  ∀ i ∈ sweepsAt cfg b op, ∀ e ∈ b.slots.entries, e.2.Anchored → e.2.deadline < i.now →
    e.2.requested ∨ i.now < e.2.born + cfg.maxAge

instance : Decidable (Prompt cfg b op) :=
  inferInstanceAs (Decidable (∀ i ∈ _, ∀ e ∈ _, _ → _ → _ ∨ _))

-- What the sweep is for a slot: one turn.

theorem foldl_turn_once (h : Hooks ω) (ask : Query ω) (i : Instant) (x : Chronicle ω)
    (httl : 0 < cfg.ttl) (hm : key ∈ keys) :
    let x' := keys.foldl (turn cfg h ask i) x
    ∃ b b' calls, b.slots.lookup key = x.state.1.slots.lookup key ∧ Turned cfg i b key b' calls ∧
      x'.state.1.slots.lookup key = b'.slots.lookup key ∧ x'.lives key = x.lives key ++ calls := by
  induction keys generalizing x
  case nil => cases hm
  case cons k keys hi =>
    have ⟨calls, ht, he⟩ := turn_turned cfg h ask i x k
    by_cases e : key = k
    case pos =>
      subst e
      have ⟨hl, hlives⟩ := foldl_turn_idle cfg h ask keys (ht.settled httl)
      rw [he.lives, if_pos rfl] at hlives
      exact ⟨_, _, calls, rfl, ht, hl, hlives⟩
    case neg =>
      have ⟨b, b', calls, hb, ht', hl, hlives⟩ :=
        hi (x.turn cfg h ask i k) ((List.mem_cons.mp hm).resolve_left e)
      rw [ht.lookup_of_ne e] at hb
      rw [he.lives, if_neg e] at hlives
      exact ⟨b, b', calls, hb, ht', hl, hlives⟩

theorem Sound.sweep_once (hs : x.Sound cfg) (httl : 0 < cfg.ttl)
    (hl : x.state.1.slots.lookup key = some s) :
    let x' := x.sweep cfg h ask i
    ∃ b b' calls, b.slots.lookup key = some s ∧ Turned cfg i b key b' calls ∧
      x'.state.1.slots.lookup key = b'.slots.lookup key ∧ x'.lives key = x.lives key ++ calls := by
  have hm := hs.listed key (AList.mem_iff_lookup.mpr ⟨s, hl⟩)
  have ⟨b, b', calls, hb, ht, hl', hlives⟩ := foldl_turn_once h ask i
    { x with state := (x.state.1.sweepDone i.now, x.state.2) } httl hm
  rw [sweepDone_slots, hl] at hb
  exact ⟨b, b', calls, hb, ht, hl', hlives⟩

theorem Sound.swept_once (hs : x.Sound cfg) (httl : 0 < cfg.ttl)
    (hi : i ∈ sweepsAt cfg x.state.1 a.2) (hl : x.state.1.slots.lookup key = some s) :
    let x' := x.swept cfg h a
    ∃ b b' calls, b.slots.lookup key = some s ∧ Turned cfg i b key b' calls ∧
      x'.state.1.slots.lookup key = b'.slots.lookup key ∧ x'.lives key = x.lives key ++ calls := by
  have ⟨hslots, hlives⟩ := swept_of_due h hi
  simp only [hslots, hlives]
  exact hs.sweep_once httl hl

theorem swept_of_none (hn : sweepsAt cfg x.state.1 a.2 = none) : x.swept cfg h a = x := by
  obtain ⟨ask, op⟩ := a
  cases op
  case observe i ff =>
    simp only [sweepsAt] at hn
    split at hn
    case isTrue       => cases hn
    case isFalse hdue => exact if_neg hdue
  case tick i => cases hn
  case purge  => rfl

-- A record whose slots can name what they miss.
structure Steady (cfg : Config) (x : Chronicle ω) : Prop where
  sound : x.Sound cfg
  slots : x.state.1.All fun _ s => (∃ fs, s.Staged fs) ∧ s.Partly

theorem foldl_turn_outlives :
    Outlives (x.state.1.slots.lookup k)
      ((keys.foldl (turn cfg h ask i) x).state.1.slots.lookup k) := by
  induction keys generalizing x
  case nil => exact .refl
  case cons key keys hi =>
    have ⟨_, ht, _⟩ := turn_turned cfg h ask i x key
    exact ht.outlives.trans hi

theorem sweep_outlives :
    Outlives (x.state.1.slots.lookup k) ((x.sweep cfg h ask i).state.1.slots.lookup k) := by
  have ho : Outlives ((x.state.1.sweepDone i.now).slots.lookup k)
      ((x.sweep cfg h ask i).state.1.slots.lookup k) :=
    foldl_turn_outlives (x := { x with state := (x.state.1.sweepDone i.now, x.state.2) })
  rwa [sweepDone_slots] at ho

namespace Steady

theorem sweep (hx : x.Steady cfg) : (x.sweep cfg h ask i).Steady cfg where
  sound := hx.sound.sweep
  slots := by
    refine All.sweep (p := x.state) (fun _ s s' hs hk => ?_) hx.slots fun _ => sweep_outlives
    have ⟨⟨fs, hfs⟩, hp⟩ := hs
    exact ⟨⟨fs, hfs.kept hk⟩, hp.kept hk⟩

theorem sweepIfDue (hx : x.Steady cfg) : (x.sweepIfDue cfg h ask i).Steady cfg where
  sound := hx.sound.sweepIfDue
  slots := by
    simp only [Chronicle.sweepIfDue]
    split
    case isTrue  => exact hx.sweep.slots
    case isFalse => exact hx.slots

theorem gather (hx : x.Steady cfg) (hd : Sized ff) : (x.gather fmt cfg h i ff).Steady cfg where
  sound := hx.sound.gather
  slots := by
    intro k s' hl
    rcases lookup_gather hx.sound.keyed hl with ⟨hl, _⟩ | ⟨_, s, size, hm, ht, hw, hsize, e⟩
    case inl => exact hx.slots k s' hl
    case inr =>
      have ⟨fs, hfs⟩ : ∃ fs, s.Staged fs := by
        rcases met_eq_some hm with hl | ⟨_, ho, e⟩
        case inl => exact (hx.slots _ s hl).1
        case inr => exact ⟨[], e ▸ staged.newSlot i _ ff hd ho⟩
      exact e ▸ ⟨⟨_, hfs.receive ht hsize⟩, Slot.partly_receive ht hw⟩

theorem step (hx : x.Steady cfg) (hd : a.2.Carries Sized) : (x.step fmt cfg h a).Steady cfg := by
  obtain ⟨ask, op⟩ := a
  cases op
  case observe i ff => exact hx.sweepIfDue.gather hd
  case tick i       => exact hx.sweep
  case purge        => exact ⟨hx.sound.purge, nofun⟩

-- A slot that is given up too late for a request is not asked for.
theorem prompt (hx : x.Steady cfg) (httl : 0 < cfg.ttl) (ha : x.Asks cfg h a) :
    Prompt cfg x.state.1 a.2 := by
  intro i hi ⟨key, s⟩ he hanch hlate
  have hl := AList.mem_entries_iff.mp he
  by_contra hn
  have ⟨hreq, hlim⟩ := not_or.mp hn
  have ⟨b, b', calls, hb, ht, hl', hlives⟩ := hx.sound.swept_once (h := h) httl hi hl
  cases ht
  case idle hd           => exact absurd hlate (not_lt.mpr (hd s hb))
  case held s' hs' _ hlim' _ =>
    cases hb.symm.trans hs'
    exact hlim hlim'
  case abandoned s' reason hs' _ _ =>
    cases hb.symm.trans hs'
    rw [lookup_removeSlot, if_pos rfl] at hl'
    have ⟨earlier, reason', s₀, he, _, _, hask⟩ := ha key s hl hanch hl'
    have hsilent : Event.asked (x.lives key) = [] := by
      rcases ((hx.sound.lived key).live s hl).2.2 with ⟨_, e⟩ | ⟨hr, _⟩
      case inl => exact e
      case inr => exact absurd hr hreq
    have hcalls := congrArg Event.asked (hlives.symm.trans he)
    simp only [Event.asked_append, Slot.asked_requests, hsilent, hask, hlim, and_false, if_false]
      at hcalls
    exact List.cons_ne_nil _ _ hcalls.symm

theorem asks (hx : x.Steady cfg) (httl : 0 < cfg.ttl) (hp : Prompt cfg x.state.1 a.2) :
    x.Asks cfg h a := by
  intro key s hl hanch hgone
  cases hi : sweepsAt cfg x.state.1 a.2
  case none =>
    rw [swept_of_none hi, hl] at hgone
    cases hgone
  case some i =>
    have ⟨b, b', calls, hb, ht, hl', hlives⟩ := hx.sound.swept_once (h := h) httl hi hl
    rw [hl'] at hgone
    cases ht
    case idle => cases hb.symm.trans hgone
    case held =>
      rw [lookup_putSlot, if_pos rfl] at hgone
      cases hgone
    case abandoned s' reason hs' hlate hr =>
      cases hb.symm.trans hs'
      have ⟨⟨fs, hfs⟩, hpart⟩ := hx.slots key s hl
      have hasked := ((hx.sound.lived key).live s hl).2.2
      have ⟨s₀, hs₀, e⟩ :=
        hasked.exists_request (hfs.missing hpart hanch)
          (hp i hi ⟨key, s⟩ (AList.mem_entries_iff.mpr hl) hanch hlate)
      rw [← List.append_assoc] at hlives
      exact ⟨_, reason, s₀, hlives, hr, hs₀, e⟩

end Steady

-- An object asks before it is given up, exactly if no sweep finds one late that is too old to ask
-- and has not done so.
theorem asks_iff_prompt {as : List (Query ω × Op)} {w : ω} (httl : 0 < cfg.ttl)
    (hd : ∀ a ∈ as, a.2.Carries Sized) :
    Run.Along (step fmt cfg h) (Asks cfg h) ⟨({}, w, []), fun _ => [], 0⟩ as ↔
      Run.Along (step fmt cfg h) (fun x a => Prompt cfg x.state.1 a.2)
        ⟨({}, w, []), fun _ => [], 0⟩ as := by
  have h₀ : Steady cfg (⟨({}, w, []), fun _ => [], 0⟩ : Chronicle ω) := ⟨.empty, nofun⟩
  refine Run.along_iff_along (J := Steady cfg) (D := fun a => a.2.Carries Sized) ?_ ?_ h₀ hd
  case refine_1 => exact fun x a hx _ => ⟨hx.prompt httl, hx.asks httl⟩
  case refine_2 => exact fun x a hx ha _ => hx.step ha

-- A slot that is given up without a request refutes it.
theorem Asks.asked_ne_nil (ha : x.Asks cfg h a) :
    ∀ e ∈ x.state.1.slots.entries, e.2.Anchored → e.1 ∉ (x.swept cfg h a).state.1.slots →
      Event.asked ((x.swept cfg h a).lives e.1) ≠ [] := by
  intro ⟨key, s⟩ he hanch hgone
  have hgone := AList.lookup_eq_none.mpr hgone
  have ⟨earlier, reason, s₀, e, _, _, hask⟩ := ha key s (AList.mem_entries_iff.mp he) hanch hgone
  rw [e, Event.asked_append, hask]
  exact List.cons_ne_nil _ _

-- One of three fragments, and sweeps before and after the limit on the age.
def stalled (maxAge : Duration) (sweeps : List Int) :
    Config × List (Query Unit × Op) :=
  ({ Config.new 0 0 true with maxAge := maxAge }, (fun _ _ _ _ => true, arrive someTx 0 0) ::
    sweeps.map fun ms => (fun _ _ _ _ => true, .tick ⟨Time.ms ms, fun _ => 0⟩))

theorem asks_before_limit :
    let x := stalled (Time.ms 120000) [11000, 22000, 120001]
    Run.Along (step lastByte x.1 Hooks.none) (Asks x.1 Hooks.none)
      ⟨({}, (), []), fun _ => [], 0⟩ x.2 :=
  (asks_iff_prompt (by decide) (by decide +kernel)).mpr (by decide +kernel)

-- With a limit below the TTL, the first sweep that finds the object late gives it up without a
-- request. The buffer without a repair wait makes one.
theorem lowLimit_not_asks :
    let x := stalled (Time.ms 5000) [11000]
    (0 < x.1.ttl ∧ 0 < x.1.maxAge ∧
      ¬Run.Along (step lastByte x.1 Hooks.none) (Asks x.1 Hooks.none)
        ⟨({}, (), []), fun _ => [], 0⟩ x.2) ∧
      Event.asked (Run.exec (Reassembly.step lastByte x.1 Hooks.none.chronicled) ({}, (), [])
        (x.2.map Prod.snd)).2.2 = [⟨5, 0, .zero, [2, 3]⟩] := by
  refine ⟨⟨by decide, by decide, fun hasks => ?_⟩, by decide +kernel⟩
  exact absurd (hasks.mono fun _ _ => Asks.asked_ne_nil) (by decide +kernel)

end Chronicle

end Reassembly
