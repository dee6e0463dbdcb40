import ShardListener.Extensions.Run
import ShardListener.Reassembly.Theorems.Gather

namespace Reassembly

-- The callbacks `h`, together with a record of the completed objects they are handed.
def Hooks.recorded {ω : Type} (h : Hooks ω) : Hooks (ω × List Delivery) where
  metric m w              := (h.metric m w.1, w.2)
  onComplete i f w        := (h.onComplete i f w.1, w.2 ++ [.tx f])
  onCompleteBlock i f w   := (h.onCompleteBlock i f w.1, w.2 ++ [.block f])
  onCompleteSubtree i f w := (h.onCompleteSubtree i f w.1, w.2 ++ [.subtreeData f])
  onCompleteBEEF i f w    := (h.onCompleteBEEF i f w.1, w.2 ++ [.beef f])
  onCompleteBEEFFrame     :=
    h.onCompleteBEEFFrame.map fun cb i whole f w => (cb i whole f w.1, w.2 ++ [.beef f])
  onIncomplete i q w      := (h.onIncomplete i q w.1, w.2)
  repairPending           := h.repairPending.map fun pending w => pending w.1
  groupIdxFn              := h.groupIdxFn

namespace Hooks

variable {ω : Type} {h : Hooks ω} {fmt : Formats} {i : Instant} {d : Delivery}
variable {w : ω × List Delivery} {log : List Delivery}

theorem recorded_deliver :
    h.recorded.deliver fmt i d w = (h.deliver fmt i d w.1, w.2 ++ [d]) := by
  cases d
  case beef f => cases hb : h.onCompleteBEEFFrame <;> simp [deliver, recorded, hb]
  all_goals rfl

theorem recorded_spares : h.recorded.Spares fun w => w.2 = log where
  metric _ _ _ hw       := hw
  onIncomplete _ _ _ hw := hw

end Hooks

namespace Delivery

-- The slot key of the object.
def key (fmt : Formats) : Delivery → Bytes32
  | tx f          => f.txID
  | block f       => f.contentID
  | subtreeData f => f.subtreeID
  | beef f        => fmt.pairKey f.contentID f.topicID

-- The HashKey and the SeqNum of a delivered frame are those of the first fragment to arrive.
-- Without them it is the object.
def unstamped : Delivery → Delivery
  | tx f          => tx { f with hashKey := 0, seqNum := 0 }
  | block f       => block { f with hashKey := 0, seqNum := 0 }
  | subtreeData f => subtreeData { f with hashKey := 0, seqNum := 0 }
  | beef f        => beef { f with hashKey := 0, seqNum := 0 }

variable {fmt : Formats} {d : Delivery} {o : Object} {hashKey : HashKey} {seqNum : SeqNum}

@[simp]
theorem key_unstamped : d.unstamped.key fmt = d.key fmt := by
  cases d <;> rfl

@[simp]
theorem unstamped_delivery : (o.delivery hashKey seqNum).unstamped = o.delivery 0 0 := by
  unfold Object.delivery
  split
  case isTrue => rfl
  case isFalse =>
    split
    case isTrue => rfl
    case isFalse => split <;> rfl

@[simp]
theorem key_delivery : (o.delivery hashKey seqNum).key fmt = o.key fmt := by
  simp only [Object.delivery, Object.key, slotKey, Object.fragment]
  split
  case isTrue e => simp [key, e, FrameVer.v4, FrameVer.v9]
  case isFalse =>
    split
    case isTrue e => simp [key, e, FrameVer.v5, FrameVer.v9]
    case isFalse =>
      split
      case isTrue e  => simp [key, e]
      case isFalse e => simp [key, e]

end Delivery

-- The abstract state of reassembly: which fragments of which object have arrived.
abbrev Got := Bytes32 → Finset Nat

namespace Got

def add (got : Got) (key : Bytes32) (j : Nat) : Got :=
  Function.update got key (insert j (got key))

def Complete (fmt : Formats) (got : Got) (o : Object) : Prop :=
  got (o.key fmt) = Finset.range o.total

instance {fmt : Formats} {got : Got} : DecidablePred (got.Complete fmt) :=
  fun _ => inferInstanceAs (Decidable (_ = _))

-- The objects all of whose fragments have arrived.
def completed (fmt : Formats) (objs : List Object) (got : Got) : List Object :=
  objs.filter (got.Complete fmt)

-- The fragment an operation brings.
def after (fmt : Formats) (got : Got) : Op → Got
  | .observe _ ff => got.add (slotKey fmt ff) ff.fragIndex
  | _             => got

variable {fmt : Formats} {objs : List Object} {got : Got} {o o' : Object} {j k : Nat}
variable {key : Bytes32}
variable {ops : List Op}

theorem add_self : got.add key j key = insert j (got key) :=
  Function.update_self ..

theorem add_of_ne {key' : Bytes32} (h : key' ≠ key) : got.add key j key' = got key' :=
  Function.update_of_ne h ..

theorem complete_add_of_ne (h : o'.key fmt ≠ key) :
    (got.add key j).Complete fmt o' ↔ got.Complete fmt o' := by
  simp only [Complete, add_of_ne h]

theorem key_ne (hk : (objs.map (·.key fmt)).Nodup) (ho : o ∈ objs) (ho' : o' ∈ objs) (h : o' ≠ o) :
    o'.key fmt ≠ o.key fmt :=
  fun e => h (List.inj_on_of_nodup_map hk ho' ho e)

-- The fragment leaves the object incomplete.
theorem completed_add_of_incomplete (hk : (objs.map (·.key fmt)).Nodup) (ho : o ∈ objs)
    (hn : ¬got.Complete fmt o) (ha : ¬(got.add (o.key fmt) j).Complete fmt o) :
    (got.add (o.key fmt) j).completed fmt objs = got.completed fmt objs := by
  refine List.filter_congr fun o' ho' => ?_
  by_cases e : o' = o
  case pos => subst e; simp [hn, ha]
  case neg => simp [complete_add_of_ne (key_ne hk ho ho' e)]

-- It is the object's last one.
theorem completed_add_of_complete (hk : (objs.map (·.key fmt)).Nodup) (ho : o ∈ objs)
    (hn : ¬got.Complete fmt o) (ha : (got.add (o.key fmt) j).Complete fmt o) :
    ((got.add (o.key fmt) j).completed fmt objs).Perm (o :: got.completed fmt objs) := by
  have hd : objs.Nodup := hk.of_map
  have hm : o ∉ got.completed fmt objs := fun h => hn (by simpa using (List.mem_filter.mp h).2)
  refine (List.perm_ext_iff_of_nodup (hd.filter _) ((hd.filter _).cons hm)).mpr fun o' => ?_
  by_cases e : o' = o
  case pos => subst e; simp [completed, ho, ha]
  case neg =>
    simp only [completed, List.mem_filter, List.mem_cons, e, false_or, decide_eq_true_eq]
    exact and_congr_right fun ho' => complete_add_of_ne (key_ne hk ho ho' e)

-- What has arrived after a run.
theorem mem_foldl_after :
    k ∈ ops.foldl (after fmt) got key ↔
      k ∈ got key ∨ ∃ i ff, .observe i ff ∈ ops ∧ slotKey fmt ff = key ∧ ff.fragIndex = k := by
  induction ops generalizing got
  case nil => simp
  case cons op ops hi =>
    rw [List.foldl_cons, hi]
    cases op
    case observe i ff =>
      by_cases e : slotKey fmt ff = key
      case pos =>
        subst e
        simp only [after, add_self]
        grind
      case neg =>
        simp only [after, add_of_ne (Ne.symm e)]
        grind
    case tick  => simp [after]
    case purge => simp [after]

end Got

namespace Op

-- The operation brings a fragment of the object, with any HashKey and SeqNum.
def Brings (o : Object) (j : Nat) : Op → Prop
  | observe _ ff => ff = o.fragment j ff.hashKey ff.seqNum
  | _            => False

-- The operations of a run: fragments of the objects, sweeps and purges.
def Legal (objs : List Object) : Op → Prop
  | observe i ff => ∃ o ∈ objs, ∃ j < o.total, (observe i ff).Brings o j
  | _            => True

instance {o : Object} {j : Nat} : DecidablePred (Brings o j)
  | observe .. => inferInstanceAs (Decidable (_ = _))
  | tick _     => .isFalse id
  | purge      => .isFalse id

instance {objs : List Object} : DecidablePred (Legal objs)
  | observe .. => inferInstanceAs (Decidable (∃ o ∈ objs, ∃ j < o.total, _))
  | tick _     => .isTrue trivial
  | purge      => .isTrue trivial

end Op

-- What a slot shows of the abstract state of its object.
def Shows (fmt : Formats) (o : Object) (got : Finset Nat) : Option Slot → Prop
  | none   => got = ∅ ∨ got = Finset.range o.total
  | some s => SlotOf fmt o got s ∧ got ≠ Finset.range o.total

-- The buffer refines the abstract state: its slots are the objects on their way, its memory has
-- only complete ones, and the complete ones are what has been delivered.
structure Refines {ω : Type} (fmt : Formats) (objs : List Object) (got : Got)
    (p : Buffer × (ω × List Delivery)) : Prop where
  slots : ∀ o ∈ objs, Shows fmt o (got (o.key fmt)) (p.1.slots.lookup (o.key fmt))
  done  : ∀ key ∈ p.1.done, ∃ o ∈ objs, o.key fmt = key ∧ got.Complete fmt o
  log   : (p.2.2.map Delivery.unstamped).Perm ((got.completed fmt objs).map (·.delivery 0 0))

namespace Refines

variable {ω : Type} {fmt : Formats} {cfg : Config} {h : Hooks ω} {i : Instant} {objs : List Object}
variable {got : Got} {p q : Buffer × (ω × List Delivery)} {o : Object} {s : Slot} {j : Nat}
variable {hashKey : HashKey} {seqNum : SeqNum}

-- A sweep that removes no slot changes nothing of the abstract state.
theorem sweep (hr : Refines fmt objs got p)
    (ho : ∀ k, Outlives (p.1.slots.lookup k) (q.1.slots.lookup k))
    (hs : ∀ k ∈ p.1.slots.keys, k ∈ q.1.slots) (hd : ∀ k ∈ q.1.done, k ∈ p.1.done)
    (hl : q.2.2 = p.2.2) : Refines fmt objs got q where
  slots := by
    intro o hm
    have hsl := hr.slots o hm
    have hol := ho (o.key fmt)
    cases hp : p.1.slots.lookup (o.key fmt)
    case none =>
      rw [hp] at hsl hol
      have hq : q.1.slots.lookup (o.key fmt) = none := by
        refine Option.eq_none_iff_forall_ne_some.mpr fun s' e => ?_
        have ⟨_, e', _⟩ := hol s' e
        cases e'
      rw [hq]
      exact hsl
    case some s =>
      rw [hp] at hsl hol
      have hkey : o.key fmt ∈ p.1.slots := AList.mem_iff_lookup.mpr ⟨s, hp⟩
      have ⟨s', e, _, _, _, hk⟩ := hol.kept (AList.lookup_isSome.mpr (hs _ hkey))
      rw [e, hk]
      exact ⟨hsl.1.kept, hsl.2⟩
  done key hk := hr.done key (hd key hk)
  log := hl ▸ hr.log

-- A completed object has been delivered.
theorem delivered (hr : Refines fmt objs got p) (ho : o ∈ objs) (hc : got.Complete fmt o) :
    ∃ d ∈ p.2.2, d.key fmt = o.key fmt := by
  have hm : o ∈ got.completed fmt objs := List.mem_filter.mpr ⟨ho, by simpa using hc⟩
  have hd := hr.log.mem_iff.mpr (List.mem_map_of_mem (f := (·.delivery 0 0)) hm)
  have ⟨d, hd, e⟩ := List.mem_map.mp hd
  refine ⟨d, hd, ?_⟩
  rw [← Delivery.key_unstamped, e, Delivery.key_delivery]

-- The slot of an object on its way.
theorem incomplete (hr : Refines fmt objs got p) (ho : o ∈ objs)
    (hl : p.1.slots.lookup (o.key fmt) = some s) :
    SlotOf fmt o (got (o.key fmt)) s ∧ ¬got.Complete fmt o := by
  have hs := hr.slots o ho
  rw [hl] at hs
  exact hs

-- A fragment that has arrived before adds nothing.
theorem add_of_mem (hr : Refines fmt objs got p) (hj : j ∈ got (o.key fmt)) :
    Refines fmt objs (got.add (o.key fmt) j) p := by
  have e : got.add (o.key fmt) j = got := by
    simp only [Got.add, Finset.insert_eq_of_mem hj, Function.update_eq_self]
  rw [e]
  exact hr

-- The objects that are done stay so, as the fragment is of another one.
theorem done_add (hr : Refines fmt objs got p) (hk : (objs.map (·.key fmt)).Nodup) (ho : o ∈ objs)
    (hn : ¬got.Complete fmt o) {key : Bytes32} (hd : key ∈ p.1.done) :
    ∃ o' ∈ objs, o'.key fmt = key ∧ (got.add (o.key fmt) j).Complete fmt o' := by
  have ⟨o', ho', e, hc⟩ := hr.done key hd
  have hne : o' ≠ o := fun e => hn (e ▸ hc)
  exact ⟨o', ho', e, (Got.complete_add_of_ne (Got.key_ne hk ho ho' hne)).mpr hc⟩

-- A new fragment that is not the last one: the slot has it now.
theorem put (hr : Refines fmt objs got p) (hk : (objs.map (·.key fmt)).Nodup) (ho : o ∈ objs)
    (hn : ¬got.Complete fmt o) (hs : SlotOf fmt o (insert j (got (o.key fmt))) s)
    (ha : ¬(got.add (o.key fmt) j).Complete fmt o) :
    Refines fmt objs (got.add (o.key fmt) j) (p.1.putSlot (o.key fmt) s, p.2) where
  slots := by
    intro o' ho'
    rw [Buffer.lookup_putSlot]
    by_cases e : o' = o
    case pos =>
      subst e
      rw [if_pos rfl, Got.add_self]
      exact ⟨hs, fun e => ha (Got.add_self.trans e)⟩
    case neg =>
      have hne := Got.key_ne hk ho ho' e
      rw [if_neg hne, Got.add_of_ne hne]
      exact hr.slots o' ho'
  done _ hd := hr.done_add hk ho hn hd
  log := by
    rw [Got.completed_add_of_incomplete hk ho hn ha]
    exact hr.log

-- The last fragment: the slot is gone and the object is delivered.
theorem finish (hashKey : HashKey) (seqNum : SeqNum) (hr : Refines fmt objs got p)
    (hk : (objs.map (·.key fmt)).Nodup) (ho : o ∈ objs)
    (hn : ¬got.Complete fmt o) (ha : (got.add (o.key fmt) j).Complete fmt o)
    (hs : ∀ k, q.1.slots.lookup k = if k = o.key fmt then none else p.1.slots.lookup k)
    (hd : ∀ k ∈ q.1.done, k = o.key fmt ∨ k ∈ p.1.done)
    (hl : q.2.2 = p.2.2 ++ [o.delivery hashKey seqNum]) :
    Refines fmt objs (got.add (o.key fmt) j) q where
  slots := by
    intro o' ho'
    rw [hs]
    by_cases e : o' = o
    case pos =>
      subst e
      rw [if_pos rfl]
      exact .inr ha
    case neg =>
      have hne := Got.key_ne hk ho ho' e
      rw [if_neg hne, Got.add_of_ne hne]
      exact hr.slots o' ho'
  done := by
    intro key hm
    rcases hd key hm with e | hm
    case inl => exact ⟨o, ho, e.symm, ha⟩
    case inr => exact hr.done_add hk ho hn hm
  log := by
    have hc := (Got.completed_add_of_complete hk ho hn ha).map (·.delivery 0 0)
    rw [hl, List.map_append, List.map_singleton, Delivery.unstamped_delivery]
    exact (hr.log.append_right _).trans ((List.perm_append_singleton _ _).trans hc.symm)

theorem accept (hr : Refines fmt objs got p) (hk : (objs.map (·.key fmt)).Nodup) (ho : o ∈ objs)
    (ha : o.Admissible fmt cfg) (hj : j < o.total)
    (hl : p.1.slots.lookup (o.key fmt) = some s) :
    Refines fmt objs (got.add (o.key fmt) j)
      (Buffer.accept fmt cfg h.recorded i (o.fragment j hashKey seqNum) p s) := by
  have ⟨hs, hn⟩ := hr.incomplete ho hl
  by_cases hm : j ∈ got (o.key fmt)
  case pos =>
    rw [Buffer.accept_old hs hj hm]
    exact hr.add_of_mem hm
  case neg =>
    by_cases hall : insert j (got (o.key fmt)) = Finset.range o.total
    case neg =>
      rw [Buffer.accept_next hs hj hm hall]
      exact hr.put hk ho hn (hs.receive hashKey seqNum hj hm) fun e =>
        hall (Got.add_self.symm.trans e)
    case pos =>
      rw [Buffer.accept_last hs ha hj hm hall, Hooks.recorded_deliver]
      refine hr.finish s.hashKey s.seqNum hk ho hn (Got.add_self.trans hall) ?_ ?_ ?_
      case refine_1 =>
        intro k
        rw [Buffer.lookup_removeSlot, Buffer.markDone_slots]
      case refine_2 => exact fun k => Buffer.mem_done_of_markDone
      case refine_3 => dsimp only; split <;> rfl

theorem openSlot (hr : Refines fmt objs got p) (hk : (objs.map (·.key fmt)).Nodup) (ho : o ∈ objs)
    (hg : got (o.key fmt) = ∅) (hroom : p.1.slots.size < cfg.maxSlots) :
    Refines fmt objs got
      (Buffer.openSlot cfg h.recorded i (o.key fmt) (o.fragment j hashKey seqNum) p) where
  slots := by
    intro o' ho'
    simp only [Buffer.openSlot, if_neg (not_le.mpr hroom), Buffer.lookup_putSlot]
    by_cases e : o' = o
    case pos =>
      subst e
      rw [if_pos rfl, hg]
      exact ⟨Buffer.slotOf_newSlot, o'.range_total_ne_empty.symm⟩
    case neg =>
      rw [if_neg (Got.key_ne hk ho ho' e)]
      exact hr.slots o' ho'
  done := by
    simp only [Buffer.openSlot, if_neg (not_le.mpr hroom)]
    exact hr.done
  log := by
    simp only [Buffer.openSlot, if_neg (not_le.mpr hroom)]
    exact hr.log

-- What `Observe` does with a fragment after its sweep, as long as no capacity eviction hits a slot
-- and the key of a delivered object is remembered.
theorem gather (hr : Refines fmt objs got p) (hk : (objs.map (·.key fmt)).Nodup) (ho : o ∈ objs)
    (ha : o.Admissible fmt cfg) (hj : j < o.total)
    (hroom : o.key fmt ∉ p.1.slots → o.key fmt ∉ p.1.done → p.1.slots.size < cfg.maxSlots)
    (hmem : (∃ d ∈ p.2.2, d.key fmt = o.key fmt) → o.key fmt ∈ p.1.done) :
    Refines fmt objs (got.add (o.key fmt) j)
      (Buffer.gather fmt cfg h.recorded i (o.fragment j hashKey seqNum) p) := by
  have hs := hr.slots o ho
  cases hl : p.1.slots.lookup (o.key fmt)
  case some s =>
    rw [Buffer.gather_slot (o.fragment j hashKey seqNum) hl]
    exact hr.accept hk ho ha hj hl
  case none =>
    rw [hl] at hs
    by_cases hd : o.key fmt ∈ p.1.done
    case pos =>
      have ⟨o', ho', e, hc⟩ := hr.done _ hd
      have eo := List.inj_on_of_nodup_map hk ho' ho e
      subst eo
      have hlate : Refines fmt objs got (p.1, h.recorded.metric .lateFragment p.2) :=
        ⟨hr.slots, hr.done, hr.log⟩
      rw [Buffer.gather_late (o'.fragment j hashKey seqNum) hl hd]
      exact hlate.add_of_mem (hc ▸ Finset.mem_range.mpr hj)
    case neg =>
      -- An object that is complete would be remembered, so this is the first fragment.
      have hempty : got (o.key fmt) = ∅ := hs.resolve_right fun hc => hd (hmem (hr.delivered ho hc))
      have hsize := hroom (AList.lookup_eq_none.mp hl) hd
      rw [Buffer.gather_first ha.fits hj hl hd]
      refine (hr.openSlot hk ho hempty hsize).accept hk ho ha hj ?_
      simp only [Buffer.openSlot, Buffer.lookup_putSlot, if_true]

end Refines

-- No sweep, capacity eviction or purge hits a slot, and a fragment of an object that has been
-- delivered comes while the object is remembered.
def Undisturbed {ω : Type} (fmt : Formats) (cfg : Config) (h : Hooks ω)
    (p : Buffer × (ω × List Delivery)) : Op → Prop
  | .observe i ff =>
    let q := Buffer.sweepIfDue cfg h.recorded i p
    let key := slotKey fmt ff
    (∀ k ∈ p.1.slots.keys, k ∈ q.1.slots) ∧
      (key ∉ q.1.slots → key ∉ q.1.done → q.1.slots.size < cfg.maxSlots) ∧
      ((∃ d ∈ p.2.2, d.key fmt = key) → key ∈ q.1.done)
  | .tick i => ∀ k ∈ p.1.slots.keys, k ∈ (Buffer.tick cfg h.recorded i p).1.slots
  | .purge  => p.1.slots.keys = []

section

variable {ω : Type} {fmt : Formats} {cfg : Config} {h : Hooks ω} {objs : List Object} {got : Got}
variable {p : Buffer × (ω × List Delivery)} {op : Op} {ops : List Op} {w : ω}

instance : DecidablePred (Undisturbed fmt cfg h p)
  | .observe .. => inferInstanceAs (Decidable (_ ∧ _ ∧ _))
  | .tick _     => inferInstanceAs (Decidable (∀ k ∈ _, _))
  | .purge      => inferInstanceAs (Decidable (_ = _))

theorem Refines.purge (hr : Refines fmt objs got p) (hs : p.1.slots.keys = []) :
    Refines fmt objs got (Buffer.purge h.recorded p) where
  slots := by
    intro o ho
    have hl : p.1.slots.lookup (o.key fmt) = none := by
      rw [AList.lookup_eq_none, AList.mem_keys, hs]
      exact List.not_mem_nil
    have hsl := hr.slots o ho
    rw [hl] at hsl
    exact hsl
  done := fun _ hm => absurd hm (AList.notMem_empty _)
  log := by
    simp only [Buffer.purge, hs]
    exact hr.log

theorem Refines.step (hr : Refines fmt objs got p) (hk : (objs.map (·.key fmt)).Nodup)
    (ha : ∀ o ∈ objs, o.Admissible fmt cfg) (hl : op.Legal objs)
    (hu : Undisturbed fmt cfg h p op) :
    Refines fmt objs (got.after fmt op) (Reassembly.step fmt cfg h.recorded p op) := by
  cases op
  case observe i ff =>
    have ⟨o, ho, j, hj, e⟩ := hl
    simp only [Op.Brings] at e
    rw [e] at hu ⊢
    have ⟨hkept, hroom, hmem⟩ := hu
    have hlog : (Buffer.sweepIfDue cfg h.recorded i p).2.2 = p.2.2 :=
      Hooks.recorded_spares.sweepIfDue rfl
    have hsw : Refines fmt objs got (Buffer.sweepIfDue cfg h.recorded i p) :=
      hr.sweep (fun _ => Buffer.sweepIfDue_outlives) hkept
        (fun _ => Buffer.mem_done_of_sweepIfDue) hlog
    exact hsw.gather hk ho (ha o ho) hj hroom (hlog ▸ hmem)
  case tick i =>
    exact hr.sweep (fun _ => Buffer.evictExpired_outlives) hu
      (fun _ => Buffer.mem_done_of_evictExpired) (Hooks.recorded_spares.evictExpired rfl)
  case purge => exact hr.purge hu

theorem Refines.exec (hr : Refines fmt objs got p) (hk : (objs.map (·.key fmt)).Nodup)
    (ha : ∀ o ∈ objs, o.Admissible fmt cfg) (hl : ∀ op ∈ ops, op.Legal objs)
    (hu : Run.Along (Reassembly.step fmt cfg h.recorded) (Undisturbed fmt cfg h) p ops) :
    Refines fmt objs (ops.foldl (Got.after fmt) got)
      (Run.exec (Reassembly.step fmt cfg h.recorded) p ops) := by
  induction ops generalizing p got
  case nil => exact hr
  case cons op ops hi =>
    have hs := hr.step hk ha (hl op List.mem_cons_self) hu.1
    exact hi hs (fun op' hm => hl op' (List.mem_cons_of_mem _ hm)) hu.2

-- The state of a new buffer.
theorem Refines.new :
    Refines fmt objs (fun _ => ∅) (({}, w, []) : Buffer × (ω × List Delivery)) where
  slots _ _ := .inl rfl
  done _ hm := absurd hm (AList.notMem_empty _)
  log       := by
    have hnone : Got.completed fmt objs (fun _ => ∅) = [] := by
      refine List.filter_eq_nil_iff.mpr fun o _ => ?_
      exact mt of_decide_eq_true o.range_total_ne_empty.symm
    simp [hnone]

-- Reassembly is exact, in every order and exactly once: after any interleaving of the fragments of
-- the objects, with repetitions, in which every fragment occurs, the callbacks have been handed the
-- objects, each once and by the callback of its class.
theorem deliveries_perm_objects (hk : (objs.map (·.key fmt)).Nodup)
    (ha : ∀ o ∈ objs, o.Admissible fmt cfg) (hl : ∀ op ∈ ops, op.Legal objs)
    (hall : ∀ o ∈ objs, ∀ j < o.total, ∃ op ∈ ops, op.Brings o j)
    (hu : Run.Along (step fmt cfg h.recorded) (Undisturbed fmt cfg h) ({}, w, []) ops) :
    ((Run.exec (step fmt cfg h.recorded) ({}, w, []) ops).2.2.map Delivery.unstamped).Perm
      (objs.map (·.delivery 0 0)) := by
  have hr := (Refines.new (w := w)).exec hk ha hl hu
  have hc : (ops.foldl (Got.after fmt) fun _ => ∅).completed fmt objs = objs := by
    refine List.filter_eq_self.mpr fun o ho => decide_eq_true ?_
    refine Finset.Subset.antisymm (fun j hj => ?_) (fun j hj => ?_)
    case refine_1 =>
      have ⟨i, ff, hm, hkey, e⟩ := (Got.mem_foldl_after.mp hj).resolve_left (Finset.notMem_empty j)
      have ⟨o', ho', j', hj', hff⟩ := hl _ hm
      simp only [Op.Brings] at hff
      rw [hff] at hkey e
      have eo := List.inj_on_of_nodup_map hk ho' ho hkey
      subst eo e
      exact Finset.mem_range.mpr hj'
    case refine_2 =>
      have ⟨op, hm, hb⟩ := hall o ho j (Finset.mem_range.mp hj)
      cases op
      case observe i ff =>
        simp only [Op.Brings] at hb
        exact Got.mem_foldl_after.mpr (.inr ⟨i, ff, hm, by rw [hb]; rfl, by rw [hb]; rfl⟩)
      case tick  => exact hb.elim
      case purge => exact hb.elim
  rw [← hc]
  exact hr.log

end

-- A hash that is injective on the topics of the example: the last byte, repeated.
def lastByte : Formats where
  headerSize            := 92
  sha256 p              := .fill (p.getLastD 0)
  txSize p              := some p.length
  txID p                := some (.fill (p.headD 0))
  beefRecordMaxEnvelope := 64

def Hooks.none : Hooks Unit where
  metric _ w              := w
  onComplete _ _ w        := w
  onCompleteBlock _ _ w   := w
  onCompleteSubtree _ _ w := w
  onCompleteBEEF _ _ w    := w
  onCompleteBEEFFrame     := .none
  onIncomplete _ _ w      := w
  repairPending           := .none
  groupIdxFn _            := 0

-- A transaction in three fragments, and one BEEF object on its way to two topics.
def someTx : Object where
  txID      := .fill 9
  subtreeID := .zero
  frameVer  := FrameVer.v2
  msgType   := 0
  payload   := [9, 2, 3, 4, 5]
  total     := 3
  size      := 2
  total_pos := by decide
  total_le  := by decide
  size_pos  := by decide
  size_le   := by decide
  rest_pos  := by decide
  rest_le   := by decide

def someBeef (topic : UInt8) : Object where
  txID      := .fill 8
  subtreeID := .fill topic
  frameVer  := FrameVer.v9
  msgType   := 1
  payload   := [6, 7, 8]
  total     := 2
  size      := 2
  total_pos := by decide
  total_le  := by decide
  size_pos  := by decide
  size_le   := by decide
  rest_pos  := by decide
  rest_le   := by decide

def arrive (o : Object) (j : Nat) (ms : Int) : Op :=
  .observe ⟨Time.ms ms, fun _ => 0⟩ (o.fragment j 5 (j + 1))

-- Out of order, interleaved, with repetitions before and after completion.
def interleaving : List Op :=
  [arrive (someBeef 1) 1 0, arrive someTx 2 10, .tick ⟨Time.ms 20, fun _ => 0⟩, arrive someTx 0 30,
    arrive (someBeef 2) 0 40, arrive someTx 2 50, arrive (someBeef 1) 0 60, arrive someTx 1 70,
    arrive (someBeef 1) 1 80, arrive (someBeef 2) 1 90, arrive someTx 1 100]

theorem deliveries_perm_objects_interleaved :
    ((Run.exec (step lastByte (.new 0 0 true) Hooks.none.recorded)
      ({}, (), []) interleaving).2.2.map
      Delivery.unstamped).Perm ([someTx, someBeef 1, someBeef 2].map (·.delivery 0 0)) :=
  deliveries_perm_objects (by decide +kernel)
    (by
      intro o ho
      fin_cases ho
      all_goals exact ⟨by decide +kernel, by decide +kernel⟩)
    (by decide +kernel) (by decide +kernel) (by decide +kernel)

end Reassembly
