import ShardListener.Extensions.Fifo
import ShardListener.Reassembly.Theorems.Gather

namespace Reassembly.Buffer

variable {ω : Type} {fmt : Formats} {cfg : Config} {h : Hooks ω} {i : Instant} {ff : FragFrame}
variable {b : Buffer} {p : Buffer × ω} {k key : Bytes32} {ks : List Bytes32} {s : Slot}
variable {now exp : Time}

-- The keys that are remembered are those in the queue, each once.
structure Remembers (b : Buffer) : Prop where
  nodup : b.doneOrder.Nodup
  mem   : ∀ key, key ∈ b.doneOrder ↔ key ∈ b.done

-- The completion of `k` is remembered up to `exp`; the keys that completed after it are among `ks`.
structure Recalls (k : Bytes32) (exp : Time) (ks : List Bytes32) (b : Buffer) : Prop where
  behind : Fifo.Behind k ks b.doneOrder
  expiry : b.done.lookup k = some exp

theorem Remembers.of_memory {b' : Buffer} (hm : b.Remembers) (e : b'.memory = b.memory) :
    b'.Remembers := by
  have ⟨ed, eo⟩ := Prod.mk.inj e
  exact ⟨eo ▸ hm.nodup, fun key => by rw [eo, ed]; exact hm.mem key⟩

theorem Recalls.of_memory {b' : Buffer} (hr : b.Recalls k exp ks) (e : b'.memory = b.memory) :
    b'.Recalls k exp ks := by
  have ⟨ed, eo⟩ := Prod.mk.inj e
  exact ⟨eo ▸ hr.behind, ed ▸ hr.expiry⟩

theorem Recalls.mem (hr : b.Recalls k exp ks) : k ∈ b.done :=
  AList.mem_iff_lookup.mpr ⟨exp, hr.expiry⟩

-- The memory is a map and a queue with the same keys.
theorem Remembers.size (hm : b.Remembers) : b.done.size = b.doneOrder.length := by
  rw [AList.size_eq_length_keys]
  refine ((List.perm_ext_iff_of_nodup b.done.keys_nodup hm.nodup).mpr fun key => ?_).length_eq
  rw [hm.mem, AList.mem_keys]

-- The sweep of the memory keeps the keys whose window is open.

theorem lookup_forget {done : Dict Bytes32 Time} :
    (forget now done key).lookup k =
      if k = key then (done.lookup k).filter (now ≤ ·) else done.lookup k := by
  simp only [forget]
  split
  case h_1 hl =>
    split
    case isTrue e  => rw [e, hl, Option.filter_none]
    case isFalse   => rfl
  case h_2 exp hl =>
    split
    case isTrue hlt =>
      rw [AList.lookup_erase_eq_ite]
      split
      case isTrue e =>
        rw [e, hl, Option.filter_some, if_neg]
        simpa using hlt
      case isFalse => rfl
    case isFalse hge =>
      split
      case isTrue e =>
        rw [e, hl, Option.filter_some, if_pos]
        simpa using hge
      case isFalse => rfl

theorem lookup_foldl_forget {keys : List Bytes32} {done : Dict Bytes32 Time} :
    (keys.foldl (forget now) done).lookup k =
      if k ∈ keys then (done.lookup k).filter (now ≤ ·) else done.lookup k := by
  induction keys generalizing done
  case nil => rfl
  case cons key keys hi =>
    rw [List.foldl_cons, hi, lookup_forget]
    by_cases he : k = key
    case pos => simp [he, Option.filter_filter]
    case neg => simp [he]

namespace Remembers

theorem lookup_sweepDone (hm : b.Remembers) :
    (b.sweepDone now).done.lookup k = (b.done.lookup k).filter (now ≤ ·) := by
  simp only [sweepDone]
  split
  case isTrue hz => rw [AList.size_eq_zero_iff.mp hz, Option.filter_none]
  case isFalse =>
    rw [lookup_foldl_forget]
    split
    case isTrue => rfl
    case isFalse hk => rw [AList.lookup_eq_none.mpr (mt (hm.mem k).mpr hk), Option.filter_none]

theorem doneOrder_sweepDone (hm : b.Remembers) :
    (b.sweepDone now).doneOrder = b.doneOrder.filter (· ∈ (b.sweepDone now).done) := by
  simp only [sweepDone]
  split
  case isFalse => rfl
  case isTrue hz =>
    rw [hm.size, List.length_eq_zero_iff] at hz
    rw [hz, List.filter_nil]

theorem sweepDone (hm : b.Remembers) : (b.sweepDone now).Remembers where
  nodup := by
    rw [hm.doneOrder_sweepDone]
    exact hm.nodup.filter _
  mem := by
    intro key
    rw [hm.doneOrder_sweepDone, List.mem_filter, decide_eq_true_eq, hm.mem]
    exact and_iff_right_of_imp mem_done_of_sweepDone

-- A key that was not remembered is pushed on the queue.

theorem doneOrder_markDone (hm : b.Remembers) (hk : key ∉ b.done) :
    (b.markDone cfg now key).doneOrder = Fifo.push cfg.maxSlots b.doneOrder key := by
  simp only [markDone, if_neg hk, Fifo.push, hm.size]
  split
  case h_1 oldest rest e =>
    split
    case isTrue  => rw [e, List.tail_cons]
    case isFalse => rfl
  case h_2 e => simp [e]

theorem lookup_markDone (hm : b.Remembers) (hk : key ∉ b.done) (hne : k ≠ key) :
    (b.markDone cfg now key).done.lookup k =
      if k ∈ Fifo.push cfg.maxSlots b.doneOrder key then b.done.lookup k else none := by
  have habsent (ho : k ∉ b.doneOrder) : b.done.lookup k = none :=
    AList.lookup_eq_none.mpr (mt (hm.mem k).mpr ho)
  simp only [markDone, if_neg hk, AList.lookup_insert_ne hne, Fifo.push, List.mem_append,
    List.mem_singleton, hne, or_false, hm.size]
  cases ho : b.doneOrder
  case nil => simp [habsent, ho]
  case cons oldest rest =>
    have hn := hm.nodup
    rw [ho] at habsent hn
    have hold : oldest ∉ rest := (List.nodup_cons.mp hn).1
    dsimp only
    by_cases hfull : cfg.maxSlots ≤ (oldest :: rest).length
    case neg =>
      rw [if_neg hfull, if_neg hfull]
      split
      case isTrue     => rfl
      case isFalse ho => exact habsent ho
    case pos =>
      rw [if_pos hfull, if_pos hfull, AList.lookup_erase_eq_ite, List.tail_cons]
      split
      case isTrue e => rw [e, if_neg hold]
      case isFalse e =>
        split
        case isTrue     => rfl
        case isFalse hr => exact habsent fun hm => (List.mem_cons.mp hm).elim e hr

theorem lookup_markDone_self : (b.markDone cfg now key).done.lookup key =
    some (now + cfg.completionTTL) :=
  AList.lookup_insert _

theorem markDone (hm : b.Remembers) (hk : key ∉ b.done) : (b.markDone cfg now key).Remembers where
  nodup := by
    rw [hm.doneOrder_markDone hk]
    exact Fifo.nodup_push hm.nodup (mt (hm.mem key).mp hk)
  mem := by
    intro k
    rw [hm.doneOrder_markDone hk, AList.mem_iff_lookup]
    by_cases hne : k = key
    case pos =>
      subst hne
      exact iff_of_true Fifo.mem_push_self ⟨_, lookup_markDone_self⟩
    case neg =>
      rw [hm.lookup_markDone hk hne]
      split
      case isFalse hp => simp [hp]
      case isTrue hp =>
        have hd := (hm.mem k).mp ((Fifo.mem_of_mem_push hp).resolve_left hne)
        exact iff_of_true hp (AList.mem_iff_lookup.mp hd)

end Remembers

namespace Recalls

theorem sweepDone (hr : b.Recalls k exp ks) (hm : b.Remembers) (hle : now ≤ exp) :
    (b.sweepDone now).Recalls k exp ks := by
  have hl : (b.sweepDone now).done.lookup k = some exp := by
    rw [hm.lookup_sweepDone, hr.expiry, Option.filter_some, if_pos (decide_eq_true hle)]
  refine ⟨?_, hl⟩
  rw [hm.doneOrder_sweepDone]
  exact hr.behind.filter (decide_eq_true (AList.mem_iff_lookup.mpr ⟨exp, hl⟩))

-- The completion of another object. `k` is displaced only when `maxSlots` others have completed.
theorem markDone (hr : b.Recalls k exp ks) (hm : b.Remembers) (hk : key ∉ b.done)
    (hlt : (ks.insert key).length < cfg.maxSlots) :
    (b.markDone cfg now key).Recalls k exp (ks.insert key) := by
  have hb := hr.behind.push hm.nodup (mt (hm.mem key).mp hk) hlt
  have hne : k ≠ key := fun e => hk (e ▸ hr.mem)
  refine ⟨hm.doneOrder_markDone hk ▸ hb, ?_⟩
  rw [hm.lookup_markDone hk hne, if_pos hb.mem]
  exact hr.expiry

theorem markDone_self (hm : b.Remembers) (hk : key ∉ b.done) :
    (b.markDone cfg now key).Recalls key (now + cfg.completionTTL) [] :=
  ⟨hm.doneOrder_markDone hk ▸ Fifo.behind_push, Remembers.lookup_markDone_self⟩

end Recalls

-- What the steps of the buffer do to the memory: a completed object is marked, and nothing else.

theorem openSlot_memory : (openSlot cfg h i key ff p).1.memory = p.1.memory := by
  simp only [openSlot]
  split
  case isFalse => rfl
  case isTrue =>
    simp only [evictOldest]
    split
    case h_1 => rfl
    case h_2 => rfl

theorem markDone_memory {b' : Buffer} (e : b'.memory = b.memory) :
    (b'.markDone cfg now key).memory = (b.markDone cfg now key).memory := by
  have ⟨ed, eo⟩ := Prod.mk.inj e
  simp only [markDone, memory, ed, eo]
  split
  case isTrue => rw [ed, eo]
  case isFalse =>
    dsimp only
    split
    case h_1 => split <;> simp only [ed, eo]
    case h_2 => simp only [ed, eo]

theorem gather_accepts_memory (hs : met fmt cfg h i p.1 ff = some s) :
    ∃ p', p'.1.memory = p.1.memory ∧ gather fmt cfg h i ff p = accept fmt cfg h i ff p' s := by
  have ⟨p', hp', e⟩ := gather_accepts hs
  refine ⟨p', ?_, e⟩
  rcases hp' with rfl | rfl
  case inl => rfl
  case inr => exact openSlot_memory

theorem gather_not_completing_memory (hc : completing fmt cfg h i p.1 ff = none) :
    (gather fmt cfg h i ff p).1.memory = p.1.memory := by
  cases hmet : met fmt cfg h i p.1 ff
  case none =>
    have ⟨hl, ho⟩ := met_eq_none hmet
    rw [gather_ignoring hl ho]
  case some s =>
    have ⟨p', hmem, e⟩ := gather_accepts_memory hmet
    rw [e, ← hmem]
    rcases accept_cases fmt cfg h i ff p' s with
      ⟨e, _⟩ | ⟨e, _⟩ | ⟨size, _, hsize, ⟨e, _⟩ | ⟨_, hby⟩⟩
    case inl         => rw [e]
    case inr.inl     => rw [e]; rfl
    case inr.inr.inl => rw [e]; rfl
    case inr.inr.inr => simp [completing, hmet, hby, hsize] at hc

theorem gather_completing_memory (hkd : p.1.Keyed) (hc : completing fmt cfg h i p.1 ff = some s) :
    (gather fmt cfg h i ff p).1.memory = (p.1.markDone cfg i.now (slotKey fmt ff)).memory ∧
      (gather fmt cfg h i ff p).1.slots.lookup (slotKey fmt ff) = none := by
  have ⟨s₀, size, hmet, hby, hsize, e⟩ := completing_met hc
  have ⟨p', hmem, e'⟩ := gather_accepts_memory hmet
  have hkey : s.key = slotKey fmt ff := by
    rw [e, Slot.receive_key]
    exact hkd.met rfl hmet
  rw [e', accept_completes hby hsize, ← e, complete_fst, hkey]
  refine ⟨markDone_memory hmem, ?_⟩
  rw [lookup_removeSlot, if_pos rfl]

end Reassembly.Buffer
