import ShardListener.Dedup.Theorems.Set
import ShardListener.Extensions.Ring
import ShardListener.Extensions.Run

namespace Dedup

-- A call of `SeenAndAdd`, with the clock, which is an `int64`.
structure Call where
  now   : Time
  key   : Key
  range : toInt64 now = now := by decide

theorem toInt64_range {x : Int} (h : toInt64 x = x) : -2 ^ 63 ≤ x ∧ x < 2 ^ 63 := by
  have := Int.le_bmod (x := x) (m := 2 ^ 64) (by decide)
  have := Int.bmod_lt (x := x) (m := 2 ^ 64) (by decide)
  unfold toInt64 at h
  omega

theorem toInt64_le {x : Int} (h : -2 ^ 63 ≤ x) : toInt64 x ≤ x := by
  unfold toInt64
  rw [Int.bmod_def]
  split <;> omega

-- A sum that does not fit an `int64` is before each of its summands.
theorem le_toInt64_add_iff {now t ttl : Int} (ht : toInt64 t = t) (hr : toInt64 ttl = ttl)
    (h0 : 0 < ttl) (hle : t ≤ now) (hnow : now ≤ t + ttl) :
    now ≤ toInt64 (t + ttl) ↔ t + ttl < 2 ^ 63 := by
  have ⟨hlow, _⟩ := toInt64_range ht
  have ⟨_, hhigh⟩ := toInt64_range hr
  unfold toInt64
  rw [Int.bmod_def]
  split <;> omega

namespace Set

variable {s : Set} {capacity : Int} {ttl : Duration} {cs ds : List Call} {c i q : Call}
variable {key k : Key}
variable {log : List Key} {now t exp : Time}

def answers (s : Set) (c : Call) : Bool :=
  (s.seenAndAdd c.now c.key).1

def call (s : Set) (c : Call) : Set :=
  (s.seenAndAdd c.now c.key).2

-- The keys of the calls that return false, the latest first.
def inserted (s : Set) : List Call → List Key
  | []      => []
  | c :: cs => (s.call c).inserted cs ++ if s.answers c then [] else [c.key]

-- The time of the latest call for the key.
def latest (key : Key) : List Call → Option Time
  | []      => none
  | c :: cs => (latest key cs).or (if c.key = key then some c.now else none)

def after (capacity : Int) (ttl : Duration) (cs : List Call) : Set :=
  Run.exec call (.new capacity ttl) cs

theorem after_append : after capacity ttl (cs ++ ds) = Run.exec call (after capacity ttl cs) ds :=
  List.foldl_append

theorem inserted_append :
    s.inserted (cs ++ ds) = (Run.exec call s cs).inserted ds ++ s.inserted cs := by
  induction cs generalizing s
  case nil          => simp [inserted]
  case cons c cs hi => simp [inserted, hi]

theorem latest_append : latest key (cs ++ ds) = (latest key ds).or (latest key cs) := by
  induction cs
  case nil          => simp [latest]
  case cons c cs hi => simp [latest, hi, Option.or_assoc]

theorem latest_concat :
    latest key (cs ++ [c]) = if c.key = key then some c.now else latest key cs := by
  rw [latest_append]
  simp only [latest, Option.none_or]
  split
  case isTrue  => rfl
  case isFalse => rfl

theorem call_of_latest (h : latest key cs = some t) : ∃ c ∈ cs, c.key = key ∧ c.now = t := by
  induction cs
  case nil => cases h
  case cons c cs hi =>
    rcases Option.or_eq_some_iff.mp h with h | ⟨_, h⟩
    case inl =>
      have ⟨d, hd, hk⟩ := hi h
      exact ⟨d, List.mem_cons_of_mem _ hd, hk⟩
    case inr =>
      split at h
      case isTrue hk => exact ⟨c, List.mem_cons_self, hk, Option.some.inj h⟩
      case isFalse   => cases h

theorem latest_of_mem (h : c ∈ cs) : ∃ t, latest c.key cs = some t := by
  have ⟨as, bs, e⟩ := List.append_of_mem h
  subst e
  rw [latest_append]
  cases hb : latest c.key bs
  case some t => exact ⟨t, by simp [latest, hb]⟩
  case none   => exact ⟨c.now, by simp [latest, hb]⟩

-- What a call does, by its answer.
theorem seen_of_answers (h : s.answers c = true) :
    s.seen c.now c.key = true ∧
      s.call c = { s with entries := s.entries.insert c.key (s.expiry c.now) } := by
  simp only [answers, call, seenAndAdd] at h ⊢
  split at h
  case isTrue => cases h
  case isFalse hcap =>
    split at h
    case isTrue hseen => exact ⟨hseen, by rw [if_neg hcap, if_pos hseen]⟩
    case isFalse      => cases h

theorem call_of_not_answers (hcap : s.capacity ≠ 0) (h : s.answers c = false) :
    s.call c = s.add c.now c.key := by
  simp only [answers, call, seenAndAdd, if_neg hcap] at h ⊢
  split at h
  case isTrue        => cases h
  case isFalse hseen => rw [if_neg hseen]

theorem answers_iff (hcap : s.capacity ≠ 0) : s.answers c = true ↔ s.seen c.now c.key = true := by
  refine ⟨fun h => (seen_of_answers h).1, fun h => ?_⟩
  simp only [answers, seenAndAdd, if_neg hcap, if_pos h]

-- The set after the calls `cs`, which inserted the keys of the log. The ring holds the latest of
-- them, the map is an index of the ring, and each key of the map expires by the time of its latest
-- call.
structure Tracks (cs : List Call) (log : List Key) (s : Set) : Prop where
  ring   : Ring.Holds s.capacity s.ring s.head s.count log
  mem    : ∀ k, k ∈ s.entries ↔ Ring.Indexed s.capacity k log
  expiry : ∀ k exp, s.entries.lookup k = some exp → ∃ t, latest k cs = some t ∧ exp = s.expiry t

namespace Tracks

-- The key of a call expires by the time of the call, and any other key as before.
theorem expiry_insert {m : Dict Key Time} (h : Tracks cs log s)
    (hm : ∀ k exp, m.lookup k = some exp → s.entries.lookup k = some exp) (k : Key) (exp : Time)
    (hk : (m.insert c.key (s.expiry c.now)).lookup k = some exp) :
    ∃ t, latest k (cs ++ [c]) = some t ∧ exp = s.expiry t := by
  rw [AList.lookup_insert_eq_ite] at hk
  split at hk
  case isTrue e =>
    cases hk
    exact ⟨c.now, by rw [latest_concat, if_pos e.symm], rfl⟩
  case isFalse hne =>
    rw [latest_concat, if_neg (Ne.symm hne)]
    exact h.expiry k exp (hm k exp hk)

theorem refresh (h : Tracks cs log s) (hk : c.key ∈ s.entries) :
    Tracks (cs ++ [c]) log { s with entries := s.entries.insert c.key (s.expiry c.now) } where
  ring   := h.ring
  mem    := by
    intro k
    rw [AList.mem_insert, ← h.mem k]
    exact or_iff_right_of_imp fun e => e ▸ hk
  expiry := h.expiry_insert fun _ _ => id

-- The key in the slot that the insertion takes is removed from the map.
theorem mem_add_iff (h : Tracks cs log s) (hc : 0 < s.capacity) :
    k ∈ (s.add now key).entries ↔ Ring.Indexed s.capacity k (key :: log) := by
  simp only [add, AList.mem_insert, Ring.Indexed]
  refine or_congr_right ?_
  split
  case isTrue hf =>
    have hlen : s.capacity - 1 < log.length := by have := h.ring.count; omega
    have hold := h.ring.oldest hc hf
    rw [List.getElem?_eq_getElem hlen] at hold ⊢
    rw [hold, Option.getD_some, AList.mem_erase, h.mem k, and_comm, ne_eq, ne_eq, Option.some_inj]
    exact and_congr_right fun _ => not_congr eq_comm
  case isFalse hf => simp [h.ring.oldest_of_ne hf, h.mem k]

theorem add (h : Tracks cs log s) (hc : 0 < s.capacity) :
    Tracks (cs ++ [c]) (c.key :: log) (s.add c.now c.key) := by
  have hring : Ring.Holds s.capacity (s.ring.set s.head c.key) ((s.head + 1) % s.capacity)
      (if s.count = s.capacity then s.count else s.count + 1) (c.key :: log) := h.ring.push hc
  have hmem : ∀ k, k ∈ (s.add c.now c.key).entries ↔ Ring.Indexed s.capacity k (c.key :: log) :=
    fun _ => h.mem_add_iff hc
  simp only [Set.add] at hmem ⊢
  split
  case isTrue hf =>
    rw [if_pos hf] at hring hmem
    refine ⟨hring, hmem, h.expiry_insert ?_⟩
    intro k exp hk
    rw [AList.lookup_erase_eq_ite] at hk
    split at hk
    case isTrue  => cases hk
    case isFalse => exact hk
  case isFalse hf =>
    rw [if_neg hf] at hring hmem
    exact ⟨hring, hmem, h.expiry_insert fun _ _ => id⟩

theorem call (h : Tracks cs log s) (hc : 0 < s.capacity) :
    Tracks (cs ++ [c]) (s.inserted [c] ++ log) (s.call c) := by
  simp only [inserted, List.nil_append]
  split
  case isTrue ha =>
    have ⟨hseen, e⟩ := seen_of_answers ha
    rw [e]
    exact h.refresh (mem_of_seen hseen)
  case isFalse ha =>
    rw [call_of_not_answers hc.ne' (by simpa using ha)]
    exact h.add hc

-- The entry of a remembered key has not expired if and only if its latest call is not too long ago.
theorem seen_iff (h : Tracks cs log s) (hl : latest key cs = some t) :
    s.seen now key = true ↔ key ∈ s.entries ∧ (s.ttl ≤ 0 ∨ now ≤ s.expiry t) := by
  rw [AList.mem_iff_lookup]
  simp only [seen]
  cases hk : s.entries.lookup key
  case none => simp
  case some exp =>
    obtain ⟨t', ht', e⟩ := h.expiry key exp hk
    cases hl.symm.trans ht'
    simp [e]

end Tracks

theorem call_fields : (s.call c).capacity = s.capacity ∧ (s.call c).ttl = s.ttl := by
  simp only [call, seenAndAdd, add]
  split
  case isTrue => exact ⟨rfl, rfl⟩
  case isFalse =>
    split
    case isTrue  => exact ⟨rfl, rfl⟩
    case isFalse => split <;> exact ⟨rfl, rfl⟩

theorem exec_fields :
    (Run.exec call s cs).capacity = s.capacity ∧ (Run.exec call s cs).ttl = s.ttl := by
  induction cs generalizing s
  case nil => exact ⟨rfl, rfl⟩
  case cons c cs hi =>
    have ⟨hc, ht⟩ := call_fields (s := s) (c := c)
    exact ⟨hi.1.trans hc, hi.2.trans ht⟩

theorem Tracks.exec (h : Tracks cs log s) (hc : 0 < s.capacity) :
    Tracks (cs ++ ds) (s.inserted ds ++ log) (Run.exec Set.call s ds) := by
  induction ds generalizing s cs log
  case nil => simpa [inserted] using h
  case cons c ds hi =>
    have hs : 0 < (s.call c).capacity := by rwa [call_fields.1]
    have := hi (h.call (c := c) hc) hs
    simpa [inserted] using this

theorem new_of_pos (hc : 1 ≤ capacity) :
    Set.new capacity ttl =
      { capacity := capacity.toNat, ttl := ttl,
        ring := List.replicate capacity.toNat Key.zero } := by
  have : ¬capacity ≤ 0 := by omega
  simp [Set.new, this]

theorem after_capacity (hc : 1 ≤ capacity) : (after capacity ttl cs).capacity = capacity.toNat := by
  rw [after, exec_fields.1, new_of_pos hc]

theorem after_ttl (hc : 1 ≤ capacity) : (after capacity ttl cs).ttl = ttl := by
  rw [after, exec_fields.2, new_of_pos hc]

theorem Tracks.new (hc : 1 ≤ capacity) : Tracks [] [] (.new capacity ttl) := by
  rw [new_of_pos hc]
  exact ⟨.empty List.length_replicate, fun k => iff_of_false (AList.notMem_empty k) id,
    fun _ _ h => nomatch h⟩

theorem tracks_after (hc : 1 ≤ capacity) :
    Tracks cs ((Set.new capacity ttl).inserted cs) (after capacity ttl cs) := by
  have hpos : 0 < (Set.new capacity ttl).capacity := by
    rw [new_of_pos hc]
    dsimp only
    omega
  simpa [after] using (Tracks.new hc).exec hpos

-- The calls `cs`, `i` and `ds` to a fresh set, and then the call `q`. The key was inserted last by
-- `i`, fewer than `capacity` others were inserted since, and its latest call is at most `ttl` ago.
structure Promised (capacity : Int) (ttl : Duration) (cs : List Call) (i : Call) (ds : List Call)
    (q : Call) : Prop where
  clock  : (cs ++ i :: ds ++ [q]).Pairwise (·.now ≤ ·.now)
  key    : i.key = q.key
  insert : (after capacity ttl cs).answers i = false
  last   : q.key ∉ (after capacity ttl (cs ++ [i])).inserted ds
  few    : ((after capacity ttl (cs ++ [i])).inserted ds).length < capacity
  recent : ∀ t ∈ latest q.key (cs ++ i :: ds), q.now ≤ t + ttl

-- No insertion since `i` takes the slot of an insertion of the same key before `i`. Such a slot was
-- taken by `i` at the latest, or it is not taken yet.
def Spared (capacity : Int) (ttl : Duration) (cs : List Call) (i : Call) (ds : List Call) : Prop :=
  ∀ age : ℕ, ((Set.new capacity ttl).inserted cs)[age]? = some i.key →
    capacity ≤ age + 1 ∨ age + ((after capacity ttl (cs ++ [i])).inserted ds).length + 2 ≤ capacity

namespace Promised

-- The keys inserted so far, with those since the latest insertion of the key first.
theorem inserted_eq (hp : Promised capacity ttl cs i ds q) :
    (Set.new capacity ttl).inserted (cs ++ i :: ds) =
      (after capacity ttl (cs ++ [i])).inserted ds ++ q.key ::
        (Set.new capacity ttl).inserted cs := by
  have hi : (Run.exec call (Set.new capacity ttl) cs).answers i = false := hp.insert
  rw [inserted_append, inserted, if_neg (by simp [hi]), after_append, hp.key]
  simp [after]

theorem mem_iff (hp : Promised capacity ttl cs i ds q) (hc : 1 ≤ capacity) :
    q.key ∈ (after capacity ttl (cs ++ i :: ds)).entries ↔ Spared capacity ttl cs i ds := by
  have hfew := hp.few
  rw [(tracks_after hc).mem, after_capacity hc, hp.inserted_eq,
    Ring.Indexed.append_cons_iff hp.last (by omega), ← hp.key]
  refine forall_congr' fun age => imp_congr_right fun _ => ?_
  omega

-- The latest call is not after the call `q`.
theorem latest_le (hp : Promised capacity ttl cs i ds q) {t : Time}
    (ht : latest q.key (cs ++ i :: ds) = some t) : toInt64 t = t ∧ t ≤ q.now := by
  have ⟨c, hc, _, e⟩ := call_of_latest ht
  exact e ▸ ⟨c.range, (List.pairwise_append.mp hp.clock).2.2 c hc q List.mem_cons_self⟩

theorem exists_latest (hp : Promised capacity ttl cs i ds q) :
    ∃ t, latest q.key (cs ++ i :: ds) = some t :=
  hp.key ▸ latest_of_mem (List.mem_append_right cs List.mem_cons_self)

end Promised

-- The window answers true where it promises to if and only if the expiry is in the range of the
-- clock, and no second slot with the key was taken since the key was inserted.
theorem answers_iff_spared (hc : 1 ≤ capacity) (ht : 0 < ttl) (hr : toInt64 ttl = ttl)
    (hp : Promised capacity ttl cs i ds q) :
    (after capacity ttl (cs ++ i :: ds)).answers q = true ↔
      (∀ t ∈ latest q.key (cs ++ i :: ds), t + ttl < 2 ^ 63) ∧ Spared capacity ttl cs i ds := by
  have ⟨t, hl⟩ := hp.exists_latest
  have ⟨hrange, hle⟩ := hp.latest_le hl
  have hcap : (after capacity ttl (cs ++ i :: ds)).capacity ≠ 0 := by
    rw [after_capacity hc]
    omega
  have hexp : (after capacity ttl (cs ++ i :: ds)).expiry t = toInt64 (t + ttl) := by
    simp only [expiry, after_ttl hc, if_pos ht]
  rw [answers_iff hcap, (tracks_after hc).seen_iff hl, after_ttl hc, hexp, hp.mem_iff hc,
    or_iff_right ht.not_ge, le_toInt64_add_iff hrange hr ht hle (hp.recent t hl), and_comm, hl]
  simp

def keyOf (seq : SeqNum) : Key where
  groupIdx  := 1
  subtreeID := .zero
  seqNum    := seq

-- A window of two keys remembers a key next to another one.
theorem answers_beside_other :
    (after 2 10 [⟨100, keyOf 1, by decide⟩, ⟨101, keyOf 2, by decide⟩]).answers
      ⟨102, keyOf 1, by decide⟩ = true := by
  have hp : Promised 2 10 [] ⟨100, keyOf 1, by decide⟩ [⟨101, keyOf 2, by decide⟩]
      ⟨102, keyOf 1, by decide⟩ := by
    refine ⟨?_, ?_, ?_, ?_, ?_, ?_⟩ <;> decide +kernel
  refine (answers_iff_spared (by decide) (by decide) (by decide) hp).mpr ⟨by decide +kernel, ?_⟩
  exact fun age hk => nomatch hk

-- A key that expired and was inserted again has both slots of the window. The next insertion takes
-- the older one, and with it the entry that the two share.
theorem reinserted_not_answers :
    Promised 2 10 [⟨100, keyOf 1, by decide⟩] ⟨200, keyOf 1, by decide⟩ [⟨201, keyOf 2, by decide⟩]
      ⟨202, keyOf 1, by decide⟩ ∧
    (after 2 10 [⟨100, keyOf 1, by decide⟩, ⟨200, keyOf 1, by decide⟩,
      ⟨201, keyOf 2, by decide⟩]).answers
      ⟨202, keyOf 1, by decide⟩ = false := by
  refine ⟨⟨?_, ?_, ?_, ?_, ?_, ?_⟩, ?_⟩ <;> decide +kernel

-- What a set of the given capacity holds at any time.
structure Bounded (capacity : Int) (s : Set) : Prop where
  size : s.entries.size ≤ capacity.toNat
  ring : s.ring.length = capacity.toNat
  slot : ∀ k ∈ s.entries, k ∈ s.ring.take s.count
  head : s.head < capacity ∨ capacity ≤ 0 ∧ s.head = 0
  len  : s.len ≤ capacity.toNat

theorem Tracks.bounded (h : Tracks cs log s) (hc : 1 ≤ capacity)
    (hs : s.capacity = capacity.toNat) : Bounded capacity s := by
  have hpos : 0 < s.capacity := by omega
  have hslot : ∀ k ∈ s.entries, k ∈ s.ring.take s.count := by
    intro k hk
    exact h.ring.mem_slots (Ring.Indexed.mem_take hpos ((h.mem k).mp hk))
  constructor
  case size =>
    rw [AList.size_eq_length_keys]
    have hle := (s.entries.keys_nodup.subperm fun k hk => hslot k (AList.mem_keys.mpr hk)).length_le
    have := h.ring.count_le
    rw [List.length_take] at hle
    omega
  case ring => exact h.ring.length.trans hs
  case slot => exact hslot
  case head =>
    have := h.ring.head_lt hpos
    omega
  case len  => exact h.ring.count_le.trans hs.le

-- A set without capacity stays as it is.
theorem after_of_nonpos (hc : capacity ≤ 0) :
    after capacity ttl cs = { capacity := 0, ttl := 0, ring := [] } := by
  have hnew : Set.new capacity ttl = { capacity := 0, ttl := 0, ring := [] } := if_pos hc
  rw [after, hnew]
  induction cs
  case nil          => rfl
  case cons c cs hi => exact hi

theorem latest_of_answers (hc : 1 ≤ capacity) (h : (after capacity ttl cs).answers c = true) :
    ∃ t, latest c.key cs = some t ∧ (0 < ttl → c.now ≤ t + ttl) := by
  have htracks : Tracks cs _ (after capacity ttl cs) := tracks_after hc
  obtain ⟨hseen, _⟩ := seen_of_answers h
  obtain ⟨exp, hexp⟩ := AList.mem_iff_lookup.mp (mem_of_seen hseen)
  obtain ⟨t, hl, _⟩ := htracks.expiry _ exp hexp
  refine ⟨t, hl, ?_⟩
  intro hpos
  obtain ⟨_, hlive⟩ := (htracks.seen_iff hl).mp hseen
  rw [after_ttl hc, or_iff_right hpos.not_ge] at hlive
  simp only [expiry, after_ttl hc, if_pos hpos] at hlive
  obtain ⟨d, _, _, e⟩ := call_of_latest hl
  obtain ⟨hlow, _⟩ := toInt64_range (e ▸ d.range)
  exact hlive.trans (toInt64_le (hlow.trans (Int.le_add_of_nonneg_right hpos.le)))

-- A key is a duplicate only if it was in a call at most `ttl` ago, and the set stays within its
-- capacity.
theorem answers_latest_and_bounded :
    ((after capacity ttl cs).answers c = true →
      ∃ t, latest c.key cs = some t ∧ (0 < ttl → c.now ≤ t + ttl)) ∧
    Bounded capacity (after capacity ttl cs) := by
  by_cases hc : 1 ≤ capacity
  case pos => exact ⟨latest_of_answers hc, (tracks_after hc).bounded hc (after_capacity hc)⟩
  case neg =>
    rw [after_of_nonpos (by omega)]
    refine ⟨fun h => (Bool.false_ne_true h).elim, ?_⟩
    constructor
    case size => exact Nat.zero_le _
    case ring => simp only [List.length_nil]; omega
    case slot => exact fun k hk => (AList.notMem_empty k hk).elim
    case head => exact .inr ⟨by omega, rfl⟩
    case len  => exact Nat.zero_le _

end Set
end Dedup
