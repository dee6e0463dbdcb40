import ShardListener.Worker.Theorems.Coverage

open Numbering

namespace Worker

variable {wire : Wire} {cfg : Settings} {env : Env} {w w' : Worker} {b : Bundle} {j : Job}
variable {js : List Job}
variable {T : Time → Prop} {n : ℕ} {k : Dedup.Key} {raw : Bytes} {split : Bundle → List Bundle}

-- The worker has a dedup set, which suffices for `n` more deliveries at the times in `T`.
def Ready (T : Time → Prop) (n : ℕ) (w : Worker) : Prop :=
  ∃ s, w.dedupSet = some s ∧ s.Ample T n

-- The dedup set remembers the key.
def Knows (w : Worker) (k : Dedup.Key) : Prop :=
  ∃ s ∈ w.dedupSet, k ∈ s.entries

-- The bundle is stamped and passes the filter.
def Passes (cfg : Settings) (b : Bundle) : Prop :=
  b.seqNum ≠ 0 ∧ cfg.filt.deny b.groupIdx (bundleProbe b) = none

theorem granted_iff (ht : cfg.txDedup = false) :
    Granted cfg env b ↔ cfg.filt.deny b.groupIdx (bundleProbe b) = none := by
  simp [Granted, ht]

theorem knows_of_deliver (h : (w.deliver wire cfg env j).Knows k) :
    w.Knows k ∨ k = dedupKey j.bundle := by
  have ⟨s', hs', hk⟩ := h
  have ⟨s, hs, hm⟩ := dedupSet_of_deliver hs'
  exact (hm k hk).imp_left fun hk => ⟨s, hs, hk⟩

-- A delivery uses up room for one key at most, and no key is forgotten.
theorem Ready.deliver (hr : w.Ready T (n + 1)) (ht : T env.instant.now) :
    (w.deliver wire cfg env j).Ready T n := by
  have ⟨s, hs, ha⟩ := hr
  cases dedupSet_deliver_or hs
  case inl e => exact ⟨s, e, ha.of_succ⟩
  case inr e => exact ⟨_, e, ha.seenAndAdd ht⟩

theorem Ready.knows_deliver (hr : w.Ready T (n + 1)) (hk : w.Knows k) :
    (w.deliver wire cfg env j).Knows k := by
  have ⟨s, hs, ha⟩ := hr
  have ⟨s', hs', hk⟩ := hk
  cases hs.symm.trans hs'
  cases dedupSet_deliver_or hs
  case inl e => exact ⟨s, e, hk⟩
  case inr e =>
    refine ⟨_, e, ?_⟩
    rw [ha.seenAndAdd_entries]
    exact (AList.mem_insert _).mpr (.inr hk)

-- Without a cross-listener store, a bundle is forwarded exactly if its key is new.
theorem Ready.forwards_iff (hr : w.Ready T (n + 1)) (ht : T env.instant.now) (hp : Passes cfg b)
    (hx : cfg.txDedup = false) : Forwards cfg env w b ↔ ¬w.Knows (dedupKey b) := by
  have ⟨s, hs, ha⟩ := hr
  have hn : (dedupKey b).seqNum ≠ 0 := hp.1
  have hk : w.Knows (dedupKey b) ↔ dedupKey b ∈ s.entries := by simp [Knows, hs]
  rw [hk, ← ha.seenAndAdd_fst ht, ← suppress_fst hs hn, Forwards, granted_iff hx]
  simp [hp.2]

theorem Ready.knows_self (hr : w.Ready T (n + 1)) (hp : Passes cfg j.bundle)
    (hx : cfg.txDedup = false) : (w.deliver wire cfg env j).Knows (dedupKey j.bundle) := by
  have ⟨s, hs, ha⟩ := hr
  have hn : (dedupKey j.bundle).seqNum ≠ 0 := hp.1
  have hg : Granted cfg env j.bundle := (granted_iff hx).mpr hp.2
  refine ⟨_, (dedupSet_deliver.trans (if_pos hg)).trans (suppress_deduplicates hs hn).dedupSet, ?_⟩
  rw [ha.seenAndAdd_entries]
  exact (AList.mem_insert _).mpr (.inl rfl)

-- The deliveries for one datagram.

theorem Ready.deliverAll (hr : w.Ready T (js.length + n)) (ht : T env.instant.now) :
    (js.foldl (Worker.deliver wire cfg env) w).Ready T n := by
  induction js generalizing w
  case nil => simpa using hr
  case cons j js hi =>
    rw [List.length_cons, Nat.add_right_comm] at hr
    exact hi (hr.deliver ht)

theorem Ready.knows_deliverAll (hr : w.Ready T (js.length + n)) (ht : T env.instant.now)
    (hk : w.Knows k) : (js.foldl (Worker.deliver wire cfg env) w).Knows k := by
  induction js generalizing w
  case nil => exact hk
  case cons j js hi =>
    rw [List.length_cons, Nat.add_right_comm] at hr
    exact hi (hr.deliver ht) (hr.knows_deliver hk)

theorem knows_of_deliverAll (hk : (js.foldl (Worker.deliver wire cfg env) w).Knows k) :
    w.Knows k ∨ ∃ j ∈ js, k = dedupKey j.bundle := by
  induction js generalizing w
  case nil => exact .inl hk
  case cons j js hi =>
    rcases hi hk with hk | ⟨i, hi, e⟩
    case inr => exact .inr ⟨i, List.mem_cons_of_mem _ hi, e⟩
    case inl => exact (knows_of_deliver hk).imp_right fun e => ⟨j, List.mem_cons_self, e⟩

-- Deliveries under new and different keys are all forwarded.
theorem Ready.handed_deliverAll (hr : w.Ready T (js.length + n)) (ht : T env.instant.now)
    (hw : wire.Coalesces) (hx : cfg.txDedup = false)
    (hj : ∀ j ∈ js, j.Encodable wire ∧ Passes cfg j.bundle ∧ ¬w.Knows (dedupKey j.bundle))
    (hn : (js.map (dedupKey ·.bundle)).Nodup) :
    (js.foldl (Worker.deliver wire cfg env) w).handed =
      w.handed ++ js.flatMap (·.bundle.members) := by
  induction js generalizing w
  case nil => simp
  case cons j js hi =>
    rw [List.length_cons, Nat.add_right_comm] at hr
    have ⟨⟨he, hp, hk⟩, hjs⟩ := List.forall_mem_cons.mp hj
    have ⟨hm, hn⟩ := List.nodup_cons.mp hn
    have hjs' : ∀ i ∈ js, i.Encodable wire ∧ Passes cfg i.bundle ∧
        ¬(w.deliver wire cfg env j).Knows (dedupKey i.bundle) := by
      intro i hi
      have ⟨he, hp, hk⟩ := hjs i hi
      refine ⟨he, hp, fun hk' => ?_⟩
      cases knows_of_deliver hk'
      case inl h => exact hk h
      case inr e => exact hm (List.mem_map.mpr ⟨i, hi, e⟩)
    rw [List.foldl_cons, hi (hr.deliver ht) hjs' hn, handed_deliver hw he,
      if_pos ((hr.forwards_iff ht hp hx).mpr hk), List.flatMap_cons, List.append_assoc]

theorem Alike.ready (ha : Alike w w') (hr : w'.Ready T n) : w.Ready T n := by
  have ⟨s, hs, h⟩ := hr
  exact ⟨s, ha.dedupSet.trans hs, h⟩

theorem Alike.knows_iff (ha : Alike w w') : w.Knows k ↔ w'.Knows k := by
  simp only [Knows, ha.dedupSet]

-- The datagrams that one worker receives.

def receive (wire : Wire) (cfg : Settings) (w : Worker) (x : Env × Bytes) : Worker :=
  w.processBundle wire cfg x.1 x.2

-- What is handed over on the arrivals of one of them.
def handedFor (wire : Wire) (cfg : Settings) (raw : Bytes) :
    Worker → List (Env × Bytes) → List Bytes
  | _, []      => []
  | w, x :: xs =>
    let w' := w.receive wire cfg x
    (if x.2 = raw then w'.handed.drop w.handed.length else []) ++ handedFor wire cfg raw w' xs

variable {x : Env × Bytes} {xs ys : List (Env × Bytes)}

theorem handedFor_append :
    handedFor wire cfg raw w (xs ++ ys) =
      handedFor wire cfg raw w xs ++
        handedFor wire cfg raw (Run.exec (receive wire cfg) w xs) ys := by
  induction xs generalizing w
  case nil          => rfl
  case cons x xs hi => simp only [List.cons_append, handedFor, hi, Run.exec_cons, List.append_assoc]

theorem handedFor_of_not_mem (h : ∀ x ∈ xs, x.2 ≠ raw) : handedFor wire cfg raw w xs = [] := by
  induction xs generalizing w
  case nil => rfl
  case cons x xs hi =>
    have ⟨hx, h⟩ := List.forall_mem_cons.mp h
    simp only [handedFor, if_neg hx, hi h, List.append_nil]

theorem rebucketed_exec :
    (Run.exec (receive wire cfg) w xs).rebucketed =
      w.rebucketed ++ foreigns wire cfg (xs.map Prod.snd) := by
  induction xs generalizing w
  case nil => simp [foreigns]
  case cons x xs hi =>
    rw [Run.exec_cons, hi, receive, rebucketed_processBundle, List.append_assoc]
    simp only [foreigns, ← List.filter_append, ← List.filterMap_append, List.singleton_append,
      List.map_cons]

-- What the deliveries of `xs` come to, given the history of the re-bucketer.
def load (wire : Wire) (cfg : Settings) (w : Worker) (xs : List (Env × Bytes)) : List Job :=
  agenda wire cfg w.rebucketed (xs.map Prod.snd)

theorem load_cons :
    load wire cfg w (x :: xs) = load wire cfg w [x] ++ load wire cfg (w.receive wire cfg x) xs := by
  simp only [load, List.map_cons, List.map_nil, receive, rebucketed_processBundle]
  exact agenda_cons

theorem load_append :
    load wire cfg w (xs ++ ys) =
      load wire cfg w xs ++ load wire cfg (Run.exec (receive wire cfg) w xs) ys := by
  simp only [load, List.map_append, rebucketed_exec]
  exact agenda_append

theorem alike_receive :
    Alike (w.receive wire cfg x) ((load wire cfg w [x]).foldl (Worker.deliver wire cfg x.1) w) :=
  alike_processBundle

theorem Ready.receive (hr : w.Ready T ((load wire cfg w [x]).length + n)) (ht : T x.1.instant.now) :
    (w.receive wire cfg x).Ready T n :=
  alike_receive.ready (hr.deliverAll ht)

theorem knows_of_receive (hk : (w.receive wire cfg x).Knows k) :
    w.Knows k ∨ ∃ j ∈ load wire cfg w [x], k = dedupKey j.bundle :=
  knows_of_deliverAll (alike_receive.knows_iff.mp hk)

theorem Ready.exec (hr : w.Ready T ((load wire cfg w xs).length + n))
    (ht : ∀ x ∈ xs, T x.1.instant.now) : (Run.exec (Worker.receive wire cfg) w xs).Ready T n := by
  induction xs generalizing w
  case nil => simpa [load, agenda] using hr
  case cons x xs hi =>
    obtain ⟨hx, ht⟩ := List.forall_mem_cons.mp ht
    rw [load_cons, List.length_append, Nat.add_assoc] at hr
    exact hi (hr.receive hx) ht

theorem knows_of_exec (hk : (Run.exec (receive wire cfg) w xs).Knows k) :
    w.Knows k ∨ ∃ j ∈ load wire cfg w xs, k = dedupKey j.bundle := by
  induction xs generalizing w
  case nil => exact .inl hk
  case cons x xs hi =>
    rw [load_cons]
    rcases hi hk with hk | ⟨j, hj, e⟩
    case inr => exact .inr ⟨j, List.mem_append_right _ hj, e⟩
    case inl =>
      refine (knows_of_receive hk).imp_right ?_
      exact fun ⟨j, hj, e⟩ => ⟨j, List.mem_append_left _ hj, e⟩

-- The deliveries for a datagram that is a bundle.
section Arrival

variable (hb : wire.decodeBundle raw = some b)
include hb

theorem load_of_local (hf : ¬Foreign cfg b) :
    load wire cfg w [(env, raw)] = [⟨b, some raw, true⟩] := by
  simp [load, agenda_cons_neg hb hf, agenda]

theorem alike_receive_of_local (hf : ¬Foreign cfg b) :
    Alike (w.receive wire cfg (env, raw)) (w.deliver wire cfg env ⟨b, some raw, true⟩) := by
  have ha : Alike (w.receive wire cfg (env, raw)) _ := alike_receive
  rwa [load_of_local hb hf] at ha

theorem load_of_foreign (hr : wire.Rebuckets split) (hf : Foreign cfg b) :
    load wire cfg w [(env, raw)] =
      (number Bundle.hashKey ((w.rebucketed.flatMap split).map Bundle.hashKey) (split b)).map
        (⟨.stamped ·, none, false⟩) := by
  simp [load, agenda_cons_pos hb hf, agenda, hr.rebucket, Function.comp_def]

theorem members_load (hr : wire.Rebuckets split) :
    ((load wire cfg w [(env, raw)]).flatMap (·.bundle.members)).Perm b.members := by
  by_cases hf : Foreign cfg b
  case neg => simp [load_of_local hb hf]
  case pos =>
    let cs := number Bundle.hashKey ((w.rebucketed.flatMap split).map Bundle.hashKey) (split b)
    have hm : ((cs.map Prod.fst).flatMap Bundle.members).Perm b.members := by
      rw [map_fst_number]
      exact hr.members b
    rw [List.flatMap_map] at hm
    rw [load_of_foreign hb hr hf, List.flatMap_map]
    exact hm

-- Children of one group and subtree have different numbers.
theorem nodup_load (hr : wire.Rebuckets split) :
    ((load wire cfg w [(env, raw)]).map (dedupKey ·.bundle)).Nodup := by
  by_cases hf : Foreign cfg b
  case neg => simp [load_of_local hb hf]
  case pos =>
    rw [load_of_foreign hb hr hf, List.map_map]
    refine List.pairwise_map.mpr (pairwise_number.imp_of_mem ?_)
    intro c c' hc hc' hlt e
    have ⟨hg, hs, hn⟩ := Dedup.Key.mk.inj e
    have hk := hr.flow b c.1 (mem_of_mem_number hc) c'.1 (mem_of_mem_number hc') hg hs
    exact (hlt hk).ne hn

theorem passes_load (hr : wire.Rebuckets split) (hn : b.seqNum ≠ 0)
    (hd : ∀ c ∈ units cfg split b, cfg.filt.deny c.groupIdx (bundleProbe c) = none) :
    ∀ j ∈ load wire cfg w [(env, raw)], Passes cfg j.bundle := by
  intro j hj
  by_cases hf : Foreign cfg b
  case neg =>
    rw [load_of_local hb hf, List.mem_singleton] at hj
    subst hj
    exact ⟨hn, hd b (by simp [units, hf])⟩
  case pos =>
    rw [load_of_foreign hb hr hf] at hj
    obtain ⟨c, hc, e⟩ := List.mem_map.mp hj
    subst e
    refine ⟨?_, hd c.1 (by simpa [units, hf] using mem_of_mem_number hc)⟩
    exact (Nat.zero_le _).trans_lt (count_lt_of_mem hc) |>.ne'

end Arrival

-- Once its key is known, a bundle of the local generation is not forwarded again.
theorem handedFor_of_knows (hr : w.Ready T (load wire cfg w xs).length)
    (ht : ∀ x ∈ xs, T x.1.instant.now) (hw : wire.Coalesces) (hx : cfg.txDedup = false)
    (hb : wire.decodeBundle raw = some b) (hf : ¬Foreign cfg b) (hp : Passes cfg b)
    (hk : w.Knows (dedupKey b)) : handedFor wire cfg raw w xs = [] := by
  induction xs generalizing w
  case nil => rfl
  case cons x xs hi =>
    have ⟨htx, ht⟩ := List.forall_mem_cons.mp ht
    rw [load_cons, List.length_append] at hr
    have hk' : (w.receive wire cfg x).Knows (dedupKey b) :=
      alike_receive.knows_iff.mpr (hr.knows_deliverAll htx hk)
    simp only [handedFor, hi (hr.receive htx) ht hk', List.append_nil]
    split
    case isFalse => rfl
    case isTrue e =>
      subst e
      have hl : load wire cfg w [x] = [⟨b, some x.2, true⟩] := load_of_local hb hf
      rw [hl, List.length_singleton, Nat.add_comm] at hr
      have hh : (w.receive wire cfg x).handed = _ := (alike_receive_of_local hb hf).handed
      have he : Job.Encodable wire ⟨b, some x.2, true⟩ := rfl
      rw [hh, handed_deliver hw he,
        if_neg fun h => (hr.forwards_iff htx hp hx).mp h hk, List.append_nil, List.drop_length]

-- The members are handed over on the first arrival, and not on a later one.
theorem handedFor_first (hr₁ : w.Ready T (load wire cfg w ((env, raw) :: ys)).length)
    (ht : ∀ y ∈ (env, raw) :: ys, T y.1.instant.now) (hw : wire.Coalesces)
    (hr : wire.Rebuckets split) (hx : cfg.txDedup = false) (hb : wire.decodeBundle raw = some b)
    (hn : b.seqNum ≠ 0)
    (hd : ∀ c ∈ units cfg split b, cfg.filt.deny c.groupIdx (bundleProbe c) = none)
    (hg : ¬Foreign cfg b ∨ ∀ y ∈ ys, y.2 ≠ raw)
    (hk : ∀ j ∈ load wire cfg w [(env, raw)], ¬w.Knows (dedupKey j.bundle)) :
    (handedFor wire cfg raw w ((env, raw) :: ys)).Perm b.members := by
  have ⟨htx, ht⟩ := List.forall_mem_cons.mp ht
  rw [load_cons, List.length_append] at hr₁
  have hjobs : ∀ j ∈ load wire cfg w [(env, raw)],
      j.Encodable wire ∧ Passes cfg j.bundle ∧ ¬w.Knows (dedupKey j.bundle) := fun j hj =>
    ⟨encodable_of_mem_agenda hw hj, passes_load hb hr hn hd j hj, hk j hj⟩
  have hfirst : (w.receive wire cfg (env, raw)).handed =
      w.handed ++ (load wire cfg w [(env, raw)]).flatMap (·.bundle.members) :=
    alike_receive.handed.trans (hr₁.handed_deliverAll htx hw hx hjobs (nodup_load hb hr))
  have hlast : handedFor wire cfg raw (w.receive wire cfg (env, raw)) ys = [] := by
    cases hg
    case inr hg => exact handedFor_of_not_mem hg
    case inl hf =>
      have hp : Passes cfg b := ⟨hn, hd b (by simp [units, hf])⟩
      refine handedFor_of_knows (hr₁.receive htx) ht hw hx hb hf hp ?_
      rw [load_of_local hb hf, List.length_singleton, Nat.add_comm] at hr₁
      exact (alike_receive_of_local hb hf).knows_iff.mpr (hr₁.knows_self hp hx)
  simp only [handedFor, if_true, hlast, List.append_nil, hfirst, List.drop_left]
  exact members_load hb hr

-- Every member of a stamped bundle that passes the filter is handed over once, however often its
-- datagram arrives, if the bundle is of the local generation or arrives only once, and if no
-- delivery before the first arrival is remembered under its key.
theorem handedFor_perm {capacity : Int} {ttl : Duration} (hw : wire.Coalesces)
    (hr : wire.Rebuckets split) (hx : cfg.txDedup = false)
    (hs : w.dedupSet = some (.new capacity ttl))
    (hc : (load wire cfg w (xs ++ (env, raw) :: ys)).length ≤ capacity)
    (ht : ∀ x ∈ xs ++ (env, raw) :: ys, ∀ y ∈ xs ++ (env, raw) :: ys,
      ttl ≤ 0 ∨ y.1.instant.now ≤ toInt64 (x.1.instant.now + ttl))
    (hb : wire.decodeBundle raw = some b) (hn : b.seqNum ≠ 0) (hpre : ∀ x ∈ xs, x.2 ≠ raw)
    (hd : ∀ c ∈ units cfg split b, cfg.filt.deny c.groupIdx (bundleProbe c) = none)
    (hg : ¬Foreign cfg b ∨ ∀ y ∈ ys, y.2 ≠ raw)
    (hk : ∀ j ∈ load wire cfg w xs,
      ∀ j' ∈ load wire cfg (Run.exec (receive wire cfg) w xs) [(env, raw)],
        dedupKey j.bundle ≠ dedupKey j'.bundle) :
    (handedFor wire cfg raw w (xs ++ (env, raw) :: ys)).Perm b.members := by
  let T : Time → Prop := fun t => ∃ x ∈ xs ++ (env, raw) :: ys, x.1.instant.now = t
  have hT : ∀ x ∈ xs ++ (env, raw) :: ys, T x.1.instant.now := fun x h => ⟨x, h, rfl⟩
  have hready : w.Ready T (load wire cfg w (xs ++ (env, raw) :: ys)).length :=
    ⟨_, hs, .new hc fun _ _ ⟨x, h, e⟩ ⟨y, h', e'⟩ => e ▸ e' ▸ ht x h y h'⟩
  rw [load_append, List.length_append] at hready
  have hnew : ∀ j ∈ load wire cfg (Run.exec (receive wire cfg) w xs) [(env, raw)],
      ¬(Run.exec (receive wire cfg) w xs).Knows (dedupKey j.bundle) := by
    intro j hj hk'
    rcases knows_of_exec hk' with ⟨s, hs', hm⟩ | ⟨i, hi, e⟩
    case inl =>
      cases hs.symm.trans hs'
      exact Dedup.Set.not_mem_new hm
    case inr => exact hk i hi j hj e.symm
  rw [handedFor_append, handedFor_of_not_mem hpre, List.nil_append]
  exact handedFor_first (hready.exec fun x h => hT x (List.mem_append_left _ h))
    (fun y h => hT y (List.mem_append_right _ h)) hw hr hx hb hn hd hg hnew

-- A worker that remembers 8 bundles for good.
def caching : Worker where
  dedupSet := some (.new 8 0)

-- A datagram with the bundle `seq` of a flow.
def bundleOf (gen flow seq : UInt8) : Env × Bytes :=
  (Env.blank, [gen, flow, seq, 10 + seq])

-- A bundle of the local generation arrives three times.
theorem handedFor_local :
    (handedFor bundleWire Settings.blank [0, 7, 1, 11] caching
      ([bundleOf 0 8 2] ++ bundleOf 0 7 1 :: [bundleOf 0 7 1, bundleOf 0 8 3, bundleOf 0 7 1])).Perm
        [[11]] :=
  handedFor_perm bundleWire_coalesces bundleWire_rebuckets rfl rfl (by decide +kernel)
    (by decide +kernel)
    rfl (by decide) (by decide) (by decide) (.inl (by decide)) (by decide +kernel)

-- A bundle of another generation arrives twice. Its child has another number on the second arrival.
theorem handedFor_foreign_not_perm :
    bundleWire.Coalesces ∧ bundleWire.Rebuckets bundleChildren ∧
      ¬(handedFor bundleWire Settings.blank [1, 7, 1, 11] caching
        [bundleOf 1 7 1, bundleOf 1 7 1]).Perm [[11]] :=
  ⟨bundleWire_coalesces, bundleWire_rebuckets, by decide +kernel⟩

end Worker
