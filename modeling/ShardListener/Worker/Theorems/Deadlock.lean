import ShardListener.Worker.Theorems.Locking

namespace Wiring

open Prog Code

def Role.worker : Role → Option Nat
  | .receiver w | .processor w | .ticker w | .teeSender w => some w
  | .sweeper | .dispatcher | .nack                        => none

-- Each channel is closed by one goroutine.
def Channel.closer : Channel → Option Role
  | .queue w | .teeQueue w => some (.receiver w)
  | .done w                => some (.processor w)
  | .teeDone w             => some (.teeSender w)
  | .nackQueue | .sem      => none

namespace Config

variable (cfg : Config)

-- What a goroutine may do with the channels.
def May : Role → Act Mutex Channel → Prop
  | _, .lock _ | _, .unlock _ | _, .pause => True
  | _, .trySend c | _, .tryRecv c         => c ≠ .sem
  | r, .close c                           => c.closer = some r
  | .receiver w, .send c                  => c = .queue w ∧ 0 < cfg.recvQueue w
  | .dispatcher, .send c                  => c = .sem
  | .receiver w, .recv c                  =>
    c = .done w ∧ 0 < cfg.recvQueue w ∨ c = .teeDone w ∧ cfg.tee w
  | .processor w, .recv c                 => c = .queue w ∧ 0 < cfg.recvQueue w
  | .teeSender w, .recv c                 => c = .teeQueue w ∧ cfg.tee w
  | .nack, .recv c                        => c = .sem
  | _, _                                  => False

-- The places of the dispatch loop.
def dispatching : List (Code Mutex Channel) :=
  let start := spawn (seq (Tracker.sendNACK cfg.workers) (act (.recv .sem)))
  let limit := sendOr .sem start
  let take  := recvOr .nackQueue limit
  [[], [loop take], [take, loop take], [limit, loop take], [start, loop take]]

-- What a receiver does before and after it closes its queue,
def Feeds (w : Nat) (a : Act Mutex Channel) : Prop := a = .pause ∨ a = .send (.queue w)

def Fed (w : Nat) (a : Act Mutex Channel) : Prop := a ≠ .close (.queue w) ∧ a ≠ .send (.queue w)

-- and before and after it closes the queue of its tee.
def Tees (w : Nat) (a : Act Mutex Channel) : Prop :=
  a ≠ .close (.teeQueue w) ∧ a ≠ .recv (.teeDone w)

def Teed (w : Nat) (a : Act Mutex Channel) : Prop := a ≠ .close (.teeQueue w)

-- How far a goroutine is with the channels that it closes.
def Shape : Role → Sync Mutex Channel → Code Mutex Channel → Prop
  | .receiver w, s, t =>
    (0 < cfg.recvQueue w → t.Closes (.queue w) (Feeds w) (Fed w) s) ∧
    (cfg.tee w → t.Closes (.teeQueue w) (Tees w) (Teed w) s)
  | .processor w, s, t  =>
    0 < cfg.recvQueue w → t.Drains (.queue w) (.done w) Local (handleBatch w) s
  | .teeSender w, s, t  => cfg.tee w → t.Drains (.teeQueue w) (.teeDone w) Local (fillBatch w) s
  | .dispatcher, _, t   => t ∈ cfg.dispatching
  | _, _, _             => True

structure Placed (s : Sync Mutex Channel) (i : Nat) (t : Code Mutex Channel) : Prop where
  may   : t.All (cfg.May (cfg.role i)) (cfg.May .nack)
  shape : cfg.Shape (cfg.role i) s t

variable {cfg} {r r' : Role} {i j k w : Nat} {s s' : Sync Mutex Channel} {t u : Code Mutex Channel}
variable {c : Channel}

theorem mem_roles :
    r ∈ cfg.roles ↔ (∃ w < cfg.workers, r.worker = some w) ∨ r = .sweeper ∨ r = .dispatcher := by
  cases r <;> simp [roles, Role.worker]

theorem roles_nodup : cfg.roles.Nodup := by
  refine List.Nodup.append (List.nodup_flatMap.mpr ⟨fun w _ => by simp, ?_⟩) (by simp) ?_
  case refine_1 =>
    refine List.nodup_range.imp fun hne => ?_
    simp [Function.onFun, List.Disjoint, hne]
  case refine_2 => simp [List.disjoint_cons_right]

theorem getElem?_roles (h : cfg.role i ≠ .nack) : cfg.roles[i]? = some (cfg.role i) := by
  cases hr : cfg.roles[i]?
  case none => exact absurd (by simp [role, hr]) h
  case some => simp [role, hr]

theorem role_inj (h : cfg.role i = cfg.role j) (hn : cfg.role i ≠ .nack) : i = j := by
  have hi := getElem?_roles hn
  have hj := getElem?_roles (h ▸ hn)
  exact (List.getElem?_inj (List.getElem?_eq_some_iff.mp hi).1 roles_nodup).mp (by rw [hi, hj, h])

-- The goroutines of a worker are all there.
theorem exists_colleague (h : (cfg.role i).worker = some w) (hr : r.worker = some w) :
    ∃ j < cfg.roles.length, cfg.role j = r := by
  have hn : cfg.role i ≠ .nack := by
    intro e
    rw [e] at h
    cases h
  have hm := List.mem_of_getElem? (getElem?_roles hn)
  have hw : w < cfg.workers := by
    match mem_roles.mp hm with
    | .inl ⟨v, hv, he⟩ => exact Option.some.inj (he.symm.trans h) ▸ hv
    | .inr (.inl e)    => rw [e] at h; cases h
    | .inr (.inr e)    => rw [e] at h; cases h
  have ⟨j, hj⟩ := List.mem_iff_getElem?.mp (mem_roles.mpr (.inl ⟨w, hw, hr⟩))
  exact ⟨j, (List.getElem?_eq_some_iff.mp hj).1, by simp [role, hj]⟩

theorem role_of_le (h : cfg.roles.length ≤ i) : cfg.role i = .nack := by
  simp [role, h]

theorem May.of_local {a : Act Mutex Channel} (h : Local a) : cfg.May r a := by
  cases a
  case lock | unlock | pause => simp [May]
  case trySend | tryRecv     => simpa [May] using (show _ ≠ _ from h)
  case send | recv | close   => exact h.elim

theorem may_of_callable {H : List Mutex} {p : Body} (h : Callable H p) : p.All (cfg.May r) Local :=
  h.all.mono (fun _ => .of_local) fun _ => id

theorem dispatching_next (h : t ∈ cfg.dispatching) : (t.next k i s).1 ∈ cfg.dispatching := by
  simp only [dispatching, List.mem_cons, List.not_mem_nil, or_false] at h ⊢
  rcases h with rfl | rfl | rfl | rfl | rfl
  case inl => exact .inl rfl
  case inr.inl =>
    simp only [Code.next]
    split
    case isTrue  => exact .inl rfl
    case isFalse => exact .inr (.inr (.inl rfl))
  case inr.inr.inl =>
    simp only [Code.next]
    split
    case isTrue  => exact .inr (.inl rfl)
    case isFalse =>
      split
      case isTrue  => exact .inr (.inr (.inr (.inl rfl)))
      case isFalse => exact .inr (.inr (.inl rfl))
  case inr.inr.inr.inl =>
    simp only [Code.next]
    split
    case isTrue  => exact .inr (.inl rfl)
    case isFalse =>
      split
      case isTrue  => exact .inr (.inr (.inr (.inr rfl)))
      case isFalse => exact .inr (.inr (.inr (.inl rfl)))
  case inr.inr.inr.inr => exact .inr (.inl rfl)

-- A goroutine of another role does not close what this one closes.
theorem Shape.congr (h : cfg.Shape r s t)
    (hc : ∀ c, c.closer = some r → (s'.chan c).closed = (s.chan c).closed)
    (hm : ∀ c, (s.chan c).closed = true → (s'.chan c).closed = true) : cfg.Shape r s' t := by
  cases r
  case receiver w  =>
    exact ⟨fun hq => (h.1 hq).congr (hc _ rfl), fun ht => (h.2 ht).congr (hc _ rfl)⟩
  case processor w => exact fun hq => (h hq).congr (hc _ rfl) (hm _)
  case teeSender w => exact fun ht => (h ht).congr (hc _ rfl) (hm _)
  case dispatcher  => exact h
  case ticker | sweeper | nack => trivial

theorem Shape.next (h : cfg.Shape r s t) : cfg.Shape r (t.next k i s).2 (t.next k i s).1 := by
  cases r
  case receiver w =>
    exact ⟨fun hq => (h.1 hq).next nofun fun h => h.1 rfl,
      fun ht => (h.2 ht).next (fun h => h.1 rfl) fun h => h rfl⟩
  case processor w => exact fun hq => (h hq).next handleBatch_callable.all id
  case teeSender w => exact fun ht => (h ht).next fillBatch_callable.all id
  case dispatcher  => exact dispatching_next h
  case ticker | sweeper | nack => trivial

theorem Placed.next (h : cfg.Placed s i t) : cfg.Placed (t.next k i s).2 i (t.next k i s).1 :=
  ⟨h.may.next, h.shape.next⟩

theorem Placed.frame (h : cfg.Placed s i t) (hu : cfg.Placed s j u) (hj : j ≠ i) :
    cfg.Placed (t.next k i s).2 j u := by
  refine ⟨hu.may,
    hu.shape.congr (fun c hc => closed_next h.may fun hm => hj ?_) fun _ => closed_of_closed⟩
  have he : cfg.role i = cfg.role j := Option.some.inj (hm.symm.trans hc)
  have hn : cfg.role j ≠ .nack := by
    intro e
    rw [e] at hc
    cases c <;> cases hc
  exact role_inj he.symm hn

theorem closeTee_all {P Q : Act Mutex Channel → Prop} (hl : P (.lock (.teeMu w)))
    (hu : P (.unlock (.teeMu w))) (hc : P (.close (.teeQueue w)))
    (hd : cfg.tee w → P (.recv (.teeDone w))) : (cfg.closeTee w).All P Q := by
  rw [closeTee]
  split
  case isFalse => exact .nil
  case isTrue h => exact .cons hl (.cons hc (.cons hu (.cons (hd h) .nil)))

theorem code_may (h : r ≠ .dispatcher) : (cfg.code r).All (cfg.May r) Local := by
  cases r
  case receiver w =>
    have ht : (cfg.closeTee w).All (cfg.May (.receiver w)) Local :=
      closeTee_all (by simp [May]) (by simp [May]) (by simp [May, Channel.closer]) (by simp [May])
    simp only [code]
    split
    case isTrue hq =>
      refine .cons ⟨by simp [Prog.All, May], .opt (by simp [Prog.All, May, hq])⟩
        (.cons ?_ (.cons ?_ ht))
      case refine_1 => simp [Prog.All, May, Channel.closer]
      case refine_2 => simp [Prog.All, May, hq]
    case isFalse =>
      exact .cons ⟨by simp [Prog.All, May],
        .opt (may_of_callable Worker.handleDatagram_callable)⟩ ht
  case processor w =>
    simp only [code]
    split
    case isFalse => exact .nil
    case isTrue hq =>
      refine .cons ⟨by simp [May, hq], may_of_callable handleBatch_callable⟩ (.cons ?_ .nil)
      simp [Prog.All, May, Channel.closer]
  case teeSender w =>
    simp only [code]
    split
    case isFalse => exact .nil
    case isTrue hq =>
      refine .cons ⟨by simp [May, hq], may_of_callable fillBatch_callable⟩ (.cons ?_ .nil)
      simp [Prog.All, May, Channel.closer]
  case ticker w   =>
    exact .cons ⟨by simp [Prog.All, May], .opt (may_of_callable Buffer.tick_callable)⟩ .nil
  case sweeper    => exact .cons (may_of_callable Tracker.gcLoop_callable) .nil
  case dispatcher => exact absurd rfl h
  case nack       => exact .nil

theorem dispatchLoop_may : (cfg.code .dispatcher).All (cfg.May .dispatcher) (cfg.May .nack) := by
  have hn : (Tracker.sendNACK cfg.workers).All (cfg.May .nack) (cfg.May .nack) :=
    Tracker.sendNACK_callable.all.mono (fun _ => .of_local) fun _ => .of_local
  exact .cons ⟨by simp [May], by simp [May], hn, by simp [Prog.All, May]⟩ nofun

theorem Feeds.tees {a : Act Mutex Channel} (h : Feeds w a) : Tees w a := by
  cases h
  case inl e => simp [Tees, e]
  case inr e => simp [Tees, e]

theorem tees_of_local {a : Act Mutex Channel} (h : Local a) : Tees w a := by
  cases a
  case close | recv => exact h.elim
  case lock | unlock | pause | send | trySend | tryRecv => simp [Tees]

theorem code_shape : cfg.Shape r cfg.start.shared (cfg.code r) := by
  cases r
  case receiver w =>
    have hl :
        (loop (seq (act .pause) (opt (act (.send (Channel.queue w))))) : Body).All
        (Feeds w) (Feeds w) :=
      ⟨.inl rfl, .opt (.inr rfl)⟩
    refine ⟨fun hq => ?_, fun ht => ?_⟩
    case refine_1 =>
      simp only [code, if_pos hq]
      have hd : (cfg.closeTee w).Only (Fed w) :=
        closeTee_all (by simp [Fed]) (by simp [Fed]) (by simp [Fed]) (by simp [Fed])
      exact .before (t := [_]) rfl (.cons hl .nil) (.cons (by simp [Prog.All, Fed]) hd)
    case refine_2 =>
      have hm : Only (Tees w) [act (.lock (.teeMu w))] := .cons (by simp [Prog.All, Tees]) .nil
      have hu : Only (Teed w) [act (.unlock (.teeMu w)), act (.recv (.teeDone w))] :=
        .cons (by simp [Prog.All, Teed]) (.cons (by simp [Prog.All, Teed]) .nil)
      simp only [code, closeTee, if_pos ht]
      split
      case isTrue =>
        have hl :
            (loop (seq (act .pause) (opt (act (.send (Channel.queue w))))) : Body).All
            (Tees w) (Tees w) :=
          hl.mono (fun _ => Feeds.tees) fun _ => Feeds.tees
        exact .before (t := [_, _, _, _]) rfl
          (.cons hl (.cons (by simp [Prog.All, Tees]) (.cons (by simp [Prog.All, Tees]) hm))) hu
      case isFalse =>
        have hd : (Worker.handleDatagram w).All (Tees w) (Tees w) :=
          Worker.handleDatagram_callable.all.mono (fun _ => tees_of_local) fun _ => tees_of_local
        exact .before (t := [_, _]) rfl (.cons ⟨by simp [Prog.All, Tees], .opt hd⟩ hm) hu
  case processor w =>
    intro hq
    simp only [code, if_pos hq]
    exact .within (t := []) rfl .nil
  case teeSender w =>
    intro ht
    simp only [code, if_pos ht]
    exact .within (t := []) rfl .nil
  case dispatcher => exact .tail _ (.head _)
  case ticker | sweeper | nack => trivial

theorem May.leaves {a : Act Mutex Channel} (h : cfg.May r a) (hd : r ≠ .dispatcher) :
    leaves .sem a := by
  cases a
  case send c =>
    cases r
    case receiver w => simp [Prog.leaves, h.1]
    case dispatcher => exact absurd rfl hd
    case processor | ticker | teeSender | sweeper | nack => exact h.elim
  case trySend c | tryRecv c =>
    have hc : c ≠ .sem := by simpa [May] using h
    simp [Prog.leaves, hc]
  case close c =>
    have hc : c ≠ .sem := by
      rintro rfl
      simp [May, Channel.closer] at h
    simp [Prog.leaves, hc]
  case lock | unlock | recv | pause => simp [Prog.leaves]

theorem May.not_recv_sem (hr : r ≠ .nack) : ¬cfg.May r (.recv .sem) := by
  cases r <;> simp_all [May]

theorem code_steady {p : Body} (h : p ∈ cfg.code r) : p.Steady .sem ∧ p.tokens .sem = 0 := by
  by_cases hd : r = .dispatcher
  case neg =>
    have hr : r ≠ .nack := by rintro rfl; cases h
    have hm : p.All (cfg.May r) (cfg.May r) :=
      (code_may hd p h).mono (fun _ => id) fun _ => .of_local
    exact steady_of_all hm (fun _ ha => ha.leaves hd) (May.not_recv_sem hr)
  case pos =>
    subst hd
    have hl : ∀ a, Local a → leaves .sem a :=
      fun a ha => (May.of_local ha : cfg.May .sweeper a).leaves nofun
    have ⟨hs, hn⟩ := steady_of_all (Tracker.sendNACK_callable (n := cfg.workers)).all hl id
    obtain rfl := List.mem_singleton.mp h
    have hr : leaves (L := Mutex) Channel.sem (.recv .sem) := by simp [leaves]
    exact ⟨⟨⟨nofun, ⟨⟨hs, hr⟩, by simp [Prog.tokens, hn]⟩, rfl⟩, rfl⟩, rfl⟩

theorem start_balanced : cfg.start.Balanced .sem := by
  refine .start rfl rfl fun t ht => ?_
  have ⟨_, _, he⟩ := List.mem_map.mp ht
  exact he ▸ fun _ => code_steady

theorem start_placed (h : cfg.start.threads[i]? = some t) : cfg.Placed cfg.start.shared i t := by
  obtain ⟨r, hr, rfl⟩ : ∃ r, cfg.roles[i]? = some r ∧ cfg.code r = t := by simpa [start] using h
  have he : cfg.role i = r := by simp [role, hr]
  refine ⟨?_, he ▸ code_shape⟩
  rw [he]
  by_cases hd : r = .dispatcher
  case pos => exact hd ▸ dispatchLoop_may
  case neg => exact fun p hp => (code_may hd p hp).mono (fun _ => id) fun _ => .of_local

end Config

-- What holds of the goroutines in every run.
structure Wired (cfg : Config) (g : Goroutines Mutex Channel) : Prop where
  ordered  : g.Ordered Mutex.rank
  balanced : g.Balanced .sem
  placed   :
    g.Annotated (fun n s => cfg.roles.length ≤ n ∧ ∀ c, (s.chan c).cap = cfg.cap c) cfg.Placed

namespace Wired

open Wiring.Config

variable {cfg : Config} {g : Goroutines Mutex Channel} {m : Goroutines.Move} {r : Role}
variable {i j w : Nat}
variable {t u : Code Mutex Channel} {c : Channel}

theorem start : Wired cfg cfg.start :=
  ⟨start_ordered, start_balanced, ⟨by simp [Config.start], fun _ => rfl⟩, fun _ _ => start_placed⟩

theorem step (h : Wired cfg g) : Wired cfg (g.step m) := by
  refine ⟨h.ordered.step, h.balanced.step, ?_⟩
  have hn : (Pool.step (Code.next m.k) g m.i).Annotated
      (fun n s => cfg.roles.length ≤ n ∧ ∀ c, (s.chan c).cap = cfg.cap c) cfg.Placed := by
    refine h.placed.step (fun t s _ hs ht => ⟨⟨hs.1, fun c => ?_⟩, ht.next⟩)
      fun t s j u _ ht hu hj => ht.frame hu hj
    exact keeps_next.1.trans (hs.2 c)
  simp only [Goroutines.step]
  split
  case h_2 => exact hn
  case h_1 u hu =>
    obtain ⟨t, ht, hf⟩ := Option.bind_eq_some_iff.mp hu
    refine hn.spawn ⟨Nat.le_succ_of_le hn.shared.1, hn.shared.2⟩ ?_
    have hr : cfg.role (Pool.step (Code.next m.k) g m.i).threads.length = .nack :=
      role_of_le hn.shared.1
    refine ⟨?_, hr ▸ trivial⟩
    rw [hr]
    exact (h.placed.threads m.i t ht).may.forked hf

theorem exec {ms : List Goroutines.Move} : Wired cfg (Run.exec Goroutines.step cfg.start ms) :=
  Run.exec_of_step (Wired cfg) (fun _ _ => step) start

theorem colleague (h : Wired cfg g) (hi : (cfg.role i).worker = some w) (hr : r.worker = some w) :
    ∃ (j : Nat) (u : Code Mutex Channel), g.threads[j]? = some u ∧ cfg.role j = r ∧
      cfg.Shape r g.shared u := by
  have ⟨j, hj, he⟩ := exists_colleague hi hr
  have hlt : j < g.threads.length := Nat.lt_of_lt_of_le hj h.placed.shared.1
  have hu : g.threads[j]? = some g.threads[j] := List.getElem?_eq_getElem hlt
  exact ⟨j, _, hu, he, he ▸ (h.placed.threads j _ hu).shape⟩

theorem released_of_local {a : Act Mutex Channel} (h : Wired cfg g) (ht : g.threads[i]? = some t)
    (hw : t.Waiting g.shared i) (ha : t.headAct = some a) (hl : Local a) : g.Released i := by
  match h.ordered.released_or (fun _ => Mutex.rank_le) ht hw with
  | .inl hr                => exact hr
  | .inr (.inl ⟨c, hs, _⟩) =>
    exact (Option.some.inj (ha.symm.trans (headAct_of_sends hs)) ▸ hl : Local (.send c)).elim
  | .inr (.inr ⟨c, hr, _⟩) =>
    exact (Option.some.inj (ha.symm.trans (headAct_of_receives hr)) ▸ hl : Local (.recv c)).elim

section

variable {d : Channel} {P Q : Act Mutex Channel → Prop} {p : Body}

-- Who drains a channel in which there is something, or which is closed, waits for locks only.
theorem drains_released (h : Wired cfg g) (hu : g.threads[j]? = some u)
    (hd : u.Drains c d Local p g.shared)
    (hc : (g.shared.chan c).closed = true ∨ 0 < (g.shared.chan c).items) (hw : g.Waiting j) :
    g.Released j := by
  have ⟨_, hu', hw⟩ := hw
  obtain rfl := Option.some.inj (hu.symm.trans hu')
  match hd.of_waiting hw with
  | .inl ⟨_, ha, hl⟩     => exact h.released_of_local hu hw ha hl
  | .inr ⟨_, hi, hclose⟩ => simp [hi, hclose] at hc

-- Who has closed `c` and waits for `d` is released by the one that drains `c`.
theorem joins_released (h : Wired cfg g) (ht : g.threads[i]? = some t) (hu : g.threads[j]? = some u)
    (hw : t.Waiting g.shared i) (hr : t.receives = some d) (hd : (g.shared.chan d).closed = false)
    (hcl : t.Closes c P Q g.shared) (hP : ¬P (.recv d)) (hdr : u.Drains c d Local p g.shared) :
    g.Released i := by
  have hc : (g.shared.chan c).closed = true := by
    by_contra hc
    have ⟨a, ha, hp⟩ := hcl.of_waiting (by simpa using hc) hw
    exact hP (Option.some.inj (ha.symm.trans (headAct_of_receives hr)) ▸ hp)
  exact .of_waitsFor (.recv ht hr ⟨t, ht, hw⟩ hu (hdr.can_close hd))
    (h.drains_released hu hdr (.inl hc))

end

theorem sends_released (h : Wired cfg g) (hi : cfg.role i = .receiver w)
    (ht : g.threads[i]? = some t) (hw : t.Waiting g.shared i) (hs : t.sends = some (.queue w))
    (hq : 0 < cfg.recvQueue w) (hf : (g.shared.chan (.queue w)).room = false) : g.Released i := by
  have hsh := (h.placed.threads i t ht).shape
  rw [hi] at hsh
  have hc : (g.shared.chan (.queue w)).closed = false := by
    cases hsh.1 hq
    case before hc _ _ => exact hc
    case after hu      => exact absurd rfl (hu.headAct (headAct_of_sends hs)).2
  have hcap : 0 < cfg.cap (.queue w) := by
    simp only [Config.cap, Receive.recvBatchSize]
    omega
  have hpos : 0 < (g.shared.chan (.queue w)).items := by
    simp only [Chan.room, hc, Bool.not_false, Bool.true_and, decide_eq_false_iff_not,
      h.placed.shared.2] at hf
    omega
  have ⟨j, u, hu, _, hd⟩ : ∃ j u, g.threads[j]? = some u ∧ cfg.role j = .processor w ∧ _ :=
    h.colleague (by rw [hi]; rfl) rfl
  exact .of_waitsFor (.send ht hs ⟨t, ht, hw⟩ hu ((hd hq).can_receive hc))
    (h.drains_released hu (hd hq) (.inr hpos))

theorem receiver_released (h : Wired cfg g) (hi : cfg.role i = .receiver w) (hw : g.Waiting i) :
    g.Released i := by
  have ⟨t, ht, hw⟩ := hw
  have ⟨hm, hsh⟩ := h.placed.threads i t ht
  rw [hi] at hm hsh
  match h.ordered.released_or (fun _ => Mutex.rank_le) ht hw with
  | .inl hr => exact hr
  | .inr (.inl ⟨c, hs, hf⟩) =>
    obtain ⟨rfl, hq⟩ := hm.headAct (headAct_of_sends hs)
    exact h.sends_released hi ht hw hs hq hf
  | .inr (.inr ⟨c, hr, _, hc⟩) =>
    have hworker : (cfg.role i).worker = some w := by rw [hi]; rfl
    match hm.headAct (headAct_of_receives hr) with
    | .inl ⟨hd, hq⟩ =>
      subst hd
      have ⟨j, u, hu, _, hdr⟩ := h.colleague (r := .processor w) hworker rfl
      exact h.joins_released ht hu hw hr hc (hsh.1 hq) nofun (hdr hq)
    | .inr ⟨hd, htee⟩ =>
      subst hd
      have ⟨j, u, hu, _, hdr⟩ := h.colleague (r := .teeSender w) hworker rfl
      exact h.joins_released ht hu hw hr hc (hsh.2 htee) (fun h => h.2 rfl) (hdr htee)

theorem released_of_ne (h : Wired cfg g) (hi : cfg.role i ≠ .dispatcher) (hw : g.Waiting i) :
    g.Released i := by
  have ⟨t, ht, hwt⟩ := hw
  have ⟨hm, hsh⟩ := h.placed.threads i t ht
  match h.ordered.released_or (fun _ => Mutex.rank_le) ht hwt with
  | .inl hr => exact hr
  | .inr (.inl ⟨c, hs, hf⟩) =>
    have hm := hm.headAct (headAct_of_sends hs)
    cases hr : cfg.role i
    case receiver w => exact h.receiver_released hr hw
    case dispatcher => exact absurd hr hi
    case processor | ticker | teeSender | sweeper | nack => rw [hr] at hm; exact hm.elim
  | .inr (.inr ⟨c, hs, _, hc⟩) =>
    have hm := hm.headAct (headAct_of_receives hs)
    cases hr : cfg.role i
    case receiver w => exact h.receiver_released hr hw
    case dispatcher => exact absurd hr hi
    case ticker | sweeper => rw [hr] at hm; exact hm.elim
    case processor w =>
      rw [hr] at hm
      obtain ⟨rfl, hq⟩ := hm
      have ⟨j, u, hu, hj, hcl⟩ := h.colleague (r := .receiver w) (by rw [hr]; rfl) rfl
      exact .of_waitsFor (.recv ht hs hw hu ((hcl.1 hq).can_close hc)) (h.receiver_released hj)
    case teeSender w =>
      rw [hr] at hm
      obtain ⟨rfl, htee⟩ := hm
      have ⟨j, u, hu, hj, hcl⟩ := h.colleague (r := .receiver w) (by rw [hr]; rfl) rfl
      exact .of_waitsFor (.recv ht hs hw hu ((hcl.2 htee).can_close hc)) (h.receiver_released hj)
    case nack =>
      rw [hr] at hm
      have he : c = .sem := hm
      exact absurd hwt (h.balanced.not_waiting ht (he ▸ hs))

-- The dispatch loop waits for a NACK to end.
theorem released (h : Wired cfg g) (hw : g.Waiting i) : g.Released i := by
  by_cases hi : cfg.role i = .dispatcher
  case neg => exact h.released_of_ne hi hw
  case pos =>
    have ⟨t, ht, hwt⟩ := hw
    have ⟨hm, hsh⟩ := h.placed.threads i t ht
    rw [hi] at hm hsh
    match h.ordered.released_or (fun _ => Mutex.rank_le) ht hwt with
    | .inl hr => exact hr
    | .inr (.inr ⟨c, hr, _⟩) => exact (hm.headAct (headAct_of_receives hr)).elim
    | .inr (.inl ⟨c, hs, hf⟩) =>
      have hc : c = .sem := hm.headAct (headAct_of_sends hs)
      subst hc
      have hpos : 0 < (g.shared.chan .sem).items := by
        simp only [Chan.room, h.balanced.opened, Bool.not_false, Bool.true_and,
          decide_eq_false_iff_not, h.placed.shared.2, Config.cap] at hf
        omega
      have ⟨j, u, hu, hn⟩ := h.balanced.exists_tokens hpos
      have hrecv : ¬u.Only fun a => a ≠ .recv .sem ∧ a ≠ .tryRecv .sem := by
        intro ho
        exact absurd (tokens_eq_zero ho fun h => h.1 rfl) (by omega)
      refine .of_waitsFor (.send ht hs hw hu hrecv) (h.released_of_ne fun hj => ?_)
      have he : i = j := role_inj (hi.trans hj.symm) (by rw [hi]; nofun)
      subst he
      obtain rfl := Option.some.inj (ht.symm.trans hu)
      simp only [Shape, dispatching, List.mem_cons, List.not_mem_nil, or_false] at hsh
      rcases hsh with rfl | rfl | rfl | rfl | rfl
      case inr.inr.inr.inl => cases hn
      all_goals cases hs

end Wired

-- In every run of the goroutines of a listener, with any number of workers: a lock is taken above
-- those that are held, nobody waits for a channel with a lock held, whoever waits is waiting for
-- somebody that can go on, and so no goroutines wait for each other.
theorem cannot_deadlock (cfg : Config) (moves : List Goroutines.Move) :
    let g := Run.exec Goroutines.step cfg.start moves
    (∀ i l l' t, g.threads[i]? = some (.act (.lock l) :: t) → g.shared.owner l' = some i →
      l'.rank < l.rank) ∧
    (∀ i l t, g.threads[i]? = some t → t.Blocks → g.shared.owner l ≠ some i) ∧
    (∀ i, g.Waiting i → g.Released i) ∧
    ∀ S, ¬g.Deadlocked S := by
  intro g
  have h : Wired cfg g := Wired.exec
  refine ⟨fun i l l' t ht ho => h.ordered.lock_lt ht ho,
    fun i l t ht hb => h.ordered.owner_ne_of_blocks ht hb, ?_, ?_⟩
  case refine_1 => exact fun i => h.released
  case refine_2 => exact fun S => Goroutines.not_deadlocked fun i => h.released

end Wiring
