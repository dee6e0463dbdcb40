import ShardListener.Nack.Send
import ShardListener.Nack.Theorems.Provenance
import ShardListener.Worker.Theorems.Calls

namespace Nack

namespace Callbacks

variable {β : Type} {c : Callbacks β} {f : β} {fs : List β}

-- The ids of the workers are consecutive, so that the table has no holes.

theorem recovers_registerRecover :
    (c.registerRecover c.recovers.length f).recovers = c.recovers ++ [some f] := by
  have hn : ¬(c.recovers.length : Int) < 0 := by omega
  have hr :
      List.replicate (c.recovers.length + 1 - c.recovers.length) (none : Option β) = [none] := by
    rw [Nat.add_sub_cancel_left]
    rfl
  simp only [registerRecover, if_neg hn, Int.toNat_natCast, hr]
  rw [List.set_append_right _ _ (Nat.le_refl _), Nat.sub_self]
  rfl

theorem recovers_registerWorkers :
    (c.registerWorkers c.recovers.length fs).recovers = c.recovers ++ fs.map some := by
  induction fs generalizing c
  case nil => simp [registerWorkers]
  case cons f fs hi =>
    have hr := recovers_registerRecover (c := c) (f := f)
    have hl : (c.registerRecover c.recovers.length f).recovers.length = c.recovers.length + 1 := by
      simp [hr]
    rw [registerWorkers, ← hl, hi, hr]
    simp

-- A gap that is owned by the worker `k` is handed to its callback.
theorem recoverFor_registerWorkers {e : GapEntry} {k : Nat} (hf : fs[k]? = some f)
    (he : e.owner = k) : (registerWorkers {} 0 fs).recoverFor e = some f := by
  have hr : (registerWorkers {} 0 fs).recovers = fs.map some :=
    recovers_registerWorkers (c := {})
  have ⟨hlt, _⟩ := List.getElem?_eq_some_iff.mp hf
  have hin : (0 : Int) ≤ k ∧ (k : Int) < (fs.map some).length := by
    rw [List.length_map]
    omega
  simp only [recoverFor, he, hr, if_pos hin, Int.toNat_natCast, List.getElem?_map, hf]
  rfl

end Callbacks

namespace Tracker

variable {cfg : Config} {i : Instant} {t : Tracker} {hk : HashKey}

-- A flow that is tracked stays tracked when frames are observed and fragments are requested.

theorem isSome_observeFrom {a : Arrival} (h : (t.flows.lookup hk).isSome) :
    ((t.observeFrom cfg i a).flows.lookup hk).isSome := by
  by_cases hz : a.seqNum = 0
  case pos => rwa [observeFrom, if_pos hz]
  case neg =>
    rw [lookup_observeFrom cfg i t hk hz]
    split
    case isFalse => exact h
    case isTrue e =>
      obtain ⟨fs, hl⟩ := Option.isSome_iff_exists.mp (e ▸ h)
      simp [flowFor, hl]

theorem isSome_requestGapsFrom {room : Nat} {q : Request} (h : (t.flows.lookup hk).isSome) :
    ((t.requestGapsFrom cfg i room q).flows.lookup hk).isSome := by
  by_cases hq : q.seqs = []
  case pos => rwa [requestGapsFrom, if_pos hq]
  case neg =>
    rw [lookup_requestGapsFrom cfg i room t hk hq]
    split
    case isFalse => exact h
    case isTrue e =>
      obtain ⟨fs, hl⟩ := Option.isSome_iff_exists.mp (e ▸ h)
      simp [requestFlow, hl]

-- The flow `hk` and its gaps belong to the worker `id`.
def OwnedBy (hk : HashKey) (id : Int) (hk' : HashKey) (tag : Tag) : Prop :=
  hk' = hk → tag.owner = id

-- The tracker's part of the invariant within a step: `tracked` says that the flow is there all
-- along.
def Owns (hk : HashKey) (id : Int) (tracked : Prop) (t : Tracker) : Prop :=
  t.Marked (OwnedBy hk id) ∧ (tracked → (t.flows.lookup hk).isSome)

variable {id : Int} {tracked : Prop}

theorem ownerAfter_self (hid : id ≠ ownerUnknown) (owner : Int) : ownerAfter owner id = id :=
  if_neg hid

theorem Owns.observeFrom {a : Arrival} (hid : id ≠ ownerUnknown) (ht : t.Owns hk id tracked)
    (ha : a.hashKey = hk → a.owner = id ∨ (a.owner = ownerUnknown ∧ tracked)) :
    (t.observeFrom cfg i a).Owns hk id tracked := by
  have ho (h : a.hashKey = hk) :
      ownerAfter (t.tagFor a.hashKey a.subtreeID).owner a.owner = id := by
    rcases ha h with e | ⟨e, htr⟩
    case inl => rw [e, ownerAfter_self hid]
    case inr =>
      subst h
      have ⟨fs, hl⟩ := Option.isSome_iff_exists.mp (ht.2 htr)
      simp only [e, ownerAfter, if_true, tagFor, hl, Option.map_some, Option.getD_some]
      exact (ht.1.flows _ fs hl).tag rfl
  exact ⟨ht.1.observeFrom ⟨ho, ho⟩, fun htr => isSome_observeFrom (ht.2 htr)⟩

theorem Owns.requestGapsFrom {room : Nat} {q : Request} (hid : id ≠ ownerUnknown)
    (ht : t.Owns hk id tracked) (hq : q.owner = id) :
    (t.requestGapsFrom cfg i room q).Owns hk id tracked := by
  have ho (h : q.hashKey = hk) :
      ownerAfter (t.tagFor q.hashKey q.subtreeID).owner q.owner = id := by
    rw [hq, ownerAfter_self hid]
  exact ⟨ht.1.requestGapsFrom ⟨ho, ho⟩, fun htr => isSome_requestGapsFrom (ht.2 htr)⟩

end Tracker
end Nack

namespace Node

open Worker Reassembly

variable {wire : Wire} {cfg : Settings} {env : Env} {hk : HashKey} {n : Node} {ev : Event}

-- The gaps of the flow, pending or with a NACK in flight, meet `P`.
def Gaps (hk : HashKey) (P : Nack.GapEntry → Prop) (n : Node) : Prop :=
  ∀ t ∈ n.worker.tracker,
    (∀ fs ∈ t.flows.lookup hk, ∀ x ∈ fs.pending.entries, P x.2) ∧
      ∀ e ∈ t.inFlight, e.hashKey = hk → P e

instance {P : Nack.GapEntry → Prop} [DecidablePred P] : DecidablePred (Gaps hk P) :=
  fun _ => inferInstanceAs (Decidable (∀ t ∈ _, _))

theorem gaps_of_marked {P : Nack.GapEntry → Prop} {Q : HashKey → Nack.Tag → Prop}
    (hp : ∀ e : Nack.GapEntry, Q hk e.tag → P e) (hw : n.worker.Keeps (·.Marked Q)) :
    n.Gaps hk P := by
  intro t ht
  have hm := hw t ht
  refine ⟨fun fs hl x hx => ?_, fun e he hk' => ?_⟩
  case refine_1 => exact hp _ ((hm.flows hk fs hl).gaps x.1 x.2 (AList.mem_entries_iff.mp hx)).tag
  case refine_2 => exact hp e (hk' ▸ hm.inFlight e he)

-- The gap is owned by the worker `id`, and its callback is found for it, with the callbacks `cbs`
-- of the workers registered as in `main`.
def Recoverable {β : Type} (cbs : List β) (f : β) (id : Int) (e : Nack.GapEntry) : Prop :=
  e.owner = id ∧ (Nack.Callbacks.registerWorkers {} 0 cbs).recoverFor e = some f

instance {β : Type} [DecidableEq β] {cbs : List β} {f : β} {id : Int} :
    DecidablePred (Recoverable cbs f id) :=
  fun _ => inferInstanceAs (Decidable (_ ∧ _))

-- The flow is observed by this worker only.
def Event.Own (hk : HashKey) : Event → Prop
  | .tracker (.observe _ a)   => a.hashKey ≠ hk
  | .tracker (.request _ _ q) => q.hashKey ≠ hk
  | _                         => True

def Tracked (hk : HashKey) (n : Node) : Prop :=
  ∀ t ∈ n.worker.tracker, (t.flows.lookup hk).isSome

instance : DecidablePred (Tracked hk) :=
  fun _ => inferInstanceAs (Decidable (∀ t ∈ _, _))

-- A BEEF frame of the flow, whole or reassembled, finds the flow tracked.
def Attributed (wire : Wire) (cfg : Settings) (hk : HashKey) (n : Node) : Event → Prop
  | .datagram env raw =>
    (wire.TakesBeef raw → ∀ x ∈ wire.stamp raw, x.1 = hk → n.Tracked hk) ∧
      (wire.TakesFragment raw → ∀ ff ∈ wire.decodeFragment raw, ∀ s ∈ n.completes wire cfg env ff,
        s.origFrameVer = FrameVer.v9 → s.hashKey = hk → n.Tracked hk)
  | _ => True

instance decidableAttributed : DecidablePred (n.Attributed wire cfg hk)
  | .datagram .. => inferInstanceAs (Decidable ((_ → ∀ x ∈ _, _) ∧ (_ → ∀ ff ∈ _, ∀ s ∈ _, _)))
  | .tick _      => .isTrue trivial
  | .tracker _   => .isTrue trivial

theorem hears_owned {raw : Bytes} (hid : cfg.id ≠ Nack.ownerUnknown)
    (ha : n.Attributed wire cfg hk (.datagram env raw)) :
    n.Hears wire cfg env raw (Nack.Tracker.Owns hk cfg.id (n.Tracked hk)) where
  whole _ x hx a hr t ht := by
    apply ht.observeFrom hid
    intro hk'
    rw [hr.owner]
    by_cases hb : wire.TakesBeef raw
    case pos => exact .inr ⟨by simp [hb], ha.1 hb x hx (hr.hashKey ▸ hk')⟩
    case neg => exact .inl (by simp [hb])
  expired _ _ _ _ _ _ _ _ _ _ ht := ht.requestGapsFrom hid rfl
  completed hc ff hd s hs a hr t ht := by
    apply ht.observeFrom hid
    intro hk'
    rw [hr.owner]
    by_cases hv : s.origFrameVer = FrameVer.v9
    case pos => exact .inr ⟨by simp [hv], ha.2 hc ff hd s hs hv (hr.hashKey ▸ hk')⟩
    case neg => exact .inl (by simp [hv])
  fragment _ _ _ _ ht := ht.observeFrom hid fun _ => .inl rfl

-- The flow and its gaps belong to the worker `id`.
def Owned (hk : HashKey) (id : Int) (n : Node) : Prop :=
  n.worker.Keeps (·.Marked (Nack.Tracker.OwnedBy hk id))

theorem Owned.new {id : Int} {dedupSet : Option Dedup.Set} : Owned hk id (wired dedupSet) := by
  rintro t ⟨⟩
  exact .new

theorem Owned.react (hid : cfg.id ≠ Nack.ownerUnknown) (hw : Owned hk cfg.id n) (ho : ev.Own hk)
    (ha : n.Attributed wire cfg hk ev) : Owned hk cfg.id (n.react wire cfg ev) := by
  cases ev
  case datagram env raw =>
    have hw' : n.worker.Keeps (Nack.Tracker.Owns hk cfg.id (n.Tracked hk)) :=
      fun t ht => ⟨hw t ht, fun htr => htr t ht⟩
    exact fun t ht => ((hears_owned hid ha).processFrame hw' t ht).1
  case tick env =>
    have hw' : n.worker.Keeps (Nack.Tracker.Owns hk cfg.id False) :=
      fun t ht => ⟨hw t ht, False.elim⟩
    have he : ∀ b ∈ n.buffer, Expires cfg env (Nack.Tracker.Owns hk cfg.id False) b :=
      fun _ _ _ _ _ _ _ _ ht => ht.requestGapsFrom hid rfl
    exact fun t ht => (keeps_tick he hw' t ht).1
  case tracker op =>
    refine Keeps.map hw rfl fun t ht => ht.step ?_
    cases op
    case observe i a      => exact ⟨fun h => absurd h ho, fun h => absurd h ho⟩
    case request i room q => exact ⟨fun h => absurd h ho, fun h => absurd h ho⟩
    all_goals trivial

variable {β : Type} {cbs : List β} {f : β} {k : Nat} {dedupSet : Option Dedup.Set}
variable {evs : List Event}

-- In every run in which no BEEF frame of the flow comes before the tracker has the flow, every gap
-- of the flow can be re-injected into the worker that observes it.
theorem recoverable_of_attributed (hid : cfg.id = k) (hf : cbs[k]? = some f)
    (ho : ∀ ev ∈ evs, ev.Own hk)
    (ha : Run.Along (react wire cfg) (Attributed wire cfg hk) (wired dedupSet) evs) :
    Run.Always (react wire cfg) (Gaps hk (Recoverable cbs f cfg.id)) (wired dedupSet) evs := by
  have hne : cfg.id ≠ Nack.ownerUnknown := by
    rw [hid, Nack.ownerUnknown]
    omega
  have hinv : Run.Always (react wire cfg) (Owned hk cfg.id) (wired dedupSet) evs :=
    Run.always_of_preserved (fun _ _ hw h => hw.react hne h.2 h.1) .new (ha.and (.of_forall ho))
  refine hinv.mono fun n hw => gaps_of_marked (fun e he => ?_) hw
  have he : e.owner = cfg.id := he rfl
  exact ⟨he, Nack.Callbacks.recoverFor_registerWorkers hf (he.trans hid)⟩

-- A wire on which a datagram is its SeqNum in the flow 7, and a second byte if it is the first
-- fragment of a BEEF object of two; without it, it is a whole BEEF frame.
def beefFlowWire : Wire :=
  { Wire.blank with
    isFragment     := fun raw => raw.length == 2
    isBEEFFrame    := fun _ => true
    decodeBEEF     := fun raw => some ⟨1, .fill 1, .fill 2, 7, (raw.headD 0).toNat, [0]⟩
    decodeFragment := fun raw =>
      some ⟨.fill 1, .fill 2, 7, (raw.headD 0).toNat, 0, 2, 2, FrameVer.v9, 1, [0]⟩ }

def beefPlane : Settings :=
  { Settings.blank with beefEngine := some ⟨fun _ => 0x1000, 12⟩ }

def beefDatagram (raw : Bytes) : Event :=
  .datagram Env.blank raw

-- The fragment 1 names the worker, so that the gap which the whole frame 3 opens is its own.
theorem recoverable_after_fragment :
    Run.Always (react beefFlowWire beefPlane) (Gaps 7 (Recoverable ["reinject"] "reinject" 0))
      (wired none) [beefDatagram [1, 0], beefDatagram [3]] :=
  recoverable_of_attributed (k := 0) rfl rfl (by simp [beefDatagram, Event.Own]) (by decide +kernel)

-- On a flow of whole BEEF frames the gap at 2 has no owner, and there is no callback for it.
theorem wholeBeef_not_recoverable :
    beefPlane.id = 0 ∧ (∀ ev ∈ [beefDatagram [1], beefDatagram [3]], ev.Own 7) ∧
      ¬Run.Always (react beefFlowWire beefPlane) (Gaps 7 (Recoverable ["reinject"] "reinject" 0))
        (wired none) [beefDatagram [1], beefDatagram [3]] := by
  refine ⟨rfl, by simp [beefDatagram, Event.Own], fun h => ?_⟩
  exact absurd h.last (by decide +kernel)

end Node
