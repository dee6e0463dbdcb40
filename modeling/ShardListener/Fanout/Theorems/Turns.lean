import ShardListener.Fanout.Sink

namespace Fanout

open Worker (Egress Filter)

-- What is fanned out through the reverse index.
inductive Item
  | frame (raw : Bytes) (f : Frame)
  | bundle (raw : Bytes) (b : Bundle)
  | beef (raw : Bytes) (f : BEEFFrame)

variable {ρ ε : Type}

def Sink.deliver (env : Env ρ ε) (s : Sink ρ ε) : Item → Sink ρ ε × Option (SendError ε)
  | .frame raw f  => s.send env raw f
  | .bundle raw b => s.sendBundle env raw b
  | .beef raw f   => s.sendBeef env raw f

namespace Item

variable (env : Env ρ ε) (groupIdx : GroupIdx)

def group : Item → Option GroupIdx
  | frame _ f  => some (env.engine.groupIndex f.txID)
  | bundle _ b => some b.groupIdx
  | beef _ f   => env.beefEngine.map (·.groupIndex f.topicID)

-- A turn of the delivery loops.
def turn : Item → Pass ρ ε → ρ → Pass ρ ε
  | frame raw f  => deliverFrame env groupIdx raw f
  | bundle raw b => deliverBundle env groupIdx raw b
  | beef raw f   => deliverBeef env groupIdx raw f

-- The parts of the declared predicate.

-- The subtree filter, or the election of topics and versions.
def Elected (c : ρ) : Item → Prop
  | frame _ f  => ¬denied (env.consumer c).filt groupIdx f
  | bundle _ b => ¬denied (env.consumer c).filt groupIdx (probe b)
  | beef _ f   =>
    ((env.consumer c).allTopics ∨
        ∃ id ∈ env.wire.beefDeliverableTopicIDs f, id ∈ (env.consumer c).topicSet) ∧
      ((env.consumer c).beefVersions = [] ∨
        ∃ word ∈ env.wire.beefVersionWord ((env.wire.splitBEEFPayload f.payload).getD f.payload),
          word ∈ (env.consumer c).beefVersions)

def Own (c : ρ) : Item → Prop
  | frame _ f  => isOwnTraffic env (env.consumer c) groupIdx f
  | bundle _ b => isOwnBundle env (env.consumer c) groupIdx b
  | beef _ f   => isOwnBeef env (env.consumer c) groupIdx f

-- There is an observer for the frames that the elections exclude.
def Watched (c : ρ) : Item → Prop
  | beef _ _ => (env.consumer c).beefObs
  | _        => False

-- The sink of the consumer is called with something. A bundle may have no member that can be sent.
def Carries (s : Sink ρ ε) (c : ρ) : Item → Prop
  | bundle _ b => ((env.consumer c).bundleCapable ∧ (env.consumer c).bundleSink) ∨
      (s.decoalesce env b).1 ≠ []
  | _          => True

variable {env groupIdx} {c : ρ}

instance : DecidablePred (Elected env groupIdx c)
  | frame ..  => inferInstanceAs (Decidable (¬_))
  | bundle .. => inferInstanceAs (Decidable (¬_))
  | beef ..   => inferInstanceAs (Decidable ((_ ∨ ∃ id ∈ _, _) ∧ (_ ∨ ∃ word ∈ _, _)))

instance : DecidablePred (Own env groupIdx c)
  | frame ..  => inferInstanceAs (Decidable (_ = true))
  | bundle .. => inferInstanceAs (Decidable (_ = true))
  | beef ..   => inferInstanceAs (Decidable (_ = true))

instance : DecidablePred (Watched env c)
  | frame ..  => .isFalse id
  | bundle .. => .isFalse id
  | beef ..   => inferInstanceAs (Decidable (_ = true))

instance {s : Sink ρ ε} : DecidablePred (Carries env s c)
  | frame ..   => .isTrue trivial
  | bundle _ b =>
    have : Decidable ((s.decoalesce env b).1 ≠ []) :=
      decidable_of_iff (¬(s.decoalesce env b).1.isEmpty) (not_congr List.isEmpty_iff)
    inferInstanceAs (Decidable (_ ∨ _))
  | beef ..    => .isTrue trivial

end Item

-- The consumer is subscribed to the group.
def Subscribed (env : Env ρ ε) (groupIdx : GroupIdx) (c : ρ) : Prop :=
  (env.consumer c).shards = [] ∨ groupIdx ∈ (env.consumer c).shards

-- The sink of the consumer gets the frame.
def Sends (env : Env ρ ε) (groupIdx : GroupIdx) (item : Item) (c : ρ) : Prop :=
  item.Elected env groupIdx c ∧ ¬item.Own env groupIdx c

-- One of its observers is told of the frame.
def Tells (env : Env ρ ε) (groupIdx : GroupIdx) (item : Item) (c : ρ) : Prop :=
  item.Elected env groupIdx c ∧ item.Own env groupIdx c ∧ (env.consumer c).ingressObs ∨
    ¬item.Elected env groupIdx c ∧ item.Watched env c

variable {env : Env ρ ε} {groupIdx : GroupIdx} {item : Item} {c : ρ} {s : Sink ρ ε}

instance : Decidable (Subscribed env groupIdx c) :=
  inferInstanceAs (Decidable (_ ∨ _))

instance : Decidable (Sends env groupIdx item c) :=
  inferInstanceAs (Decidable (_ ∧ ¬_))

instance : Decidable (Tells env groupIdx item c) :=
  inferInstanceAs (Decidable (_ ∧ _ ∧ _ ∨ ¬_ ∧ _))

namespace Entry

def invokes : Entry ρ ε → Bool
  | ⟨_, .sent calls⟩ => ¬calls.isEmpty
  | _                => false

def tells : Entry ρ ε → Bool
  | ⟨_, .sent _⟩ => false
  | _            => true

-- The errors that count, in the order of the calls.
def failures (env : Env ρ ε) : Entry ρ ε → List ε
  | ⟨_, .sent calls⟩ => calls.filterMap fun k => k.2.filter (¬env.isNotElected ·)
  | _                => []

end Entry

-- What a part of the loops adds to the record, and to the error.
structure Extends (env : Env ρ ε) (p p' : Pass ρ ε) (es : List (Entry ρ ε)) : Prop where
  log : p'.sink.log = p.sink.log ++ es
  err : p'.firstErr = p.firstErr.or (es.flatMap (Entry.failures env)).head?

namespace Extends

variable {p p' p'' : Pass ρ ε} {es es' : List (Entry ρ ε)}

theorem refl : Extends env p p [] where
  log := (List.append_nil _).symm
  err := by simp

theorem trans (h : Extends env p p' es) (h' : Extends env p' p'' es') :
    Extends env p p'' (es ++ es') where
  log := by rw [h'.log, h.log, List.append_assoc]
  err := by rw [h'.err, h.err, List.flatMap_append, List.head?_append, Option.or_assoc]

theorem note {outcome : Outcome ε} (ht : Entry.tells ⟨c, outcome⟩) :
    Extends env p (p.note c outcome) [⟨c, outcome⟩] where
  log := rfl
  err := by
    cases outcome
    case sent         => cases ht
    case ingress      => simp [Pass.note, Entry.failures]
    case beefFiltered => simp [Pass.note, Entry.failures]

theorem attempt_snd {log : List (Entry ρ ε)} {q : List (Egress × Option ε) × Option ε}
    {k : Egress} :
    (attempt env log c q k).2 =
      q.2.or ((env.reply log q.1 c k).filter (¬env.isNotElected ·)) := by
  simp only [attempt]
  cases env.reply log q.1 c k
  case none => simp
  case some e =>
    cases q.2
    case none   => simp [Option.filter_some]
    case some _ => simp

theorem foldl_attempt (env : Env ρ ε) (c : ρ) (log : List (Entry ρ ε))
    (q : List (Egress × Option ε) × Option ε) (ks : List Egress) :
    ∃ calls : List (Egress × Option ε), calls.map Prod.fst = ks ∧ ks.foldl (attempt env log c) q =
      (q.1 ++ calls, q.2.or (calls.filterMap fun k => k.2.filter (¬env.isNotElected ·)).head?) := by
  induction ks generalizing q
  case nil => exact ⟨[], rfl, by simp⟩
  case cons k ks hi =>
    have ⟨calls, hk, e⟩ := hi (attempt env log c q k)
    refine ⟨(k, env.reply log q.1 c k) :: calls, by rw [List.map_cons, hk], ?_⟩
    rw [List.foldl_cons, e, attempt_snd, List.filterMap_cons, Option.or_assoc]
    refine Prod.ext (by simp [attempt]) ?_
    dsimp only
    cases (env.reply log q.1 c k).filter (¬env.isNotElected ·)
    case none   => rfl
    case some _ => rfl

theorem calls (env : Env ρ ε) (c : ρ) (p : Pass ρ ε) (ks : List Egress) :
    ∃ calls : List (Egress × Option ε), calls.map Prod.fst = ks ∧
      Extends env p (p.calls env c ks) [⟨c, .sent calls⟩] := by
  have ⟨calls, hk, e⟩ := foldl_attempt env c p.sink.log ([], p.firstErr) ks
  refine ⟨calls, hk, ?_, ?_⟩
  case refine_1 => simp [Pass.calls, Pass.note, e]
  case refine_2 => simp [Pass.calls, e, Entry.failures]

end Extends

-- The record of turns for the consumers `cs`: those whose sink is called, and those whose observer
-- is told, each once for each turn.
structure Records (env : Env ρ ε) (groupIdx : GroupIdx) (item : Item) (s : Sink ρ ε) (cs : List ρ)
    (es : List (Entry ρ ε)) : Prop where
  invoked : (es.filter Entry.invokes).map Entry.consumer =
    cs.filter fun c => Sends env groupIdx item c ∧ item.Carries env s c
  told    : (es.filter Entry.tells).map Entry.consumer = cs.filter (Tells env groupIdx item ·)

namespace Records

variable {cs cs' : List ρ} {es es' : List (Entry ρ ε)} {calls : List (Egress × Option ε)}
variable {outcome : Outcome ε}

theorem nil : Records env groupIdx item s [] [] where
  invoked := rfl
  told    := rfl

theorem append (h : Records env groupIdx item s cs es) (h' : Records env groupIdx item s cs' es') :
    Records env groupIdx item s (cs ++ cs') (es ++ es') where
  invoked := by simp only [List.filter_append, List.map_append, h.invoked, h'.invoked]
  told    := by simp only [List.filter_append, List.map_append, h.told, h'.told]

theorem silent (hs : ¬Sends env groupIdx item c) (ht : ¬Tells env groupIdx item c) :
    Records env groupIdx item s [c] [] where
  invoked := by simp [hs]
  told    := by simp [ht]

theorem observed (hs : ¬Sends env groupIdx item c) (ht : Tells env groupIdx item c)
    (ho : Entry.tells ⟨c, outcome⟩) : Records env groupIdx item s [c] [⟨c, outcome⟩] where
  invoked := by
    cases outcome
    case sent         => cases ho
    case ingress      => simp [hs, Entry.invokes]
    case beefFiltered => simp [hs, Entry.invokes]
  told := by simp [ht, ho]

theorem sent (hs : Sends env groupIdx item c) (ht : ¬Tells env groupIdx item c)
    (hc : calls ≠ [] ↔ item.Carries env s c) :
    Records env groupIdx item s [c] [⟨c, .sent calls⟩] where
  invoked := by
    by_cases hk : item.Carries env s c
    case pos => simp [hs, hk, Entry.invokes, hc.mpr hk]
    case neg => simp [hk, Entry.invokes, not_not.mp (mt hc.mp hk)]
  told := by simp [ht, Entry.tells]

end Records

theorem tells_of_elected (he : item.Elected env groupIdx c) :
    Tells env groupIdx item c ↔ item.Own env groupIdx c ∧ (env.consumer c).ingressObs :=
  ⟨fun h => (h.resolve_right fun h => h.1 he).2, fun h => .inl ⟨he, h⟩⟩

theorem tells_of_unelected (hn : ¬item.Elected env groupIdx c) :
    Tells env groupIdx item c ↔ item.Watched env c :=
  ⟨fun h => (h.resolve_left fun h => hn h.1).2, fun h => .inr ⟨hn, h⟩⟩

theorem not_tells_of_sends (hs : Sends env groupIdx item c) : ¬Tells env groupIdx item c :=
  fun ht => hs.2 ((tells_of_elected hs.1).mp ht).1

-- The members of a bundle are split off once, for all consumers.
def Ready (env : Env ρ ε) (s : Sink ρ ε) (p : Pass ρ ε) : Item → Prop
  | .bundle _ b => p.members = none ∧ p.sink.egressSeq = s.egressSeq ∨
      p.members = some (s.decoalesce env b).1
  | _           => True

-- One turn of the loops.
structure Turned (env : Env ρ ε) (groupIdx : GroupIdx) (item : Item) (s : Sink ρ ε) (cs : List ρ)
    (p p' : Pass ρ ε) : Prop where
  ready   : Ready env s p' item
  records : ∃ es, Extends env p p' es ∧ Records env groupIdx item s cs es

namespace Turned

variable {p p' p'' : Pass ρ ε} {cs cs' : List ρ} {outcome : Outcome ε} {ks : List Egress}

theorem ready_note (hr : Ready env s p item) : Ready env s (p.note c outcome) item := by
  cases item
  case bundle => exact hr
  all_goals trivial

theorem ready_calls (hr : Ready env s p item) : Ready env s (p.calls env c ks) item := by
  cases item
  case bundle => exact hr
  all_goals trivial

theorem silent (hr : Ready env s p item) (hs : ¬Sends env groupIdx item c)
    (ht : ¬Tells env groupIdx item c) : Turned env groupIdx item s [c] p p :=
  ⟨hr, [], .refl, .silent hs ht⟩

theorem observed (hr : Ready env s p item) (hs : ¬Sends env groupIdx item c)
    (ht : Tells env groupIdx item c) (ho : Entry.tells (⟨c, outcome⟩ : Entry ρ ε)) :
    Turned env groupIdx item s [c] p (p.note c outcome) :=
  ⟨ready_note hr, _, .note ho, .observed hs ht ho⟩

theorem sent (hr : Ready env s p item) (hs : Sends env groupIdx item c)
    (hc : ks ≠ [] ↔ item.Carries env s c) :
    Turned env groupIdx item s [c] p (p.calls env c ks) := by
  have ⟨calls, hk, he⟩ := Extends.calls env c p ks
  refine ⟨ready_calls hr, _, he, .sent hs (not_tells_of_sends hs) (Iff.trans ?_ hc)⟩
  rw [← hk, ne_eq, ne_eq, List.map_eq_nil_iff]

theorem denied (hr : Ready env s p item) (hn : ¬item.Elected env groupIdx c)
    (hw : ¬item.Watched env c) : Turned env groupIdx item s [c] p p :=
  .silent hr (fun h => hn h.1) fun h => hw ((tells_of_unelected hn).mp h)

-- The own-traffic exclusion.
theorem own {wire members : Nat} (hr : Ready env s p item) (he : item.Elected env groupIdx c)
    (ho : item.Own env groupIdx c) :
    Turned env groupIdx item s [c] p
      (if (env.consumer c).ingressObs then p.note c (.ingress wire members) else p) := by
  have hs : ¬Sends env groupIdx item c := fun h => h.2 ho
  split
  case isTrue hobs  => exact .observed hr hs ((tells_of_elected he).mpr ⟨ho, hobs⟩) rfl
  case isFalse hobs => exact .silent hr hs fun h => hobs ((tells_of_elected he).mp h).2

theorem deliverFrame {raw : Bytes} {f : Frame} :
    Turned env groupIdx (.frame raw f) s [c] p (deliverFrame env groupIdx raw f p c) := by
  simp only [Fanout.deliverFrame]
  split
  case isTrue hd => exact .denied trivial (not_not.mpr hd) id
  case isFalse hd =>
    split
    case isTrue ho  => exact .own trivial hd ho
    case isFalse ho =>
      exact .sent trivial ⟨hd, ho⟩ ⟨fun _ => trivial, fun _ => List.cons_ne_nil _ _⟩

theorem of_extends (h : Extends env p p' []) (ht : Turned env groupIdx item s cs p' p'') :
    Turned env groupIdx item s cs p p'' :=
  have ⟨es, he, hes⟩ := ht.records
  ⟨ht.ready, es, h.trans he, hes⟩

theorem decoalesced {raw : Bytes} {b : Bundle} (hr : Ready env s p (.bundle raw b)) :
    (p.decoalesced env b).1 = (s.decoalesce env b).1 ∧
      Ready env s (p.decoalesced env b).2 (.bundle raw b) ∧
        Extends env p (p.decoalesced env b).2 [] := by
  simp only [Pass.decoalesced]
  rcases hr with ⟨hn, hseq⟩ | hm
  case inl =>
    have e : (p.sink.decoalesce env b).1 = (s.decoalesce env b).1 := by
      simp only [Sink.decoalesce, hseq]
    simp only [hn]
    exact ⟨e, .inr (congrArg some e), (List.append_nil _).symm, by simp⟩
  case inr =>
    simp only [hm]
    exact ⟨trivial, .inr hm, .refl⟩

theorem deliverBundle {raw : Bytes} {b : Bundle} (hr : Ready env s p (.bundle raw b)) :
    Turned env groupIdx (.bundle raw b) s [c] p (deliverBundle env groupIdx raw b p c) := by
  simp only [Fanout.deliverBundle]
  split
  case isTrue hd => exact .denied hr (not_not.mpr hd) id
  case isFalse hd =>
    split
    case isTrue ho => exact .own hr hd ho
    case isFalse ho =>
      split
      case isTrue hw  => exact .sent hr ⟨hd, ho⟩ ⟨fun _ => .inl hw, fun _ => List.cons_ne_nil _ _⟩
      case isFalse hw =>
        have ⟨e, hr', he⟩ := decoalesced hr
        refine .of_extends he (.sent hr' ⟨hd, ho⟩ ?_)
        rw [e, ne_eq, List.map_eq_nil_iff]
        exact ⟨.inr, fun h => h.resolve_left hw⟩

theorem unelected {raw : Bytes} {f : BEEFFrame} {reason : FilterReason}
    (hn : ¬Item.Elected env groupIdx c (.beef raw f)) :
    Turned env groupIdx (.beef raw f) s [c] p
      (if (env.consumer c).beefObs then p.note c (.beefFiltered reason raw.length) else p) := by
  have hs : ¬Sends env groupIdx (.beef raw f) c := fun h => hn h.1
  split
  case isTrue hobs  => exact .observed trivial hs ((tells_of_unelected hn).mpr hobs) rfl
  case isFalse hobs => exact .denied trivial hn hobs

theorem matchedTopic_isSome {con : Consumer} {f : BEEFFrame} :
    (matchedTopic env con f).isSome ↔
      con.allTopics ∨ ∃ id ∈ env.wire.beefDeliverableTopicIDs f, id ∈ con.topicSet := by
  simp only [matchedTopic]
  split
  case isTrue ha  => simp [ha]
  case isFalse ha => simp [ha]

theorem not_versionRejected {con : Consumer} {f : BEEFFrame} :
    ¬versionRejected env con f ↔ con.beefVersions = [] ∨
      ∃ word ∈ env.wire.beefVersionWord ((env.wire.splitBEEFPayload f.payload).getD f.payload),
        word ∈ con.beefVersions := by
  simp only [versionRejected]
  split
  case isTrue hv => simp [hv]
  case isFalse hv =>
    cases env.wire.beefVersionWord ((env.wire.splitBEEFPayload f.payload).getD f.payload)
    case none   => simp [hv]
    case some _ => simp [hv]

theorem deliverBeef {raw : Bytes} {f : BEEFFrame} :
    Turned env groupIdx (.beef raw f) s [c] p (deliverBeef env groupIdx raw f p c) := by
  simp only [Fanout.deliverBeef]
  split
  case h_1 hm =>
    refine .unelected fun h => ?_
    have hsome := matchedTopic_isSome.mpr h.1
    rw [hm] at hsome
    cases hsome
  case h_2 matched hm =>
    have hsome : (matchedTopic env (env.consumer c) f).isSome := by rw [hm]; rfl
    have htopic := matchedTopic_isSome.mp hsome
    split
    case isTrue hv => exact .unelected fun h => not_versionRejected.mpr h.2 hv
    case isFalse hv =>
      have he : Item.Elected env groupIdx c (.beef raw f) := ⟨htopic, not_versionRejected.mp hv⟩
      split
      case isTrue ho  => exact .own trivial he ho
      case isFalse ho =>
        exact .sent trivial ⟨he, ho⟩ ⟨fun _ => trivial, fun _ => List.cons_ne_nil _ _⟩

-- One turn, for every kind of frame.
theorem turn (hr : Ready env s p item) :
    Turned env groupIdx item s [c] p (item.turn env groupIdx p c) := by
  cases item
  case frame  => exact deliverFrame
  case bundle => exact deliverBundle hr
  case beef   => exact deliverBeef

-- The turns of a loop. No turn depends on what the sinks have returned before.
theorem foldl_turn (hr : Ready env s p item) :
    Turned env groupIdx item s cs p (cs.foldl (item.turn env groupIdx) p) := by
  induction cs generalizing p
  case nil => exact ⟨hr, [], .refl, .nil⟩
  case cons c cs hi =>
    have h₁ : Turned env groupIdx item s [c] p (item.turn env groupIdx p c) := turn hr
    have h₂ := hi h₁.ready
    have ⟨es₁, he₁, hes₁⟩ := h₁.records
    have ⟨es₂, he₂, hes₂⟩ := h₂.records
    exact ⟨h₂.ready, es₁ ++ es₂, he₁.trans he₂, hes₁.append hes₂⟩

end Turned

namespace Sink

-- The consumers that the loops go through, in their order.
def routed (s : Sink ρ ε) (groupIdx : GroupIdx) : List ρ :=
  (s.byShard.lookup groupIdx).getD [] ++ s.allShards

theorem deliver_eq (hg : item.group env = some groupIdx) :
    s.deliver env item =
      let p := (s.routed groupIdx).foldl (item.turn env groupIdx) { sink := s }
      (p.sink, p.firstErr.map .sink) := by
  simp only [routed, List.foldl_append]
  cases item
  case frame => cases hg; rfl
  case bundle => cases hg; rfl
  case beef raw f =>
    have ⟨engine, he, e⟩ := Option.map_eq_some_iff.mp hg
    subst e
    simp only [deliver, sendBeef, he]
    rfl

-- What a delivery adds to the record, and the error it returns.
theorem deliver_records (hg : item.group env = some groupIdx) :
    ∃ es, (s.deliver env item).1.log = s.log ++ es ∧
      (s.deliver env item).2 = (es.flatMap (Entry.failures env)).head?.map .sink ∧
      Records env groupIdx item s (s.routed groupIdx) es := by
  have hr : Ready env s { sink := s } item := by
    cases item
    case bundle => exact .inl ⟨rfl, rfl⟩
    all_goals trivial
  have ht : Turned env groupIdx item s (s.routed groupIdx) { sink := s } _ := .foldl_turn hr
  have ⟨es, he, hes⟩ := ht.records
  refine ⟨es, ?_, ?_, hes⟩
  case refine_1 => rw [deliver_eq hg]; exact he.log
  case refine_2 => rw [deliver_eq hg]; simp only [he.err, Option.none_or]

end Sink

end Fanout
