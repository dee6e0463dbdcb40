import ShardListener.Reassembly.Theorems.Assembly

-- The first hit in a range has only misses before it.
theorem List.findSome?_range'_eq_some {β : Type} {f : Nat → Option β} {a n : Nat} {b : β}
    (h : (List.range' a n).findSome? f = some b) :
    ∃ d, a ≤ d ∧ d < a + n ∧ f d = some b ∧ ∀ c, a ≤ c → c < d → f c = none := by
  have ⟨l, d, r, e, hd, hl⟩ := List.findSome?_eq_some_iff.mp h
  have hmem {c : Nat} : a ≤ c ∧ c < a + n ↔ c ∈ l ∨ c = d ∨ c ∈ r := by
    rw [← List.mem_range'_1, e, List.mem_append, List.mem_cons]
  have hdn := hmem.mpr (.inr (.inl rfl))
  have hsorted : (l ++ d :: r).Pairwise (· < ·) := e ▸ List.pairwise_lt_range'
  have hright := (List.pairwise_cons.mp (List.pairwise_append.mp hsorted).2.1).1
  refine ⟨d, hdn.1, hdn.2, hd, fun c hac hcd => ?_⟩
  rcases hmem.mp ⟨hac, hcd.trans hdn.2⟩ with hc | hc | hc
  case inl     => exact hl c hc
  case inr.inl => exact absurd hc hcd.ne
  case inr.inr => exact absurd (hright c hc) hcd.not_gt

namespace Reassembly

variable {σ : Nat → SeqNum} {got : Finset Nat} {s s' : Slot} {fs : List FragFrame} {ff : FragFrame}
variable {j j' k b b' total size : Nat} {n n' : SeqNum}

-- The SeqNums of the fragments of an object grow with the index.
structure Stamping (σ : Nat → SeqNum) (total : Nat) : Prop where
  strict : ∀ i j, i < j → j < total → σ i < σ j
  pos    : 1 ≤ σ 0
  bound  : ∀ i < total, σ i < 2 ^ 62

namespace Stamping

theorem add_le (hσ : Stamping σ total) (h : j ≤ k) (hk : k < total) : σ j + (k - j) ≤ σ k := by
  induction k, h using Nat.le_induction
  case base => simp
  case succ k hjk hi =>
    have hlt := hσ.strict k (k + 1) k.lt_succ_self hk
    have hle := hi (k.lt_succ_self.trans hk)
    dsimp only [SeqNum] at *
    omega

theorem lt (hσ : Stamping σ total) (hj : j < total) : j < σ j := by
  have hle := hσ.add_le j.zero_le hj
  have hpos := hσ.pos
  dsimp only [SeqNum] at *
  omega

end Stamping

-- `b` is the index in `got` nearest to `j`, the lower one of two at the same distance.
structure Nearest (got : Finset Nat) (j b : Nat) : Prop where
  mem   : b ∈ got
  least : ∀ k ∈ got, (b - j) + (j - b) ≤ (k - j) + (j - k)
  lower : j < b → ∀ k ∈ got, k < j → b - j < j - k

namespace Nearest

theorem self (h : j ∈ got) : Nearest got j j where
  mem         := h
  least k _   := by omega
  lower h _ _ := absurd h (lt_irrefl j)

theorem mono (h : Nearest got j b) (h' : Nearest got j' b') (hj : j < j') : b ≤ b' := by
  by_contra hb
  have h₁ := h.least b' h'.mem
  have h₂ := h'.least b h.mem
  have h₃ : j < b → b' < j → b - j < j - b' := fun hjb hbj => h.lower hjb b' h'.mem hbj
  omega

end Nearest

-- The SeqNum is as far from that of the nearest fragment as the indices are from each other.
def Guess (σ : Nat → SeqNum) (got : Finset Nat) (j : Nat) (n : SeqNum) : Prop :=
  ∃ b, Nearest got j b ∧ n + b = σ b + j

namespace Guess

theorem self (h : j ∈ got) : Guess σ got j (σ j) :=
  ⟨j, .self h, rfl⟩

-- The nearest fragment of a higher index is the same or a later one, and the SeqNums between the
-- two grow at least as fast as the indices.
theorem strict (hσ : Stamping σ total) (hw : got ⊆ Finset.range total) (h : Guess σ got j n)
    (h' : Guess σ got j' n') (hj : j < j') : n < n' := by
  have ⟨b, hb, e⟩ := h
  have ⟨b', hb', e'⟩ := h'
  have hle := hb.mono hb' hj
  have hadd := hσ.add_le hle (Finset.mem_range.mp (hw hb'.mem))
  dsimp only [SeqNum] at *
  omega

theorem ne (hσ : Stamping σ total) (hw : got ⊆ Finset.range total) (h : Guess σ got j n)
    (hj : j ∉ got) (hk : k ∈ got) : n ≠ σ k := by
  rcases Nat.lt_or_gt_of_ne fun e : j = k => hj (e ▸ hk) with hjk | hjk
  case inl => exact (h.strict hσ hw (.self hk) hjk).ne
  case inr => exact (strict hσ hw (.self hk) h hjk).ne'

theorem pos (hσ : Stamping σ total) (hw : got ⊆ Finset.range total) (h : Guess σ got j n) :
    n ≠ 0 := by
  have ⟨b, hb, e⟩ := h
  have hlt := hσ.lt (Finset.mem_range.mp (hw hb.mem))
  dsimp only [SeqNum] at *
  omega

theorem consecutive (hc : ∀ i < total, σ i = σ 0 + i) (hw : got ⊆ Finset.range total)
    (h : Guess σ got j n) (hj : j < total) : n = σ j := by
  have ⟨b, hb, e⟩ := h
  have hcj := hc j hj
  have hcb := hc b (Finset.mem_range.mp (hw hb.mem))
  dsimp only [SeqNum] at *
  omega

end Guess

namespace Slot

-- The slot has received the fragments in `got`, which were stamped by `σ`.
structure Records (σ : Nat → SeqNum) (got : Finset Nat) (s : Slot) : Prop where
  within   : got ⊆ Finset.range s.fragTotal
  held     : ∀ j < s.fragTotal, s.held[j]? = some true ↔ j ∈ got
  fragSeq  : ∀ j ∈ got, s.fragSeq[j]? = some (σ j)
  received : s.received = got.card

namespace Records

theorem nearest (hs : s.Records σ got) (hj : j < s.fragTotal) (hn : j ∉ got)
    (hb : s.nearestHeld j = some b) : Nearest got j b := by
  have ⟨d, hd, hdt, hit, hmiss⟩ := List.findSome?_range'_eq_some hb
  -- Nothing is received at a smaller distance.
  have hfar : ∀ k ∈ got, d ≤ (k - j) + (j - k) := by
    intro k hk
    by_contra hlt
    have hkt := Finset.mem_range.mp (hs.within hk)
    have hkh := (hs.held k hkt).mpr hk
    have hne : k ≠ j := fun e => hn (e ▸ hk)
    have hnone := hmiss ((k - j) + (j - k)) (by omega) (by omega)
    rcases Nat.lt_or_gt_of_ne hne with h | h
    case inl =>
      have e : j - ((k - j) + (j - k)) = k := by omega
      rw [if_pos ⟨by omega, by rw [e]; exact hkh⟩] at hnone
      cases hnone
    case inr =>
      have e : j + ((k - j) + (j - k)) = k := by omega
      split at hnone
      case isTrue => cases hnone
      case isFalse =>
        rw [if_pos ⟨by rw [e]; exact hkt, by rw [e]; exact hkh⟩] at hnone
        cases hnone
  have ⟨hbt, hbh⟩ := nearestHeld_some hb hj
  refine ⟨(hs.held b hbt).mp hbh, fun k hk => ?_, fun hjb k hk hkj => ?_⟩
  case refine_1 =>
    have hk := hfar k hk
    split at hit
    case isTrue h => cases hit; omega
    case isFalse =>
      split at hit
      case isTrue  => cases hit; omega
      case isFalse => cases hit
  case refine_2 =>
    have hkt := Finset.mem_range.mp (hs.within hk)
    have hkd := hfar k hk
    split at hit
    case isTrue => cases hit; omega
    case isFalse hlow =>
      split at hit
      case isFalse => cases hit
      case isTrue =>
        cases hit
        have hne : j - d ≠ k := fun e => hlow ⟨by omega, e ▸ (hs.held k hkt).mpr hk⟩
        omega

theorem missingSeqNum_of_mem (hs : s.Records σ got) (hj : j ∈ got) : s.missingSeqNum j = none :=
  if_pos ((hs.held j (Finset.mem_range.mp (hs.within hj))).mpr hj)

theorem missingSeqNum (hs : s.Records σ got) (hσ : Stamping σ s.fragTotal) (hne : got.Nonempty)
    (hj : j < s.fragTotal) (hn : j ∉ got) : ∃ n, s.missingSeqNum j = some n ∧ Guess σ got j n := by
  have ⟨k, hk⟩ := hne
  have hkt := Finset.mem_range.mp (hs.within hk)
  have ⟨b, hb⟩ := exists_nearestHeld ((hs.held k hkt).mpr hk) hkt hj fun e => hn (e ▸ hk)
  have hnear := hs.nearest hj hn hb
  have hbt := Finset.mem_range.mp (hs.within hnear.mem)
  have hlow := hσ.lt hbt
  have hhigh := hσ.bound b hbt
  have hjσ := (hσ.lt hj).trans (hσ.bound j hj)
  have hn' : σ b < 2 ^ 63 := by dsimp only [SeqNum] at *; omega
  have hm' : σ b + j - b < 2 ^ 63 := by dsimp only [SeqNum] at *; omega
  have e : σ b + j = σ b + j - b + b := by dsimp only [SeqNum] at *; omega
  have heq := missingSeqNum_eq (mt (hs.held j hj).mp hn) hb (hs.fragSeq b hnear.mem) hn' hm' e
  exact ⟨_, heq, b, hnear, e.symm⟩

theorem of_missingSeqNum (hs : s.Records σ got) (hσ : Stamping σ s.fragTotal) (hne : got.Nonempty)
    (hj : j ∈ List.range s.fragTotal) (h : s.missingSeqNum j = some n) :
    j ∉ got ∧ Guess σ got j n := by
  have hn : j ∉ got := fun hg => nomatch (hs.missingSeqNum_of_mem hg).symm.trans h
  have ⟨m, hm, hg⟩ := hs.missingSeqNum hσ hne (List.mem_range.mp hj) hn
  cases hm.symm.trans h
  exact ⟨hn, hg⟩

theorem missingSeqNums_eq (hs : s.Records σ got) (hne : got.Nonempty) :
    s.missingSeqNums = (List.range s.fragTotal).filterMap s.missingSeqNum :=
  if_neg (hs.received.trans_ne hne.card_ne_zero)

theorem length_missingSeqNums (hs : s.Records σ got) (hσ : Stamping σ s.fragTotal)
    (hne : got.Nonempty) :
    s.missingSeqNums.length = s.fragTotal - s.received := by
  have hsome : ∀ j ∈ List.range s.fragTotal,
      (s.missingSeqNum j).isSome = true ↔ decide (j ∉ got) = true := by
    intro j hj
    by_cases hg : j ∈ got
    case pos => simp [hs.missingSeqNum_of_mem hg, hg]
    case neg =>
      have ⟨n, hn, _⟩ := hs.missingSeqNum hσ hne (List.mem_range.mp hj) hg
      simp [hn, hg]
  calc
    s.missingSeqNums.length
    _ = (List.range s.fragTotal).countP (· ∉ got) := by
      rw [hs.missingSeqNums_eq hne, List.length_filterMap_eq_countP, List.countP_congr hsome]
    _ = (Finset.range s.fragTotal \ got).card := by
      rw [← Finset.filter_notMem_eq_sdiff, ← Nat.count_eq_card_filter_range]
      rfl
    _ = s.fragTotal - s.received := by
      rw [Finset.card_sdiff_of_subset hs.within, Finset.card_range, hs.received]

theorem pairwise_missingSeqNums (hs : s.Records σ got) (hσ : Stamping σ s.fragTotal)
    (hne : got.Nonempty) : s.missingSeqNums.Pairwise (· < ·) := by
  rw [hs.missingSeqNums_eq hne, List.pairwise_filterMap]
  refine List.pairwise_lt_range.imp_of_mem fun {j j'} hj hj' hlt n hn n' hn' => ?_
  have hg := (hs.of_missingSeqNum hσ hne hj hn).2
  exact hg.strict hσ hs.within (hs.of_missingSeqNum hσ hne hj' hn').2 hlt

theorem mem_missingSeqNums (hs : s.Records σ got) (hσ : Stamping σ s.fragTotal) (hne : got.Nonempty)
    (hn : n ∈ s.missingSeqNums) : ∃ j ∉ got, Guess σ got j n := by
  have ⟨j, hj, e⟩ := List.mem_filterMap.mp (hs.missingSeqNums_eq hne ▸ hn)
  exact ⟨j, hs.of_missingSeqNum hσ hne hj e⟩

theorem missingSeqNums_consecutive (hs : s.Records σ got) (hσ : Stamping σ s.fragTotal)
    (hne : got.Nonempty) (hc : ∀ i < s.fragTotal, σ i = σ 0 + i) :
    s.missingSeqNums = ((List.range s.fragTotal).filter (· ∉ got)).map σ := by
  rw [hs.missingSeqNums_eq hne, ← List.filterMap_eq_map, List.filterMap_filter]
  refine List.filterMap_congr fun j hj => ?_
  by_cases hg : j ∈ got
  case pos => simp [hs.missingSeqNum_of_mem hg, hg]
  case neg =>
    have hjt := List.mem_range.mp hj
    have ⟨n, hn, hgn⟩ := hs.missingSeqNum hσ hne hjt hg
    simp [hn, hg, hgn.consecutive hc hs.within hjt]

-- The list names as many SeqNums as fragments are missing, in order, and none that is taken; with
-- consecutive SeqNums it names those of the missing fragments.
theorem missingSeqNums_interpolate (hs : s.Records σ got) (hσ : Stamping σ s.fragTotal)
    (hne : got.Nonempty) :
    s.missingSeqNums.length = s.fragTotal - s.received ∧
      s.missingSeqNums.Pairwise (· < ·) ∧
      (∀ n ∈ s.missingSeqNums, n ≠ 0 ∧ ∀ j ∈ got, n ≠ σ j) ∧
      ((∀ i < s.fragTotal, σ i = σ 0 + i) →
        s.missingSeqNums = ((List.range s.fragTotal).filter (· ∉ got)).map σ) := by
  refine ⟨hs.length_missingSeqNums hσ hne, hs.pairwise_missingSeqNums hσ hne, fun n hn => ?_,
    hs.missingSeqNums_consecutive hσ hne⟩
  have ⟨j, hj, hg⟩ := hs.mem_missingSeqNums hσ hne hn
  exact ⟨hg.pos hσ hs.within, fun k hk => hg.ne hσ hs.within hj hk⟩

end Records

-- Five fragments of an object, of which the second and the fourth have come.
def sparse : Slot where
  key            := .zero
  txID           := .zero
  subtreeID      := .zero
  hashKey        := 7
  seqNum         := 10
  origPayloadLen := 5
  fragTotal      := 5
  received       := 2
  held           := [false, true, false, true, false]
  fragSeq        := [0, 12, 0, 20, 0]
  groupIdx       := 0
  deadline       := 0
  born           := 0
  origFrameVer   := FrameVer.v2
  msgType        := 0

theorem sparse_interpolated :
    let σ : Nat → SeqNum := fun i => [10, 12, 15, 20, 21].getD i 0
    sparse.Records σ {1, 3} ∧ Stamping σ 5 ∧ sparse.missingSeqNums = [11, 13, 21] ∧
      sparse.missingSeqNums.length = sparse.fragTotal - sparse.received ∧
      ∀ n ∈ sparse.missingSeqNums, n ≠ 0 ∧ ∀ j ∈ ({1, 3} : Finset Nat), n ≠ σ j := by
  intro σ
  have hs : sparse.Records σ {1, 3} := ⟨by decide, by decide, by decide, by decide⟩
  have hlt : ∀ j < 5, ∀ i < j, σ i < σ j := by decide
  have hσ : Stamping σ 5 := ⟨fun i j hij hj => hlt j hj i hij, by decide, by decide⟩
  have ⟨hlen, _, hfree, _⟩ := hs.missingSeqNums_interpolate hσ ⟨1, by decide⟩
  exact ⟨hs, hσ, by decide, hlen, hfree⟩

-- The slot has taken `fs`, and keeps the SeqNum of each.
structure Numbered (fs : List FragFrame) (s : Slot) : Prop where
  made : Made fs s
  seqs : ∀ f ∈ fs, s.fragSeq[f.fragIndex]? = some f.seqNum

namespace Numbered

theorem kept (hs : Numbered fs s) (hk : s.Kept s') : Numbered fs s' := by
  refine ⟨hs.made.kept hk, ?_⟩
  have ⟨_, _, _, e⟩ := hk
  subst e
  exact hs.seqs

theorem receive (hs : Numbered fs s) (ht : s.Takes ff) (hl : s.checkFragLen ff = some size) :
    Numbered (fs ++ [ff]) (s.receive size ff) := by
  refine ⟨hs.made.receive ht hl, fun f hf => ?_⟩
  have ⟨_, _, e⟩ := s.receive_eq size ff
  have hlt : ff.fragIndex < s.fragSeq.length := hs.made.lengths.2.symm ▸ ht.2.1
  rw [e, List.getElem?_set]
  cases List.mem_append.mp hf
  case inl hf =>
    have hne : ff.fragIndex ≠ f.fragIndex := by
      intro e
      exact ht.2.2.1 (e ▸ (hs.made.held _).mpr (List.mem_map_of_mem hf))
    rw [if_neg hne]
    exact hs.seqs f hf
  case inr hf =>
    cases List.mem_singleton.mp hf
    rw [if_pos rfl, if_pos hlt]

theorem records (hs : Numbered fs s) (hσ : ∀ f ∈ fs, f.seqNum = σ f.fragIndex) :
    s.Records σ (fs.map FragFrame.fragIndex).toFinset where
  within j hj := by
    have ⟨f, hf, e⟩ := List.mem_map.mp (List.mem_toFinset.mp hj)
    exact Finset.mem_range.mpr (e ▸ hs.made.within hf)
  held j _ := by rw [hs.made.held j, List.mem_toFinset]
  fragSeq j hj := by
    have ⟨f, hf, e⟩ := List.mem_map.mp (List.mem_toFinset.mp hj)
    rw [← e, hs.seqs f hf, hσ f hf]
  received := by
    rw [hs.made.received, List.toFinset_card_of_nodup hs.made.nodup, List.length_map]

end Numbered
end Slot

open Buffer

variable {ω : Type} {fmt : Formats} {cfg : Config} {h : Hooks ω}

theorem numbered : Parts.Rule fmt cfg h (fun _ => True) Slot.Numbered where
  kept _ _ _ hs hk           := hs.kept hk
  newSlot _ _ _ _ _          := ⟨.newSlot, nofun⟩
  receive _ _ _ _ _ hs ht hl := hs.receive ht hl

-- So in every run the slots record the SeqNums of the fragments they have taken.
theorem exec_records {w : ω} {ops : List Op} :
    let q := Run.exec (traced fmt cfg h) (({}, w), fun _ => []) ops
    ∀ key s, q.1.1.slots.lookup key = some s → (∀ f ∈ q.2 key, f.seqNum = σ f.fragIndex) →
      s.Records σ ((q.2 key).map FragFrame.fragIndex).toFinset := by
  intro q key s hl hσ
  have hcarries (op : Op) : op.Carries fun _ => True := by cases op <;> trivial
  have hq : Recorded Slot.Numbered q :=
    Run.exec_of_step _ (fun _ op hq => numbered.step hq (hcarries op)) .empty
  exact (hq.all key s hl).records hσ

end Reassembly
