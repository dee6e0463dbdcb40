import Mathlib.Data.List.Nodup
import Mathlib.Tactic

-- Queues of keys with a bound on their length, the oldest key first. A key that is pushed on a full
-- queue takes the place of the oldest one.
namespace Fifo

variable {κ : Type} {cap : Nat} {q ks : List κ} {k key : κ}

def push (cap : Nat) (q : List κ) (key : κ) : List κ :=
  (if cap ≤ q.length then q.tail else q) ++ [key]

-- `k` is in the queue, and the keys that came after it are among `ks`.
def Behind (k : κ) (ks q : List κ) : Prop :=
  ∃ older newer, q = older ++ k :: newer ∧ newer ⊆ ks

theorem push_sublist : (push cap q key).Sublist (q ++ [key]) := by
  simp only [push]
  split
  case isTrue  => exact q.tail_sublist.append_right [key]
  case isFalse => exact .refl _

theorem mem_of_mem_push (hm : k ∈ push cap q key) : k = key ∨ k ∈ q := by
  have hm := push_sublist.subset hm
  rw [List.mem_append, List.mem_singleton] at hm
  exact hm.symm

theorem mem_push_self : key ∈ push cap q key :=
  List.mem_append_right _ List.mem_cons_self

theorem nodup_snoc (hn : q.Nodup) (hk : key ∉ q) : (q ++ [key]).Nodup :=
  List.concat_eq_append ▸ hn.concat hk

theorem nodup_push (hn : q.Nodup) (hk : key ∉ q) : (push cap q key).Nodup :=
  push_sublist.nodup (nodup_snoc hn hk)

theorem length_push_le (hc : 0 < cap) (hq : q.length ≤ cap) : (push cap q key).length ≤ cap := by
  simp only [push, List.length_append, List.length_singleton]
  split
  case isTrue  => rw [List.length_tail]; omega
  case isFalse => omega

theorem behind_push : Behind key [] (push cap q key) :=
  ⟨_, [], rfl, List.nil_subset _⟩

namespace Behind

theorem mem (hb : Behind k ks q) : k ∈ q := by
  have ⟨older, newer, e, _⟩ := hb
  rw [e]
  exact List.mem_append_right _ List.mem_cons_self

theorem filter {keep : κ → Bool} (hb : Behind k ks q) (hk : keep k = true) :
    Behind k ks (q.filter keep) := by
  have ⟨older, newer, e, hs⟩ := hb
  refine ⟨older.filter keep, newer.filter keep, ?_, fun _ ha => hs (List.mem_of_mem_filter ha)⟩
  rw [e, List.filter_append, List.filter_cons_of_pos hk]

variable [DecidableEq κ]

-- A key leaves a queue of `cap` keys only when `cap` others have come after it.
theorem push (hb : Behind k ks q) (hn : q.Nodup) (hk : key ∉ q)
    (hlt : (ks.insert key).length < cap) : Behind k (ks.insert key) (push cap q key) := by
  have ⟨older, newer, e, hs⟩ := hb
  have hsub : newer ++ [key] ⊆ ks.insert key := by
    intro a ha
    rw [List.mem_append, List.mem_singleton] at ha
    exact List.mem_insert_iff.mpr (ha.symm.imp_right fun ha => hs ha)
  simp only [Fifo.push]
  split
  case isFalse => exact ⟨older, newer ++ [key], by simp [e], hsub⟩
  case isTrue hfull =>
    cases older
    case cons oldest older => exact ⟨older, newer ++ [key], by simp [e], hsub⟩
    case nil =>
      rw [e, List.nil_append] at hn hk
      have hnodup := nodup_snoc hn.of_cons fun hm => hk (List.mem_cons_of_mem k hm)
      have hle := (hnodup.subperm hsub).length_le
      simp only [e, List.nil_append, List.length_cons] at hfull
      simp only [List.length_append, List.length_singleton] at hle
      omega

end Behind
end Fifo
