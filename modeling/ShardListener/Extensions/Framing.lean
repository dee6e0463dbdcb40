import Mathlib.Data.List.Infix
import Mathlib.Tactic

-- Messages on a byte stream. A reader takes one message off the head of the stream, or finds none.
namespace Framing

variable {α : Type}

-- The messages that a reader finds, up to `n` of them.
def readUpTo (next : List α → Option (List α × List α)) : Nat → List α → List (List α)
  | 0,     _ => []
  | n + 1, s =>
    match next s with
    | some (m, rest) => m :: readUpTo next n rest
    | none           => []

-- No message is empty, so that there are no more of them than the stream is long.
def read (next : List α → Option (List α × List α)) (s : List α) : List (List α) :=
  readUpTo next s.length s

-- The reader tells the messages of the format `M` apart: it finds one at the head of a stream,
-- whatever comes after it, and does not take the beginning of one for a message.
structure Delimits (next : List α → Option (List α × List α)) (M : List α → Prop) : Prop where
  ne_nil : ∀ {m}, M m → m ≠ []
  whole  : ∀ {m}, M m → ∀ rest, next (m ++ rest) = some (m, rest)
  cut    : ∀ {m c}, M m → c <+: m → c ≠ m → next c = none

namespace Delimits

variable {next : List α → Option (List α × List α)} {M : List α → Prop} {ms : List (List α)}
variable {m c : List α} {n : Nat}

theorem length_le_flatten (hd : Delimits next M) (hm : ∀ m ∈ ms, M m) :
    ms.length ≤ ms.flatten.length := by
  induction ms
  case nil => exact Nat.le_refl 0
  case cons m ms hi =>
    have hpos := List.length_pos_of_ne_nil (hd.ne_nil (hm m List.mem_cons_self))
    have hrest := hi fun m' h => hm m' (List.mem_cons_of_mem _ h)
    simp only [List.flatten_cons, List.length_append, List.length_cons]
    omega

theorem readUpTo_cut (hc : next c = none) : readUpTo next n c = [] := by
  cases n
  case zero => rfl
  case succ => simp only [readUpTo, hc]

theorem readUpTo_append (hd : Delimits next M) (hm : ∀ m ∈ ms, M m) (hc : next c = none)
    (hn : ms.length ≤ n) : readUpTo next n (ms.flatten ++ c) = ms := by
  induction ms generalizing n
  case nil => exact readUpTo_cut hc
  case cons m ms hi =>
    obtain ⟨n, rfl⟩ :=
      Nat.exists_eq_succ_of_ne_zero (Nat.ne_of_gt (Nat.lt_of_lt_of_le (Nat.succ_pos _) hn))
    have hrest := hi (fun m' h => hm m' (List.mem_cons_of_mem _ h)) (Nat.le_of_succ_le_succ hn)
    rw [List.flatten_cons, List.append_assoc, readUpTo, hd.whole (hm m List.mem_cons_self)]
    exact congrArg (m :: ·) hrest

-- The messages of a stream that breaks off are those that are whole.
theorem read_append (hd : Delimits next M) (hm : ∀ m ∈ ms, M m) (hc : next c = none) :
    read next (ms.flatten ++ c) = ms := by
  refine hd.readUpTo_append hm hc ?_
  rw [List.length_append]
  exact Nat.le_add_right_of_le (hd.length_le_flatten hm)

theorem read_flatten (hd : Delimits next M) (hm : ∀ m ∈ ms, M m) : read next ms.flatten = ms := by
  cases ms
  case nil => rfl
  case cons m ms =>
    have hfirst := hm m List.mem_cons_self
    have hread := hd.read_append hm (hd.cut hfirst List.nil_prefix (hd.ne_nil hfirst).symm)
    rwa [List.append_nil] at hread

theorem eq_nil_of_flatten (hd : Delimits next M) (hm : ∀ m ∈ ms, M m) (h : ms.flatten = []) :
    ms = [] := by
  have hlen := hd.length_le_flatten hm
  rw [h] at hlen
  exact List.eq_nil_of_length_eq_zero (Nat.le_zero.mp hlen)

end Delimits
end Framing
