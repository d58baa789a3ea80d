import Mathlib.Tactic.Common

/-!
# Sequence — a sequence that can be changed at both ends and in the middle

The abstract data type behind buffers of every kind: what each operation does
to a list and what it answers. Items that an operation adds without saying
which are left open, so a step is a relation.
-/

namespace Sequence

variable {α : Type}

/-- `t` put into `s` at place `i`. -/
def splice (s : List α) (i : Nat) (t : List α) : List α := s.take i ++ t ++ s.drop i

@[simp] theorem splice_length (s t : List α) : splice s s.length t = s ++ t := by
  simp [splice]

/-- `t` written over `s` from place `i` on. -/
def overwrite (s : List α) (i : Nat) (t : List α) : List α :=
  s.take i ++ t ++ s.drop (i + t.length)

theorem length_overwrite {s t : List α} {i : Nat} (hle : i + t.length ≤ s.length) :
    (overwrite s i t).length = s.length := by
  simp only [overwrite, List.length_append, List.length_take, List.length_drop]
  omega

theorem overwrite_nil (s : List α) (i : Nat) : overwrite s i [] = s := by
  simp [overwrite]

/-- Overwriting a part is overwriting the whole further on. -/
theorem overwrite_append {p t : List α} {i : Nat} (hp : i + t.length ≤ p.length)
    (s u : List α) : s ++ overwrite p i t ++ u = overwrite (s ++ p ++ u) (s.length + i) t := by
  have hle : i ≤ p.length := by omega
  simp only [overwrite, List.append_assoc, Nat.add_assoc, List.take_length_add_append,
    List.drop_length_add_append, List.take_append_of_le_length hle,
    List.drop_append_of_le_length hp]

/-- Going on where the overwriting has stopped. -/
theorem overwrite_next {t : List α} {i : Nat} (u : List α) (hi : (t.take i).length = i)
    (k : Nat) (hk : ((t.drop i).take k).length = k) :
    overwrite (t.take i ++ u.drop i) i ((t.drop i).take k)
      = t.take (i + k) ++ u.drop (i + k) := by
  have hdrop : (t.take i ++ u.drop i).drop (i + k) = u.drop (i + k) := by
    rw [← List.drop_drop, List.drop_left' hi, List.drop_drop]
  rw [overwrite, hk, List.take_left' hi, hdrop, List.take_add]

/-- What is written behind what was written is written with it. -/
theorem overwrite_further {s t : List α} {i : Nat} (hi : i ≤ s.length) (u : List α) :
    overwrite (overwrite s i t) (i + t.length) u = overwrite s i (t ++ u) := by
  have hlen : (s.take i ++ t).length = i + t.length := by
    rw [List.length_append, List.length_take, Nat.min_eq_left hi]
  simp only [overwrite]
  rw [List.take_left' hlen, ← List.drop_drop, List.drop_left' hlen, List.drop_drop,
    List.length_append, Nat.add_assoc, List.append_assoc (s.take i) t u]

/-- A stretch of a part is a stretch of the whole further on. -/
theorem stretch_append {p : List α} {i k : Nat} (hp : i + k ≤ p.length) (s u : List α) :
    ((s ++ (p ++ u)).drop (s.length + i)).take k = (p.drop i).take k := by
  rw [List.drop_length_add_append, List.drop_append_of_le_length (by omega),
    List.take_append_of_le_length (by rw [List.length_drop]; omega)]

/-- Two stretches, one behind the other, are one. -/
theorem stretch_join (s : List α) {i j k : Nat} (hij : i ≤ j) (hjk : j ≤ k) :
    (s.take j).drop i ++ (s.take k).drop j = (s.take k).drop i := by
  have hcut : s.take j = (s.take k).take j := by rw [List.take_take, Nat.min_eq_left hjk]
  rw [hcut]
  generalize s.take k = t
  conv_rhs => rw [← List.take_append_drop j t, List.drop_append]
  by_cases hj : j ≤ t.length
  · rw [List.length_take, Nat.min_eq_left hj, Nat.sub_eq_zero_of_le hij, List.drop_zero]
  · rw [List.drop_of_length_le (show t.length ≤ j by omega), List.drop_nil]

inductive Op (α : Type) where
  | append (t : List α)
  | extend (n : Nat)
  | reserve (n : Nat)
  | rewind (n : Nat)
  | seek (n : Nat)
  | trim (n : Nat)
  | insert (i : Nat) (t : List α)
  | overwrite (t : List α)
  | read (n : Nat)
  | clear

inductive Answer (α : Type) where
  | done
  | count (n : Nat)
  | items (t : List α)
deriving DecidableEq, Repr

/-- `Step op s a s'`: on `s` the operation answers `a` and leaves `s'`. -/
def Step : Op α → List α → Answer α → List α → Prop
  | .append t, s, a, s' => a = .count t.length ∧ s' = s ++ t
  | .extend n, s, a, s' => a = .count n ∧ ∃ t, t.length = n ∧ s' = s ++ t
  | .reserve n, s, a, s' =>
      a = .count (n - s.length) ∧ ∃ t, t.length = n - s.length ∧ s' = s ++ t
  | .rewind n, s, a, s' => a = .count n ∧ ∃ t, t.length = n ∧ s' = t ++ s
  | .seek n, s, a, s' => a = .count (min n s.length) ∧ s' = s.drop (min n s.length)
  | .trim n, s, a, s' =>
      a = .count (min n s.length) ∧ s' = s.take (s.length - min n s.length)
  | .insert i t, s, a, s' => a = .count t.length ∧ s' = splice s i t
  | .overwrite t, s, a, s' =>
      a = .count (min t.length s.length) ∧
        s' = t.take (min t.length s.length) ++ s.drop (min t.length s.length)
  | .read n, s, a, s' => a = .items (s.take n) ∧ s' = s
  | .clear, _, a, s' => a = .done ∧ s' = []

/-- `Run s l s'`: the operations `l`, with their answers, lead from `s` to `s'`. -/
inductive Run : List α → List (Op α × Answer α) → List α → Prop where
  | nil (s : List α) : Run s [] s
  | snoc {s s' s'' : List α} {l : List (Op α × Answer α)} {op : Op α} {a : Answer α} :
      Run s l s' → Step op s' a s'' → Run s (l ++ [(op, a)]) s''

end Sequence
