import Mathlib.Data.List.Infix
import Mathlib.Tactic.Common

/-!
# Cursor — reading a sequence that grows

A cursor is a place in a sequence. The sequence grows at its end, and a read
delivers the items from the place on and moves it behind them. Whatever the
order of the two, the reads together deliver a stretch of the sequence.
-/

namespace Cursor

variable {α : Type}

inductive Event (α : Type) where
  | grow (t : List α)
  | read (n : Nat) (out : List α)
deriving DecidableEq, Repr

/-- `Run s p l s' p'`: the events `l` lead from place `p` in `s` to `p'` in `s'`. -/
inductive Run : List α → Nat → List (Event α) → List α → Nat → Prop where
  | nil (s : List α) (p : Nat) : Run s p [] s p
  | grow {s s' : List α} {p p' : Nat} {l : List (Event α)} (t : List α) :
      Run s p l s' p' → Run s p (l ++ [.grow t]) (s' ++ t) p'
  | read {s s' : List α} {p p' : Nat} {l : List (Event α)} (n : Nat) :
      Run s p l s' p' → Run s p (l ++ [.read n ((s'.drop p').take n)]) s'
        (p' + ((s'.drop p').take n).length)

def Event.out : Event α → List α
  | .grow _ => []
  | .read _ out => out

/-- What all reads together have delivered. -/
def delivered (l : List (Event α)) : List α := l.flatMap Event.out

theorem delivered_concat (l : List (Event α)) (e : Event α) :
    delivered (l ++ [e]) = delivered l ++ e.out := by
  simp [delivered]

/-- **The reads deliver** what lies between the first place and the last. -/
theorem Run.delivered {s s' : List α} {p p' : Nat} {l : List (Event α)}
    (hrun : Run s p l s' p') (hp : p ≤ s.length) :
    p ≤ p' ∧ p' ≤ s'.length ∧ delivered l = (s'.take p').drop p := by
  induction hrun with
  | nil => exact ⟨Nat.le_refl _, hp, by simp [Cursor.delivered]⟩
  | grow t _ ih =>
      obtain ⟨hle, hlen, hout⟩ := ih hp
      refine ⟨hle, by rw [List.length_append]; omega, ?_⟩
      rw [delivered_concat, hout, Event.out, List.append_nil,
        List.take_append_of_le_length hlen]
  | read n _ ih =>
      obtain ⟨hle, hlen, hout⟩ := ih hp
      refine ⟨by omega, ?_, ?_⟩
      · rw [List.length_take, List.length_drop]
        omega
      · rw [delivered_concat, hout, Event.out, List.take_add, List.drop_append_of_le_length]
        · congr 1
          exact (List.take_eq_take_iff.mpr (by simp)).symm
        · rw [List.length_take]
          omega

end Cursor
