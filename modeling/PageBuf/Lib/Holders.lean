import Mathlib.Data.List.Nodup
import Mathlib.Logic.Function.Basic
import Mathlib.Tactic.Common

/-!
# Holders — counting references

Objects are held by numbered holders: `f p = some d` says that holder `p`
refers to object `d`. `holders n f d` counts the holders below `n` that refer
to `d`. Reference counting is the claim that a stored counter follows this
number, so the lemmas say how the number moves when a holder is added,
dropped or redirected.
-/

namespace RefCount

variable {κ : Type} [DecidableEq κ] {n : Nat} {f g : Nat → Option κ} {d : κ}

/-- The number of holders below `n` that refer to `d`. -/
def holders (n : Nat) (f : Nat → Option κ) (d : κ) : Nat :=
  (List.range n).countP (fun p => f p = some d)

theorem holders_zero (f : Nat → Option κ) (d : κ) : holders 0 f d = 0 := rfl

theorem holders_succ (n : Nat) (f : Nat → Option κ) (d : κ) :
    holders (n + 1) f d = holders n f d + if f n = some d then 1 else 0 := by
  simp [holders, List.range_succ, List.countP_append, List.countP_cons]

theorem holders_le (n : Nat) (f : Nat → Option κ) (d : κ) : holders n f d ≤ n := by
  have h := List.countP_le_length (p := fun p => f p = some d) (l := List.range n)
  simpa [holders] using h

theorem holders_congr (h : ∀ p, p < n → f p = g p) : holders n f d = holders n g d := by
  unfold holders
  refine List.countP_congr ?_
  intro p hp
  simp [h p (List.mem_range.mp hp)]

theorem holders_pos_iff : 0 < holders n f d ↔ ∃ p, p < n ∧ f p = some d := by
  simp [holders, List.countP_pos_iff]

theorem holders_mono (h : ∀ p, p < n → f p = some d → g p = some d) :
    holders n f d ≤ holders n g d := by
  unfold holders
  refine List.countP_mono_left ?_
  intro p hp hfp
  simp only [decide_eq_true_eq] at hfp ⊢
  exact h p (List.mem_range.mp hp) hfp

/-- Numbers beyond the last holder do not matter. -/
theorem holders_extend {m : Nat} (hnm : n ≤ m) (h : ∀ p, n ≤ p → f p ≠ some d) :
    holders m f d = holders n f d := by
  obtain ⟨k, rfl⟩ := Nat.exists_eq_add_of_le hnm
  induction k with
  | zero => rfl
  | succ k ih =>
      rw [show n + (k + 1) = (n + k) + 1 by omega, holders_succ,
        ih (by omega), if_neg (h _ (by omega)), Nat.add_zero]

/-- **Redirecting** one holder moves one reference. -/
theorem holders_update {p : Nat} {v : Option κ} (hp : p < n) :
    holders n (Function.update f p v) d + (if f p = some d then 1 else 0)
      = holders n f d + if v = some d then 1 else 0 := by
  induction n with
  | zero => omega
  | succ n ih =>
      rw [holders_succ, holders_succ]
      rcases Nat.lt_or_ge p n with hlt | hge
      · rw [Function.update_of_ne (by omega : n ≠ p)]
        have := ih hlt
        omega
      · have hpn : p = n := by omega
        subst hpn
        rw [Function.update_self,
          holders_congr (g := f) (fun q hq => Function.update_of_ne (by omega) _ _)]
        omega

/-- The only holder is the only holder. -/
theorem eq_of_holders_eq_one {p q : Nat} (h : holders n f d = 1) (hp : p < n) (hq : q < n)
    (hfp : f p = some d) (hfq : f q = some d) : p = q := by
  by_contra hne
  have hu := holders_update (d := d) (f := f) (v := none) hp
  simp only [hfp, if_true, reduceCtorEq, if_false] at hu
  have hpos : 0 < holders n (Function.update f p none) d :=
    holders_pos_iff.mpr ⟨q, hq, by rw [Function.update_of_ne (Ne.symm hne), hfq]⟩
  omega

/-- Where at most one refers to it, at most one is counted. -/
theorem holders_le_one (h : ∀ p q, f p = some d → f q = some d → p = q) : holders n f d ≤ 1 := by
  by_cases hpos : 0 < holders n f d
  · obtain ⟨p, hp, hfp⟩ := holders_pos_iff.mp hpos
    have hu := holders_update (d := d) (f := f) (v := none) hp
    have hzero : ¬0 < holders n (Function.update f p none) d := by
      intro hpos'
      obtain ⟨q, -, hfq⟩ := holders_pos_iff.mp hpos'
      by_cases hqp : q = p
      · rw [hqp, Function.update_self] at hfq
        cases hfq
      · rw [Function.update_of_ne hqp] at hfq
        exact hqp (h q p hfq hfp)
    rw [if_pos hfp, if_neg (by simp)] at hu
    omega
  · omega

/-- The number read off a list of all holders, each listed once. -/
theorem countP_eq_holders {l : List Nat} (hnd : l.Nodup) (hlt : ∀ p ∈ l, p < n)
    (hall : ∀ p, p < n → f p = some d → p ∈ l) :
    l.countP (fun p => f p = some d) = holders n f d := by
  have hperm : (l.filter (fun p => f p = some d)).Perm
      ((List.range n).filter (fun p => f p = some d)) := by
    refine (List.perm_ext_iff_of_nodup (hnd.filter _) (List.nodup_range.filter _)).mpr ?_
    intro p
    simp only [List.mem_filter, List.mem_range, decide_eq_true_eq]
    exact ⟨fun h => ⟨hlt p h.1, h.2⟩, fun h => ⟨hall p h.1 h.2, h.2⟩⟩
  simpa [holders, List.countP_eq_length_filter] using hperm.length_eq

end RefCount
