import Mathlib.Data.List.TakeWhile
import Mathlib.Data.List.Infix
import Mathlib.Tactic.Common

/-!
# Framing — pieces of a stream that end with a delimiter

A stream is cut into frames by a delimiter that no frame body contains. What
has arrived of a stream is a prefix of it, and `front`, the items before the
first delimiter, is all that can be said of the first frame.
-/

namespace Framing

variable {α : Type} [DecidableEq α] {d : α} {s t body : List α} {k : Nat}

/-- The items before the first delimiter. -/
def front (d : α) (s : List α) : List α := s.takeWhile (· ≠ d)

theorem front_isPrefix (d : α) (s : List α) : front d s <+: s := List.takeWhile_prefix _

theorem length_front_le (d : α) (s : List α) : (front d s).length ≤ s.length :=
  (front_isPrefix d s).length_le

theorem front_eq_take (d : α) (s : List α) : front d s = s.take (front d s).length :=
  List.prefix_iff_eq_take.mp (front_isPrefix d s)

@[simp] theorem front_nil (d : α) : front d [] = [] := rfl

theorem front_cons_self (s : List α) : front d (d :: s) = [] := by
  simp [front]

theorem front_cons_of_ne {c : α} (hc : c ≠ d) (s : List α) :
    front d (c :: s) = c :: front d s := by
  simp [front, hc]

/-- The front ends where the delimiter is first found. -/
theorem length_front (d : α) (s : List α) : (front d s).length = s.idxOf d := by
  induction s with
  | nil => rfl
  | cons c s ih =>
      by_cases hc : c = d
      · rw [hc, front_cons_self, List.idxOf_cons_self, List.length_nil]
      · rw [front_cons_of_ne hc, List.length_cons, ih, List.idxOf_cons_ne s hc]

/-- Before the end of the front there is no delimiter. -/
theorem getElem?_of_lt_front (hk : k < (front d s).length) : ∃ c, s[k]? = some c ∧ c ≠ d := by
  induction s generalizing k with
  | nil => simp at hk
  | cons c s ih =>
      by_cases hc : c = d
      · rw [hc, front_cons_self] at hk
        simp at hk
      · rw [front_cons_of_ne hc, List.length_cons] at hk
        cases k with
        | zero => exact ⟨c, by simp, hc⟩
        | succ k => simpa using ih (by omega)

/-- Behind the front stands the delimiter, or nothing. -/
theorem getElem?_front (hlt : (front d s).length < s.length) :
    s[(front d s).length]? = some d := by
  induction s with
  | nil => simp at hlt
  | cons c s ih =>
      by_cases hc : c = d
      · simp [hc, front_cons_self]
      · rw [front_cons_of_ne hc] at hlt ⊢
        simpa using ih (by simpa using hlt)

/-- More items do not change a front that has its delimiter. -/
theorem front_append (hlt : (front d s).length < s.length) (t : List α) :
    front d (s ++ t) = front d s := by
  induction s with
  | nil => simp at hlt
  | cons c s ih =>
      by_cases hc : c = d
      · rw [List.cons_append, hc, front_cons_self, front_cons_self]
      · rw [front_cons_of_ne hc] at hlt
        rw [List.cons_append, front_cons_of_ne hc, front_cons_of_ne hc, ih (by simpa using hlt)]

/-- More items make the front longer, if anything. -/
theorem front_prefix_append (d : α) (s t : List α) : front d s <+: front d (s ++ t) := by
  induction s with
  | nil => exact List.nil_prefix
  | cons c s ih =>
      by_cases hc : c = d
      · rw [hc, front_cons_self]
        exact List.nil_prefix
      · rw [List.cons_append, front_cons_of_ne hc, front_cons_of_ne hc]
        exact (List.prefix_cons_inj c).mpr ih

/-! ## A front that is cut at a length -/

/-- The front, as far as a reader looks that gives up after `n` items. -/
def cut (d : α) (n : Nat) (s : List α) : List α := (front d s).take n

theorem length_cut (d : α) (n : Nat) (s : List α) :
    (cut d n s).length = min n (front d s).length := List.length_take

theorem cut_isPrefix (d : α) (n : Nat) (s : List α) : cut d n s <+: s :=
  (List.take_prefix _ _).trans (front_isPrefix d s)

theorem length_cut_le (d : α) (n : Nat) (s : List α) : (cut d n s).length ≤ s.length :=
  (cut_isPrefix d n s).length_le

theorem cut_eq_take (d : α) (n : Nat) (s : List α) : cut d n s = s.take (cut d n s).length :=
  List.prefix_iff_eq_take.mp (cut_isPrefix d n s)

theorem cut_of_le {n : Nat} (hle : (front d s).length ≤ n) : cut d n s = front d s :=
  List.take_of_length_le hle

/-- The reader goes on exactly while it meets no delimiter and has not looked
at `n` items. -/
theorem lt_length_cut_iff {n : Nat} (hk : k ≤ (cut d n s).length) (hs : k < s.length) :
    k < (cut d n s).length ↔ s[k]? ≠ some d ∧ k ≠ n := by
  rw [length_cut] at hk ⊢
  constructor
  · intro hlt
    obtain ⟨c, hc, hne⟩ := getElem?_of_lt_front (d := d) (s := s) (k := k) (by omega)
    refine ⟨?_, by omega⟩
    rw [hc]
    exact fun he => hne (Option.some.inj he)
  · intro ⟨hd, hn⟩
    have hfront : k ≠ (front d s).length := by
      rintro rfl
      exact hd (getElem?_front hs)
    omega

/-- More items do not change a front that is complete. -/
theorem cut_append {n : Nat} (hlt : (cut d n s).length < s.length) (t : List α) :
    cut d n (s ++ t) = cut d n s := by
  by_cases hfront : (front d s).length < s.length
  · rw [cut, cut, front_append hfront]
  · -- there is no delimiter, and the reader has given up
    obtain ⟨t', ht'⟩ := front_prefix_append d s t
    have hall := length_front_le d s
    rw [length_cut] at hlt
    rw [cut, cut, ← ht', List.take_append_of_le_length (by omega)]

/-- More items make it longer, if anything. -/
theorem cut_prefix_append (d : α) (n : Nat) (s t : List α) : cut d n s <+: cut d n (s ++ t) :=
  (front_prefix_append d s t).take n

/-! ## Frames -/

theorem front_of_notMem (hb : d ∉ body) : front d body = body := by
  refine List.takeWhile_eq_self_iff.mpr fun c hc => ?_
  have hne : c ≠ d := by
    rintro rfl
    exact hb hc
  simpa using hne

theorem front_frame (hb : d ∉ body) (t : List α) : front d (body ++ d :: t) = body := by
  induction body with
  | nil => exact front_cons_self t
  | cons c body ih =>
      have hc : c ≠ d := fun he => hb (by simp [he])
      rw [List.cons_append, front_cons_of_ne hc, ih fun hm => hb (List.mem_cons_of_mem c hm)]

omit [DecidableEq α] in
/-- What has arrived of a stream is part of the first body, or reaches behind
the first frame. -/
theorem prefix_frame (hs : s <+: body ++ d :: t) :
    s <+: body ∨ ∃ s', s = body ++ d :: s' ∧ s' <+: t := by
  by_cases hle : s.length ≤ body.length
  · exact .inl (List.prefix_of_prefix_length_le hs (List.prefix_append _ _) hle)
  · right
    have hbody : body ++ [d] <+: s := by
      refine List.prefix_of_prefix_length_le ?_ hs (by simp; omega)
      exact ⟨t, by simp⟩
    obtain ⟨s', rfl⟩ := hbody
    refine ⟨s', by simp, ?_⟩
    have hcut : (body ++ [d]) ++ s' <+: (body ++ [d]) ++ t := by
      simpa using hs
    exact (List.prefix_append_right_inj _).mp hcut

/-- The first frame is there as soon as its front is not all there is. -/
theorem front_of_isPrefix (hb : d ∉ body) (hs : s <+: body ++ d :: t) :
    (front d s).length ≤ body.length ∧
      ((front d s).length < s.length → ∃ s', s = body ++ d :: s' ∧ s' <+: t) := by
  rcases prefix_frame hs with hpre | ⟨s', rfl, hs'⟩
  · have hself : front d s = s := front_of_notMem fun hm => hb (hpre.subset hm)
    rw [hself]
    exact ⟨hpre.length_le, fun hlt => absurd hlt (Nat.lt_irrefl _)⟩
  · rw [front_frame hb]
    exact ⟨Nat.le_refl _, fun _ => ⟨s', rfl, hs'⟩⟩

end Framing
