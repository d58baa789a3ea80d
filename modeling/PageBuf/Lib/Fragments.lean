import Mathlib.Tactic.Common

/-!
# Fragments — two cursors over two fragmentations

A sequence may be cut into fragments in many ways, and a cursor stands in one
of them at an offset. Two cursors that move together over two fragmentations
of one length stand at different offsets of their fragments. Moving on by the
shorter of the two whole fragments keeps both cursors inside exactly if no two
fragments straddle one another.
-/

namespace Fragments

/-- An offset in the first of the fragments that are left, given by their
lengths. -/
structure Place where
  offset : Nat
  left : List Nat
deriving DecidableEq, Repr

/-- `n` items on, inside the fragment or to the next one. -/
def Place.move (n : Nat) : Place → Place
  | ⟨off, []⟩ => ⟨off, []⟩
  | ⟨off, t :: ts⟩ => if off + n = t then ⟨0, ts⟩ else ⟨off + n, t :: ts⟩

/-- The cursor stands before an item of its fragment, or behind the last. -/
def Place.Inside : Place → Prop
  | ⟨off, []⟩ => off = 0
  | ⟨off, t :: _⟩ => off < t

/-- The shorter of two fragments, or what is left to go. -/
def piece (t s len : Nat) : Nat := min s (min t len)

/-- The piece fits into what is left of both fragments. -/
def PieceFits (len : Nat) : Place → Place → Prop
  | ⟨off, t :: _⟩, ⟨off', s :: _⟩ =>
      len ≠ 0 → off + piece t s len ≤ t ∧ off' + piece t s len ≤ s
  | _, _ => True

/-- The stretches the fragments cover, the first of them from `a` on. -/
def spans : Nat → List Nat → List (Nat × Nat)
  | _, [] => []
  | a, t :: ts => (a, a + t) :: spans (a + t) ts

/-- Of the first `n` items the two stretches have none in common, or one has
all that the other has. -/
def Laminar (n : Nat) (x y : Nat × Nat) : Prop :=
  min x.2 n ≤ y.1 ∨ min y.2 n ≤ x.1 ∨ (x.1 ≤ y.1 ∧ min y.2 n ≤ x.2) ∨
    (y.1 ≤ x.1 ∧ min x.2 n ≤ y.2)

instance (n : Nat) (x y : Nat × Nat) : Decidable (Laminar n x y) :=
  inferInstanceAs (Decidable (_ ∨ _))

def AllLaminar (n : Nat) (X Y : List (Nat × Nat)) : Prop :=
  ∀ x ∈ X, ∀ y ∈ Y, Laminar n x y

instance (n : Nat) (X Y : List (Nat × Nat)) : Decidable (AllLaminar n X Y) :=
  inferInstanceAs (Decidable (∀ _ ∈ _, _))

/-- No fragment of one fragmentation straddles one of the other. -/
def Nested (n : Nat) (ts ss : List Nat) : Prop := AllLaminar n (spans 0 ts) (spans 0 ss)

instance (n : Nat) (ts ss : List Nat) : Decidable (Nested n ts ss) :=
  inferInstanceAs (Decidable (AllLaminar _ _ _))

/-- The same for the fragments that are left, with both cursors at `k`. -/
def NestedFrom (n k : Nat) (P Q : Place) : Prop :=
  AllLaminar n (spans (k - P.offset) P.left) (spans (k - Q.offset) Q.left)

variable {n k len off off' m t s a c : Nat} {ts ss : List Nat} {P Q : Place} {x y : Nat × Nat}
  {X Y : List (Nat × Nat)}

theorem Place.move_cons : Place.move m ⟨off, t :: ts⟩ =
    if off + m = t then ⟨0, ts⟩ else ⟨off + m, t :: ts⟩ := rfl

/-- A piece that fits leaves the cursor inside. -/
theorem Place.Inside.move (hfit : off + m ≤ t) (hts : ∀ u ∈ ts, 0 < u) :
    (Place.move m ⟨off, t :: ts⟩).Inside := by
  rw [Place.move_cons]
  by_cases he : off + m = t
  · rw [if_pos he]
    cases ts with
    | nil => rfl
    | cons u ts => exact hts u List.mem_cons_self
  · rw [if_neg he]
    exact Nat.lt_of_le_of_ne hfit he

theorem pieceFits_of_nil (hnil : P.left = [] ∨ Q.left = []) : PieceFits len P Q := by
  obtain ⟨off, ts⟩ := P
  obtain ⟨off', ss⟩ := Q
  rcases hnil with hnil | hnil
  · cases hnil
    trivial
  · cases hnil
    cases ts <;> trivial

theorem NestedFrom.of_nil (hnil : P.left = [] ∨ Q.left = []) : NestedFrom n k P Q := by
  intro x hx y hy
  rcases hnil with hnil | hnil
  · rw [hnil] at hx
    cases hx
  · rw [hnil] at hy
    cases hy

theorem le_of_mem_spans (hx : x ∈ spans a ts) : a ≤ x.1 := by
  induction ts generalizing a with
  | nil => cases hx
  | cons t ts ih =>
      rcases List.mem_cons.mp hx with rfl | hx
      · exact Nat.le_refl _
      · have := ih hx
        omega

/-- The fragments that are left lie behind the cursor, but for the one it is in. -/
theorem behind_or_around (hP : P.Inside) (hk : P.offset ≤ k)
    (hx : x ∈ spans (k - P.offset) P.left) : k ≤ x.1 ∨ (x.1 ≤ k ∧ k ≤ x.2) := by
  obtain ⟨off, ts⟩ := P
  cases ts with
  | nil => cases hx
  | cons t ts =>
      have hin : off < t := hP
      dsimp only at hk hx
      rcases List.mem_cons.mp hx with rfl | hx
      · right
        dsimp only
        omega
      · left
        have := le_of_mem_spans hx
        omega

/-- With nothing to go nothing can straddle. -/
theorem nestedFrom_zero (hP : P.Inside) (hQ : Q.Inside) (hk : P.offset ≤ k) (hk' : Q.offset ≤ k) :
    NestedFrom k k P Q := by
  intro x hx y hy
  have hx₁ := behind_or_around hP hk hx
  have hy₁ := behind_or_around hQ hk' hy
  unfold Laminar
  omega

theorem Laminar.symm (hl : Laminar n x y) : Laminar n y x := by
  unfold Laminar at hl ⊢
  tauto

/-- A fragment is laminar to all of a fragmentation if it is to the first of
them and ends with it at the latest. -/
theorem laminar_all (hhead : Laminar n x (c, c + s)) (hend : x.2 ≤ c + s) :
    ∀ y ∈ spans c (s :: ss), Laminar n x y := by
  intro y hy
  rcases List.mem_cons.mp hy with rfl | hy
  · exact hhead
  · have := le_of_mem_spans hy
    exact .inl (by omega)

/-- Passing a fragment that all the others are laminar to. -/
theorem allLaminar_cons_left (hall : ∀ y ∈ Y, Laminar n x y) :
    AllLaminar n (x :: X) Y ↔ AllLaminar n X Y := by
  rw [AllLaminar, List.forall_mem_cons]
  exact and_iff_right hall

theorem allLaminar_cons_right (hall : ∀ x ∈ X, Laminar n x y) :
    AllLaminar n X (y :: Y) ↔ AllLaminar n X Y := by
  constructor
  · intro h x hx z hz
    exact h x hx z (List.mem_cons_of_mem y hz)
  · intro h x hx z hz
    rcases List.mem_cons.mp hz with rfl | hz
    · exact hall x hx
    · exact h x hx z hz

/-- The fragments that are left after a move. -/
theorem spans_move (hk : off ≤ k) :
    spans (k + m - (Place.move m ⟨off, t :: ts⟩).offset) (Place.move m ⟨off, t :: ts⟩).left
      = if off + m = t then spans (k - off + t) ts else spans (k - off) (t :: ts) := by
  rw [Place.move_cons]
  by_cases he : off + m = t
  · rw [if_pos he, if_pos he, show k + m - 0 = k - off + t by omega]
  · rw [if_neg he, if_neg he, show k + m - (off + m) = k - off by omega]

section Step

variable (hal : off = 0 ∨ off' = 0) (hin : off < t) (hin' : off' < s) (hk : off ≤ k)
  (hk' : off' ≤ k) (hlen : len ≠ 0)

include hal hin hin' hk hk' hlen

/-- Where at least one cursor is at the head of its fragment, the piece fits
exactly if the two fragments are laminar. -/
theorem pieceFits_iff : PieceFits len ⟨off, t :: ts⟩ ⟨off', s :: ss⟩ ↔
    Laminar (k + len) (k - off, k - off + t) (k - off', k - off' + s) := by
  simp only [PieceFits, piece, Laminar, ne_eq, hlen, not_false_eq_true, forall_const]
  constructor
  · intro hfit
    omega
  · intro hlam
    omega

/-- **One piece**: no fragments straddle one another if the first two do not and
none do that are left behind the piece. -/
theorem nestedFrom_step : NestedFrom (k + len) k ⟨off, t :: ts⟩ ⟨off', s :: ss⟩ ↔
    PieceFits len ⟨off, t :: ts⟩ ⟨off', s :: ss⟩ ∧
      NestedFrom (k + len) (k + piece t s len) (Place.move (piece t s len) ⟨off, t :: ts⟩)
        (Place.move (piece t s len) ⟨off', s :: ss⟩) := by
  have hiff : PieceFits len ⟨off, t :: ts⟩ ⟨off', s :: ss⟩ ↔
      Laminar (k + len) (k - off, k - off + t) (k - off', k - off' + s) :=
    pieceFits_iff hal hin hin' hk hk' hlen
  by_cases hfit : PieceFits len ⟨off, t :: ts⟩ ⟨off', s :: ss⟩
  · have hhead := hiff.mp hfit
    obtain ⟨hft, hfs⟩ := hfit hlen
    rw [and_iff_right hfit, NestedFrom, NestedFrom, spans_move hk, spans_move hk']
    dsimp only
    -- first the one fragment is passed, if it ends here
    have hleft : AllLaminar (k + len) (spans (k - off) (t :: ts)) (spans (k - off') (s :: ss)) ↔
        AllLaminar (k + len) (if off + piece t s len = t then spans (k - off + t) ts
          else spans (k - off) (t :: ts)) (spans (k - off') (s :: ss)) := by
      by_cases he : off + piece t s len = t
      · rw [if_pos he]
        exact allLaminar_cons_left (laminar_all hhead (by dsimp only; omega))
      · rw [if_neg he]
    rw [hleft]
    -- then the other
    by_cases he' : off' + piece t s len = s
    · rw [if_pos he']
      have hall : ∀ x ∈ spans (k - off) (t :: ts),
          Laminar (k + len) x (k - off', k - off' + s) := fun x hx =>
        (laminar_all hhead.symm (by dsimp only; omega) x hx).symm
      refine allLaminar_cons_right (fun x hx => hall x ?_)
      by_cases he : off + piece t s len = t
      · rw [if_pos he] at hx
        exact List.mem_cons_of_mem _ hx
      · rwa [if_neg he] at hx
    · rw [if_neg he']
  · constructor
    · intro hn
      exact absurd (hiff.mpr (hn _ List.mem_cons_self _ List.mem_cons_self)) hfit
    · intro hn
      exact absurd hn.1 hfit

end Step

/-- A piece ends with one of the fragments, or with what is left to go. -/
theorem offset_move (hfits : PieceFits len ⟨off, t :: ts⟩ ⟨off', s :: ss⟩) (hlen : len ≠ 0) :
    len - piece t s len = 0 ∨ (Place.move (piece t s len) ⟨off, t :: ts⟩).offset = 0 ∨
      (Place.move (piece t s len) ⟨off', s :: ss⟩).offset = 0 := by
  obtain ⟨hft, hfs⟩ := hfits hlen
  by_cases hrest : len ≤ piece t s len
  · exact .inl (by omega)
  · right
    have hend : off + piece t s len = t ∨ off' + piece t s len = s := by
      unfold piece at *
      omega
    rcases hend with he | he
    · left
      rw [Place.move_cons, if_pos he]
    · right
      rw [Place.move_cons, if_pos he]

end Fragments
