import Mathlib.Data.List.Chain
import Mathlib.Data.List.Nodup
import Mathlib.Tactic.Common

/-!
# Ring — circular doubly linked lists with a sentinel

The two link fields of a heap of nodes are two partial functions `nx` and
`pv`. `IsRing nx pv e l` says that from the sentinel `e` the links lead
through exactly the nodes of `l`, in that order, and back to `e`, with `pv`
the inverse of `nx` all the way round.

A position in a ring is a cut `l = l₁ ++ l₂`: the node before it is
`l₁.getLastD e`, the node after it `l₂.headD e`, and an empty side means the
sentinel. Insertion and removal are stated on cuts, over any new link
functions that differ from the old ones only where the surgery is.
-/

namespace Ring

variable {ν : Type} {nx pv nx' pv' : ν → Option ν} {e x y : ν} {l l₁ l₂ : List ν}

/-- `b` follows `a`, seen from both sides. -/
def Adj (nx pv : ν → Option ν) (a b : ν) : Prop := nx a = some b ∧ pv b = some a

/-- The links lead from `e` through `l` and back. -/
structure IsRing (nx pv : ν → Option ν) (e : ν) (l : List ν) : Prop where
  nodup : (e :: l).Nodup
  chain : List.IsChain (Adj nx pv) (e :: l ++ [e])

/-! ## Cuts -/

theorem getLast?_cons_getLastD (e : ν) (l : List ν) :
    (e :: l).getLast? = some (l.getLastD e) := by
  cases l <;> simp [List.getLast?_cons, List.getLastD_eq_getLast?]

/-- The node after a cut, if there is one. -/
theorem exists_cons_of_headD (hx : x = l.headD e) (hl : l ≠ []) : ∃ k, l = x :: k := by
  cases l with
  | nil => exact absurd rfl hl
  | cons y k => exact ⟨k, by rw [hx, List.headD_cons]⟩

/-- The node behind a cut is in the ring. -/
theorem mem_cut (hl : l = l₁ ++ x :: l₂) : x ∈ l := by
  rw [hl]
  exact List.mem_append_cons_self

/-- An element of a list without repetition is on neither side of itself. -/
theorem notMem_of_nodup_cut (h : (l₁ ++ x :: l₂).Nodup) : x ∉ l₁ ∧ x ∉ l₂ := by
  have hx := (List.nodup_middle.mp h).notMem
  rwa [List.mem_append, not_or] at hx

/-- A list without repetition is cut at one of its elements in one way. -/
theorem cut_unique {m₁ m₂ : List ν} (h : (l₁ ++ x :: l₂).Nodup)
    (he : l₁ ++ x :: l₂ = m₁ ++ x :: m₂) : l₁ = m₁ ∧ l₂ = m₂ := by
  obtain ⟨hx₁, hx₂⟩ := notMem_of_nodup_cut h
  obtain ⟨hl, -, hm⟩ := (List.append_cons_inj_of_notMem hx₁ hx₂).mp he
  exact ⟨hl, hm⟩

theorem head?_append_headD (e : ν) (l : List ν) :
    (l ++ [e]).head? = some (l.headD e) := by
  cases l <;> simp

theorem getLastD_mem (e : ν) (l : List ν) : l.getLastD e ∈ e :: l :=
  List.mem_of_getLast? (getLast?_cons_getLastD e l)

theorem headD_mem (e : ν) (l : List ν) : l.headD e ∈ e :: l := by
  cases l <;> simp

@[simp] theorem getLastD_concat (e x : ν) (l : List ν) :
    (l ++ [x]).getLastD e = x := by
  simp [List.getLastD_eq_getLast?]

/-- A chain through both sides of a cut is a chain on each and the pair at
the cut. -/
theorem chain_cut (R : ν → ν → Prop) :
    List.IsChain R (e :: (l₁ ++ l₂) ++ [e]) ↔
      List.IsChain R (e :: l₁) ∧ List.IsChain R (l₂ ++ [e]) ∧
        R (l₁.getLastD e) (l₂.headD e) := by
  rw [show e :: (l₁ ++ l₂) ++ [e] = (e :: l₁) ++ (l₂ ++ [e]) by simp,
    List.isChain_append]
  simp only [getLast?_cons_getLastD, head?_append_headD, Option.mem_some_iff,
    forall_eq']

theorem IsRing.adj (h : IsRing nx pv e (l₁ ++ l₂)) :
    Adj nx pv (l₁.getLastD e) (l₂.headD e) := ((chain_cut _).mp h.chain).2.2

theorem IsRing.next_cut (h : IsRing nx pv e (l₁ ++ l₂)) :
    nx (l₁.getLastD e) = some (l₂.headD e) := h.adj.1

theorem IsRing.prev_cut (h : IsRing nx pv e (l₁ ++ l₂)) :
    pv (l₂.headD e) = some (l₁.getLastD e) := h.adj.2

theorem IsRing.next_end (h : IsRing nx pv e l) : nx e = some (l.headD e) :=
  IsRing.next_cut (show IsRing nx pv e ([] ++ l) from h)

theorem IsRing.prev_end (h : IsRing nx pv e l) : pv e = some (l.getLastD e) := by
  have h' : IsRing nx pv e (l ++ []) := by simpa using h
  exact h'.prev_cut

theorem IsRing.next_mem (h : IsRing nx pv e (l₁ ++ x :: l₂)) :
    nx x = some (l₂.headD e) := by
  have h' : IsRing nx pv e ((l₁ ++ [x]) ++ l₂) := by simpa using h
  simpa using h'.next_cut

theorem IsRing.prev_mem (h : IsRing nx pv e (l₁ ++ x :: l₂)) :
    pv x = some (l₁.getLastD e) := by
  have hcut := h.prev_cut
  exact hcut

theorem IsRing.next_isSome (h : IsRing nx pv e l) (hy : y ∈ e :: l) :
    (nx y).isSome := by
  rcases List.mem_cons.mp hy with rfl | hy
  · simp [h.next_end]
  · obtain ⟨k₁, k₂, rfl⟩ := List.append_of_mem hy
    simp [h.next_mem]

theorem IsRing.prev_isSome (h : IsRing nx pv e l) (hy : y ∈ e :: l) :
    (pv y).isSome := by
  rcases List.mem_cons.mp hy with rfl | hy
  · simp [h.prev_end]
  · obtain ⟨k₁, k₂, rfl⟩ := List.append_of_mem hy
    simp [h.prev_mem]

theorem IsRing.prev_next (h : IsRing nx pv e l) (hy : y ∈ e :: l) :
    (nx y).bind pv = some y := by
  rcases List.mem_cons.mp hy with rfl | hy
  · have hcut : IsRing nx pv y ([] ++ l) := h
    rw [h.next_end, Option.bind_some]
    exact hcut.prev_cut
  · obtain ⟨k₁, k₂, rfl⟩ := List.append_of_mem hy
    have hcut : IsRing nx pv e ((k₁ ++ [y]) ++ k₂) := by simpa using h
    rw [h.next_mem, Option.bind_some, hcut.prev_cut, getLastD_concat]

theorem IsRing.next_prev (h : IsRing nx pv e l) (hy : y ∈ e :: l) :
    (pv y).bind nx = some y := by
  rcases List.mem_cons.mp hy with rfl | hy
  · have hcut : IsRing nx pv y (l ++ []) := by simpa using h
    rw [h.prev_end, Option.bind_some]
    exact hcut.next_cut
  · obtain ⟨k₁, k₂, rfl⟩ := List.append_of_mem hy
    have hcut : IsRing nx pv e (k₁ ++ y :: k₂) := h
    rw [h.prev_mem, Option.bind_some]
    exact hcut.next_cut

/-! ## Surgery -/

theorem isRing_nil (hn : nx e = some e) (hp : pv e = some e) :
    IsRing nx pv e [] where
  nodup := by simp
  chain := by simp [Adj, hn, hp]

/-- A duplicate-free chain survives a change of `nx` at its last node and of
`pv` at its first. -/
theorem chain_congr {L : List ν} (hL : L.Nodup)
    (h : List.IsChain (Adj nx pv) L)
    (hn : ∀ y ∈ L, L.getLast? ≠ some y → nx' y = nx y)
    (hp : ∀ y ∈ L, L.head? ≠ some y → pv' y = pv y) :
    List.IsChain (Adj nx' pv') L := by
  induction L with
  | nil => exact .nil
  | cons a L ih =>
      cases L with
      | nil => exact .singleton a
      | cons b L =>
          obtain ⟨hab, hb⟩ := List.isChain_cons_cons.mp h
          have ha : a ∉ b :: L := (List.nodup_cons.mp hL).1
          have hlast : (a :: b :: L).getLast? = (b :: L).getLast? := by simp
          have hne : (b :: L).getLast? ≠ some a :=
            fun heq => ha (List.mem_of_getLast? heq)
          refine List.isChain_cons_cons.mpr ⟨⟨?_, ?_⟩, ih hL.of_cons hb ?_ ?_⟩
          · rw [hn a (by simp) (by rwa [hlast])]
            exact hab.1
          · rw [hp b (by simp) (by simpa using fun heq : a = b => ha (by simp [heq]))]
            exact hab.2
          · intro y hy hl
            exact hn y (List.mem_cons_of_mem a hy) (by rwa [hlast])
          · intro y hy _
            refine hp y (List.mem_cons_of_mem a hy) ?_
            simpa using fun heq : a = y => ha (heq ▸ hy)

/-- A ring none of whose nodes is touched is still a ring. -/
theorem IsRing.congr (h : IsRing nx pv e l) (hn : ∀ y ∈ e :: l, nx' y = nx y)
    (hp : ∀ y ∈ e :: l, pv' y = pv y) : IsRing nx' pv' e l := by
  refine ⟨h.nodup, h.chain.imp_of_mem_imp ?_⟩
  have hmem : ∀ {z}, z ∈ e :: l ++ [e] → z ∈ e :: l := by
    intro z hz
    simp only [List.mem_append, List.mem_singleton] at hz
    rcases hz with hz | rfl
    · exact hz
    · simp
  intro a b ha hb hab
  exact ⟨(hn a (hmem ha)).trans hab.1, (hp b (hmem hb)).trans hab.2⟩

section Cut

variable (hn : ∀ y ∈ e :: (l₁ ++ l₂), y ≠ l₁.getLastD e → nx' y = nx y)
  (hp : ∀ y ∈ e :: (l₁ ++ l₂), y ≠ l₂.headD e → pv' y = pv y)

include hn hp

/-- Both sides of a cut survive new links at the cut. -/
theorem sides_congr (hnd : (e :: (l₁ ++ l₂)).Nodup)
    (hl : List.IsChain (Adj nx pv) (e :: l₁))
    (hr : List.IsChain (Adj nx pv) (l₂ ++ [e])) :
    List.IsChain (Adj nx' pv') (e :: l₁) ∧
      List.IsChain (Adj nx' pv') (l₂ ++ [e]) := by
  obtain ⟨he, hnd'⟩ := List.nodup_cons.mp hnd
  obtain ⟨hd₁, hd₂, hdisj⟩ := List.nodup_append.mp hnd'
  have he₁ : e ∉ l₁ := fun hm => he (List.mem_append_left _ hm)
  have he₂ : e ∉ l₂ := fun hm => he (List.mem_append_right _ hm)
  constructor
  · refine chain_congr (List.nodup_cons.mpr ⟨he₁, hd₁⟩) hl ?_ ?_
    · intro y hy hlast
      refine hn y ?_ (fun heq => hlast ?_)
      · simp only [List.mem_cons, List.mem_append] at hy ⊢
        exact hy.imp id Or.inl
      · rw [getLast?_cons_getLastD, heq]
    · intro y hy hhead
      have hy₁ : y ∈ l₁ := by
        rcases List.mem_cons.mp hy with rfl | hy
        · simp at hhead
        · exact hy
      refine hp y (by simp [hy₁]) (fun heq => ?_)
      rcases List.mem_cons.mp (headD_mem e l₂) with h0 | h0
      · exact he₁ (h0 ▸ heq ▸ hy₁)
      · exact hdisj y hy₁ _ h0 heq
  · have hd : (l₂ ++ [e]).Nodup := by
      rw [List.nodup_append]
      refine ⟨hd₂, by simp, ?_⟩
      intro a ha b hb
      simp only [List.mem_singleton] at hb
      exact fun heq => he₂ (hb ▸ heq ▸ ha)
    refine chain_congr hd hr ?_ ?_
    · intro y hy hlast
      have hy₂ : y ∈ l₂ := by
        simp only [List.mem_append, List.mem_singleton] at hy
        rcases hy with hy | rfl
        · exact hy
        · simp at hlast
      refine hn y (by simp [hy₂]) (fun heq => ?_)
      rcases List.mem_cons.mp (getLastD_mem e l₁) with h0 | h0
      · exact he₂ (h0 ▸ heq ▸ hy₂)
      · exact hdisj _ h0 y hy₂ heq.symm
    · intro y hy hhead
      refine hp y ?_ (fun heq => hhead ?_)
      · rcases List.mem_append.mp hy with hy | hy
        · simp [hy]
        · simp [List.mem_singleton.mp hy]
      · rw [head?_append_headD, heq]

/-- **Insertion** of a new node `x` at a cut. -/
theorem IsRing.insert (h : IsRing nx pv e (l₁ ++ l₂))
    (hx : x ∉ e :: (l₁ ++ l₂))
    (hxn : nx' x = some (l₂.headD e)) (hxp : pv' x = some (l₁.getLastD e))
    (hna : nx' (l₁.getLastD e) = some x) (hpt : pv' (l₂.headD e) = some x) :
    IsRing nx' pv' e (l₁ ++ x :: l₂) := by
  obtain ⟨hl, hr, -⟩ := (chain_cut _).mp h.chain
  obtain ⟨hl', hr'⟩ := sides_congr hn hp h.nodup hl hr
  refine ⟨?_, (chain_cut _).mpr ⟨hl', ?_, hna, hxp⟩⟩
  · have hperm : (e :: (l₁ ++ x :: l₂)).Perm (x :: e :: (l₁ ++ l₂)) :=
      (List.Perm.cons e List.perm_middle).trans (List.Perm.swap x e _)
    exact hperm.nodup_iff.mpr (List.nodup_cons.mpr ⟨hx, h.nodup⟩)
  · rw [List.cons_append, List.isChain_cons]
    refine ⟨?_, hr'⟩
    intro y hy
    rw [head?_append_headD] at hy
    cases hy
    exact ⟨hxn, hpt⟩

/-- **Removal** of the node after a cut. -/
theorem IsRing.remove (h : IsRing nx pv e (l₁ ++ x :: l₂))
    (hna : nx' (l₁.getLastD e) = some (l₂.headD e))
    (hpt : pv' (l₂.headD e) = some (l₁.getLastD e)) :
    IsRing nx' pv' e (l₁ ++ l₂) := by
  have hperm : (e :: (l₁ ++ x :: l₂)).Perm (x :: e :: (l₁ ++ l₂)) :=
    (List.Perm.cons e List.perm_middle).trans (List.Perm.swap x e _)
  have hnd := (List.nodup_cons.mp (hperm.nodup_iff.mp h.nodup)).2
  obtain ⟨hl, hr, -⟩ := (chain_cut _).mp h.chain
  obtain ⟨hl', hr'⟩ := sides_congr hn hp hnd hl (hr.tail)
  exact ⟨hnd, (chain_cut _).mpr ⟨hl', hr', hna, hpt⟩⟩

end Cut

/-! ## Walking -/

/-- The nodes met from `x` on, following `nx`, until `e`; at most `fuel`. -/
def walk [DecidableEq ν] (nx : ν → Option ν) (e : ν) : Nat → ν → List ν
  | 0, _ => []
  | fuel + 1, x =>
      if x = e then []
      else x :: match nx x with
        | some y => walk nx e fuel y
        | none => []

theorem IsRing.walk_eq [DecidableEq ν] {fuel : Nat}
    (h : IsRing nx pv e (l₁ ++ l₂)) (hf : l₂.length ≤ fuel) :
    walk nx e fuel (l₂.headD e) = l₂ := by
  induction l₂ generalizing l₁ fuel with
  | nil => cases fuel <;> simp [walk]
  | cons x l₂ ih =>
      cases fuel with
      | zero => simp at hf
      | succ fuel =>
          have hne : x ≠ e := by
            intro heq
            exact (List.nodup_cons.mp h.nodup).1 (by simp [heq])
          have h' : IsRing nx pv e ((l₁ ++ [x]) ++ l₂) := by simpa using h
          simp only [List.headD_cons, walk, if_neg hne, h.next_mem,
            ih h' (by simpa using hf)]

/-- The node that `k` links of `nx` lead to from `e`. -/
def follow (nx : ν → Option ν) (e : ν) : Nat → Option ν
  | 0 => some e
  | k + 1 => (follow nx e k).bind nx

/-- The links lead through the nodes of the ring in order, and back. -/
theorem IsRing.follow_eq (h : IsRing nx pv e l) {k : Nat} (hk : k ≤ l.length + 1) :
    follow nx e k = (e :: l ++ [e])[k]? := by
  induction k with
  | zero => rfl
  | succ k ih =>
      have hlen : (e :: l ++ [e]).length = l.length + 2 := by simp
      have hadj := List.isChain_iff_getElem.mp h.chain k (by omega)
      rw [follow, ih (by omega), List.getElem?_eq_getElem (by omega), Option.bind_some, hadj.1,
        List.getElem?_eq_getElem (by omega)]

/-- The links determine the ring. -/
theorem IsRing.unique {k : List ν} (h : IsRing nx pv e l)
    (hk : IsRing nx pv e k) : l = k := by
  classical
  have hhead : some (l.headD e) = some (k.headD e) :=
    h.next_end.symm.trans hk.next_end
  have h₁ := (show IsRing nx pv e ([] ++ l) from h).walk_eq (Nat.le_add_right l.length k.length)
  have h₂ := (show IsRing nx pv e ([] ++ k) from hk).walk_eq (Nat.le_add_left k.length l.length)
  rw [Option.some.inj hhead] at h₁
  exact h₁.symm.trans h₂

end Ring
