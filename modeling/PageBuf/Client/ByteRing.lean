import PageBuf.Client.Dangling
import PageBuf.Invariant.Positions

/-!
# ByteRing — the positions of a byte iterator

A byte iterator of a buffer with `n` bytes moves on a ring of `n + 1`
positions: the bytes in their order and the end between the last one and the
first one. How the bytes are cut into pages cannot be seen from it.
-/

namespace Pb

open StateRun Relation Ring

variable {env : Env} {h : Heap} {R : Nat → List Nat} {F l l₁ l₂ : List Nat} {b k p : Nat}
  {bi : ByteIterator}

/-! ## The iterator of a position -/

namespace Heap

/-- The byte iterator of the `k`th byte of a list of pages, or of the end. -/
def byteIteratorIn (h : Heap) (b : Nat) : List Nat → Nat → ByteIterator
  | [], _ => ⟨b, 0, none⟩
  | p :: l, k =>
      if k < h.lenOf p then ⟨p, k, some ((h.vecOf p).base.add k)⟩
      else h.byteIteratorIn b l (k - h.lenOf p)

/-- The byte iterator of the `k`th position of a buffer. -/
def byteIteratorOf (h : Heap) (b k : Nat) : ByteIterator := h.byteIteratorIn b (h.pagesOf b) k

theorem byteIteratorIn_page {off : Nat} (hoff : off < h.lenOf p) :
    h.byteIteratorIn b (l₁ ++ p :: l₂) ((h.flat l₁).length + off)
      = ⟨p, off, some ((h.vecOf p).base.add off)⟩ := by
  induction l₁ with
  | nil => simp [byteIteratorIn, hoff]
  | cons q l ih =>
      rw [List.cons_append, byteIteratorIn, if_neg]
      · rw [← ih]
        congr 1
        simp only [flat_cons, List.length_append, length_pageBytes]
        omega
      · simp only [flat_cons, List.length_append, length_pageBytes]
        omega

theorem byteIteratorIn_end (hk : (h.flat l).length ≤ k) :
    h.byteIteratorIn b l k = ⟨b, 0, none⟩ := by
  induction l generalizing k with
  | nil => rfl
  | cons p l ih =>
      simp only [flat_cons, List.length_append, length_pageBytes] at hk
      rw [byteIteratorIn, if_neg (by omega)]
      exact ih (by omega)

/-- Every byte lies in one of the pages. -/
theorem exists_page_of_lt (hk : k < (h.flat l).length) :
    ∃ l₁ p l₂ off, l = l₁ ++ p :: l₂ ∧ off < h.lenOf p ∧ k = (h.flat l₁).length + off := by
  induction l generalizing k with
  | nil => simp at hk
  | cons p l ih =>
      by_cases hp : k < h.lenOf p
      · exact ⟨[], p, l, k, rfl, hp, by simp⟩
      · simp only [flat_cons, List.length_append, length_pageBytes] at hk
        obtain ⟨l₁, q, l₂, off, hl, hoff, hkk⟩ := ih (k := k - h.lenOf p) (by omega)
        refine ⟨p :: l₁, q, l₂, off, by rw [hl]; rfl, hoff, ?_⟩
        simp only [flat_cons, List.length_append, length_pageBytes]
        omega

end Heap

/-- A byte iterator stands for a position if it is the iterator of it. -/
theorem Heap.isBytePosition_iff : h.IsBytePosition b bi k ↔
    k ≤ (h.content b).length ∧ bi = h.byteIteratorOf b k := by
  unfold byteIteratorOf content
  constructor
  · intro hk
    rcases hk with ⟨rfl, rfl⟩ | ⟨l₁, p, l₂, off, hR, hoff, rfl, rfl⟩
    · exact ⟨Nat.le_refl _, (byteIteratorIn_end (Nat.le_refl _)).symm⟩
    · rw [hR]
      refine ⟨?_, (byteIteratorIn_page hoff).symm⟩
      simp only [flat_append, flat_cons, List.length_append, length_pageBytes]
      omega
  · intro hk
    obtain ⟨hle, rfl⟩ := hk
    rcases Nat.lt_or_ge k (h.flat (h.pagesOf b)).length with hlt | hge
    · obtain ⟨l₁, p, l₂, off, hR, hoff, rfl⟩ := exists_page_of_lt hlt
      refine .inr ⟨l₁, p, l₂, off, hR, hoff, ?_, rfl⟩
      rw [hR, byteIteratorIn_page hoff]
    · exact .inl ⟨byteIteratorIn_end hge, Nat.le_antisymm hle hge⟩

section Positions

variable (ft : Footing h R []) (ht : h.IsTrivial b) (hf : h.Full (R b))

include ft ht

/-- Positions that `cmp_byte_iterator` does not tell apart are the same. -/
theorem cmpByteIterator_iff {j : Nat} (hj : j ≤ (h.content b).length)
    (hk : k ≤ (h.content b).length) :
    bufferCmpByteIterator (h.byteIteratorOf b j) (h.byteIteratorOf b k) = true ↔ j = k := by
  have hl := ft.links
  have hb := ht.isSome
  constructor
  · intro hcmp
    simp only [bufferCmpByteIterator, bufferCmpIterator, trivialBufferCmpIterator,
      Bool.and_eq_true, decide_eq_true_eq] at hcmp
    obtain ⟨hit, hoff⟩ := hcmp
    have hposj := (hl.isBytePosition_iff hb).mp (Heap.isBytePosition_iff.mpr ⟨hj, rfl⟩)
    have hposk := (hl.isBytePosition_iff hb).mp (Heap.isBytePosition_iff.mpr ⟨hk, rfl⟩)
    have hself := hl.notMem_self hb
    rcases hposj with ⟨hbj, hj'⟩ | ⟨l₁, p, l₂, off, hR, -, hbj, hj'⟩
    · rcases hposk with ⟨hbk, hk'⟩ | ⟨m₁, q, m₂, off', hR', -, hbk, hk'⟩
      · rw [hj', hk']
      · rw [hbj, hbk] at hit
        have hbq : b = q := hit
        have hq : q ∈ R b := by
          rw [hR']
          simp
        exact absurd (hbq ▸ hq) hself
    · rcases hposk with ⟨hbk, hk'⟩ | ⟨m₁, q, m₂, off', hR', -, hbk, hk'⟩
      · rw [hbj, hbk] at hit
        have hpb : p = b := hit
        have hp : p ∈ R b := by
          rw [hR]
          simp
        exact absurd (hpb ▸ hp) hself
      · rw [hbj, hbk] at hit hoff
        have hpq : p = q := hit
        have hoo : off = off' := hoff
        subst hpq
        have hnd := hl.nodup hb
        rw [hR] at hnd
        -- a page stands at one place of the ring
        obtain ⟨hpre, -⟩ := cut_unique hnd (hR.symm.trans hR')
        rw [hj', hk', hpre, hoo]
  · intro hjk
    simp [hjk, bufferCmpByteIterator, bufferCmpIterator, trivialBufferCmpIterator]

include hf

variable (env) in
theorem getByteIterator_pos :
    bufferGetByteIterator env b h = .ok (h.byteIteratorOf b 0, h) := by
  obtain ⟨bi, hrun, hpos⟩ := bufferGetByteIterator_run env ft.links ht hf
  rw [hrun, (Heap.isBytePosition_iff.mp hpos).2]

variable (env) in
theorem nextByteIterator_pos (hk : k ≤ (h.content b).length) :
    bufferNextByteIterator env b (h.byteIteratorOf b k) h
      = .ok (h.byteIteratorOf b ((k + 1) % ((h.content b).length + 1)), h) := by
  rcases Nat.lt_or_ge k (h.content b).length with hlt | hge
  · obtain ⟨bi, hrun, hpos⟩ := (@bufferNextByteIterator_run env) ft.links ht hf
      (Heap.isBytePosition_iff.mpr ⟨hk, rfl⟩) hlt
    rw [hrun, (Heap.isBytePosition_iff.mp hpos).2, Nat.mod_eq_of_lt (by omega)]
  · -- from the end to the first byte
    have hkn : k = (h.content b).length := Nat.le_antisymm hk hge
    have hend : h.byteIteratorOf b (h.content b).length = ⟨b, 0, none⟩ :=
      Heap.byteIteratorIn_end (Nat.le_refl _)
    obtain ⟨bi, hrun, hpos⟩ := headByteIterator_run ft.links ht.isSome hf
      (show R b = [] ++ R b from rfl)
    have hlive := ft.links.node_live ht.isSome (List.mem_cons_self (a := b) (l := R b))
    rw [hkn, Nat.mod_self, hend]
    refine (bind_run (pageGetLen_run hlive)).trans ?_
    rw [if_pos (by rw [(ft.sentinel ht.isSome).2]; exact Nat.zero_le _)]
    refine (bind_run (bufferNextIterator_end ht ft.links)).trans ?_
    rw [hrun, (Heap.isBytePosition_iff.mp hpos).2]
    rfl

variable (env) in
theorem prevByteIterator_pos (hk : k ≤ (h.content b).length) :
    bufferPrevByteIterator env b (h.byteIteratorOf b k) h
      = .ok (h.byteIteratorOf b ((k + (h.content b).length) % ((h.content b).length + 1)), h) := by
  rcases Nat.eq_zero_or_pos k with rfl | hpos
  · -- from the first byte to the end
    have hit : (h.byteIteratorOf b 0).bufferIterator = (R b).headD b ∧
        (h.byteIteratorOf b 0).pageOffset = 0 := by
      have hb0 := (ft.links.isBytePosition_iff ht.isSome).mp
        (Heap.isBytePosition_iff.mpr ⟨Nat.zero_le (h.content b).length, rfl⟩)
      rcases hb0 with ⟨hbi, hn⟩ | ⟨l₁, p, l₂, off, hR, hoff, hbi, hn⟩
      · have hnil : R b = [] := by
          cases hR : R b with
          | nil => rfl
          | cons p l =>
              have := hf p (by simp [hR])
              rw [hR] at hn
              simp only [Heap.flat_cons, List.length_append, Heap.length_pageBytes] at hn
              omega
        rw [hbi, hnil]
        exact ⟨rfl, rfl⟩
      · have hl₁ : l₁ = [] := by
          cases l₁ with
          | nil => rfl
          | cons q l =>
              have := hf q (by simp [hR])
              simp only [Heap.flat_cons, List.length_append, Heap.length_pageBytes] at hn
              omega
        subst hl₁
        rw [hbi, hR]
        simp only [Heap.flat_nil, List.length_nil, Nat.zero_add] at hn
        exact ⟨rfl, hn.symm⟩
    have hprev : bufferPrevIterator env b ((R b).headD b) h = .ok (b, h) := by
      have hcut : R b = [] ++ R b := rfl
      exact bufferPrevIterator_run ht ft.links hcut
    have hlive := ft.links.node_live ht.isSome (List.mem_cons_self (a := b) (l := R b))
    unfold bufferPrevByteIterator
    rw [if_pos hit.2, hit.1, Nat.zero_add, Nat.mod_eq_of_lt (Nat.lt_succ_self _)]
    refine (bind_run hprev).trans ((bind_run (pageGetLen_run hlive)).trans ?_)
    have hend : h.byteIteratorOf b (h.content b).length = ⟨b, 0, none⟩ :=
      Heap.byteIteratorIn_end (Nat.le_refl _)
    rw [if_pos (by simp [bufferIsEndIterator, trivialBufferIsEndIterator]),
      (ft.sentinel ht.isSome).2, hend]
    rfl
  · obtain ⟨bi, hrun, hbi⟩ := bufferPrevByteIterator_run env ft.links ht hf
      (Heap.isBytePosition_iff.mpr ⟨hk, rfl⟩) hpos
    rw [hrun, (Heap.isBytePosition_iff.mp hbi).2,
      show k + (h.content b).length = k - 1 + ((h.content b).length + 1) by omega,
      Nat.add_mod_right, Nat.mod_eq_of_lt (by omega)]

end Positions

/-! ## The ring -/

/-- A call that moves a byte iterator by one. -/
inductive ByteMove (env : Env) (b : Nat) : ByteIterator × Heap → ByteIterator × Heap → Prop
  | next {bi g s} (hrun : bufferNextByteIterator env b bi g = .ok s) : ByteMove env b (bi, g) s
  | prev {bi g s} (hrun : bufferPrevByteIterator env b bi g = .ok s) : ByteMove env b (bi, g) s

/-- What `get_byte_iterator` and any sequence of moves behind it can give. -/
def ByteReached (env : Env) (b : Nat) (h : Heap) (s : ByteIterator × Heap) : Prop :=
  ∃ s₀, bufferGetByteIterator env b h = .ok s₀ ∧ ReflTransGen (ByteMove env b) s₀ s

/-- The byte iterators of a buffer with `n` bytes are a ring of `n + 1`
positions. -/
structure ByteRing (env : Env) (b : Nat) (h : Heap) : Prop where
  reached : ∀ s, ByteReached env b h s ↔
    ∃ k ≤ (h.content b).length, s = (h.byteIteratorOf b k, h)
  distinct : ∀ j k, j ≤ (h.content b).length → k ≤ (h.content b).length →
    h.byteIteratorOf b j = h.byteIteratorOf b k → j = k
  next : ∀ k ≤ (h.content b).length, bufferNextByteIterator env b (h.byteIteratorOf b k) h
    = .ok (h.byteIteratorOf b ((k + 1) % ((h.content b).length + 1)), h)
  prev : ∀ k ≤ (h.content b).length, bufferPrevByteIterator env b (h.byteIteratorOf b k) h
    = .ok (h.byteIteratorOf b ((k + (h.content b).length) % ((h.content b).length + 1)), h)
  prev_next : ∀ bi, ByteReached env b h (bi, h) →
    (do bufferPrevByteIterator env b (← bufferNextByteIterator env b bi)) h = .ok (bi, h)
  next_prev : ∀ bi, ByteReached env b h (bi, h) →
    (do bufferNextByteIterator env b (← bufferPrevByteIterator env b bi)) h = .ok (bi, h)
  byte : ∀ k ≤ (h.content b).length,
    Yields (byteIteratorGetCurrentByte (h.byteIteratorOf b k)) h (fun a h' =>
      (h.content b ++ [0])[k]? = some a ∧ ∃ o, h' = { h with overread := o })
  getEnd : bufferGetEndByteIterator b h = .ok (h.byteIteratorOf b (h.content b).length, h)
  isEnd : ∀ k ≤ (h.content b).length,
    (bufferIsEndByteIterator b (h.byteIteratorOf b k) = true ↔ k = (h.content b).length)
  cmp : ∀ j k, j ≤ (h.content b).length → k ≤ (h.content b).length →
    (bufferCmpByteIterator (h.byteIteratorOf b j) (h.byteIteratorOf b k) = true ↔ j = k)

section Ring

variable (ft : Footing h R []) (ht : h.IsTrivial b) (hf : h.Full (R b))

include ft ht

theorem byteIteratorGetCurrentByte_pos (hk : k ≤ (h.content b).length) :
    Yields (byteIteratorGetCurrentByte (h.byteIteratorOf b k)) h (fun a h' =>
      (h.content b ++ [0])[k]? = some a ∧ ∃ o, h' = { h with overread := o }) := by
  rcases Nat.lt_or_ge k (h.content b).length with hlt | hge
  · have hpos := Heap.isBytePosition_iff.mpr ⟨hk, rfl⟩
    refine (byteIteratorGetCurrentByte_spec ht ft.links hpos hlt).mono fun a h' hread => ?_
    rw [List.getElem?_append_left hlt]
    exact hread
  · have hend : h.byteIteratorOf b (h.content b).length = ⟨b, 0, none⟩ :=
      Heap.byteIteratorIn_end (Nat.le_refl _)
    rw [Nat.le_antisymm hk hge, hend, List.getElem?_concat_length]
    exact ⟨0, h, rfl, rfl, h.overread, rfl⟩

include hf

theorem byteReached_iff (s : ByteIterator × Heap) : ByteReached env b h s ↔
    ∃ k ≤ (h.content b).length, s = (h.byteIteratorOf b k, h) := by
  have hget := getByteIterator_pos env ft ht hf
  constructor
  · intro hs
    obtain ⟨s₀, hrun, hmoves⟩ := hs
    rw [hget] at hrun
    cases hrun
    -- every move leads from one position to another
    induction hmoves with
    | refl => exact ⟨0, Nat.zero_le _, rfl⟩
    | @tail s s' _ hmove ih =>
        obtain ⟨k, hk, rfl⟩ := ih
        cases hmove with
        | next hrun =>
            rw [nextByteIterator_pos env ft ht hf hk] at hrun
            cases hrun
            exact ⟨_, Nat.lt_succ_iff.mp (Nat.mod_lt _ (Nat.succ_pos _)), rfl⟩
        | prev hrun =>
            rw [prevByteIterator_pos env ft ht hf hk] at hrun
            cases hrun
            exact ⟨_, Nat.lt_succ_iff.mp (Nat.mod_lt _ (Nat.succ_pos _)), rfl⟩
  · intro hs
    obtain ⟨k, hk, rfl⟩ := hs
    refine ⟨_, hget, ?_⟩
    -- the `k`th position is `k` moves away
    induction k with
    | zero => exact .refl
    | succ k ih =>
        have hk' : k ≤ (h.content b).length := Nat.le_of_succ_le hk
        refine (ih hk').tail (.next ?_)
        rw [nextByteIterator_pos env ft ht hf hk', Nat.mod_eq_of_lt (Nat.lt_succ_of_le hk)]

theorem byteRing_of_rings : ByteRing env b h where
  reached := byteReached_iff ft ht hf
  distinct := by
    intro j k hj hk heq
    have hcmp := (cmpByteIterator_iff ft ht hk hk).mpr rfl
    exact (cmpByteIterator_iff ft ht hj hk).mp (heq ▸ hcmp)
  next := fun k hk => nextByteIterator_pos env ft ht hf hk
  prev := fun k hk => prevByteIterator_pos env ft ht hf hk
  prev_next := by
    intro bi hbi
    obtain ⟨k, hk, heq⟩ := (byteReached_iff ft ht hf (bi, h)).mp hbi
    cases heq
    refine (bind_run (nextByteIterator_pos env ft ht hf hk)).trans ?_
    have hn := Nat.mod_lt (k + 1) (Nat.succ_pos (h.content b).length)
    rw [prevByteIterator_pos env ft ht hf (Nat.lt_succ_iff.mp hn), Nat.mod_add_mod,
      show k + 1 + (h.content b).length = k + ((h.content b).length + 1) by omega,
      Nat.add_mod_right, Nat.mod_eq_of_lt (Nat.lt_succ_of_le hk)]
  next_prev := by
    intro bi hbi
    obtain ⟨k, hk, heq⟩ := (byteReached_iff ft ht hf (bi, h)).mp hbi
    cases heq
    refine (bind_run (prevByteIterator_pos env ft ht hf hk)).trans ?_
    have hn := Nat.mod_lt (k + (h.content b).length) (Nat.succ_pos (h.content b).length)
    rw [nextByteIterator_pos env ft ht hf (Nat.lt_succ_iff.mp hn), Nat.mod_add_mod,
      show k + (h.content b).length + 1 = k + ((h.content b).length + 1) by omega,
      Nat.add_mod_right, Nat.mod_eq_of_lt (Nat.lt_succ_of_le hk)]
  byte := fun k hk => byteIteratorGetCurrentByte_pos ft ht hk
  getEnd := by
    have hend : h.byteIteratorOf b (h.content b).length = ⟨b, 0, none⟩ :=
      Heap.byteIteratorIn_end (Nat.le_refl _)
    rw [hend]
    rfl
  isEnd := fun k hk =>
    (ft.links.isEnd_iff ht.isSome (Heap.isBytePosition_iff.mpr ⟨hk, rfl⟩)).2
  cmp := fun j k hj hk => cmpByteIterator_iff ft ht hj hk

end Ring

/-- **The byte iterators of a trivial buffer are a ring**, however its bytes are
cut into pages. -/
theorem byteRing (ft : Footing h R []) (ht : h.IsTrivial b) (hf : h.Full (h.pagesOf b)) :
    ByteRing env b h :=
  byteRing_of_rings ft ht (ft.links.pagesOf ht.isSome ▸ hf)

theorem ReachableBy.byteRing_of_full (hr : ReachableBy env MeetsBytes h) (ht : h.IsTrivial b)
    (hf : h.Full (h.pagesOf b)) : ByteRing env b h := by
  obtain ⟨R, ft, -⟩ := hr.invariant unrestricted_run
  exact byteRing_of_rings ft ht (ft.links.pagesOf ht.isSome ▸ hf)

/-- Three bytes on two pages of the buffer 1. -/
def Heap.twoPages : Heap :=
  ((Heap.twoBuffers trivialBufferStrategy trivialBufferStrategy).after .generous
    (.writeData 1 [1, 2])).after .generous (.writeData 1 [3])

theorem byteRing_twoPages : ByteRing .generous 1 .twoPages := by
  have htwo := reachableBy_twoBuffers (M := MeetsBytes) (fun _ _ => trivial)
    trivialBufferStrategy trivialBufferStrategy
  have hone := htwo.after (o := .writeData 1 [1, 2]) (isTrivial_twoBuffers _ _).1 trivial (by decide)
  have hr : ReachableBy .generous MeetsBytes .twoPages :=
    hone.after (o := .writeData 1 [3]) ⟨_, rfl, rfl⟩ trivial (by decide)
  obtain ⟨R, ft, -⟩ := hr.invariant unrestricted_run
  refine byteRing ft ⟨_, rfl, rfl⟩ ?_
  unfold Heap.Full
  decide

example : Heap.twoPages.content 1 = [1, 2, 3] := by decide

end Pb
