import PageBuf.Invariant.InsertPages

/-!
# Positions — iterators as places in the content

A page iterator with an offset, and a byte iterator, stand for a place in the
flat content. Insertion cuts the content at the first; the functions on byte
iterators move the second by one.
-/

namespace Pb

open StateRun Function Ring

variable {env : Env} {h h' : Heap} {R : Nat → List Nat} {F l₁ l₂ k₁ k₂ : List Nat}
  {b p it k offset : Nat} {bi : ByteIterator}

/-! ## Page iterators -/

theorem takeWhile_cut (hit : it = k₂.headD b) (hnd : (b :: (k₁ ++ k₂)).Nodup) :
    (k₁ ++ k₂).takeWhile (· ≠ it) = k₁ := by
  have hnd' := (List.nodup_cons.mp hnd).2
  have hb := (List.nodup_cons.mp hnd).1
  rw [List.takeWhile_append_of_pos]
  · cases k₂ with
    | nil => simp
    | cons p k₂ => simp [hit]
  · intro q hq
    have hne : q ≠ it := by
      rintro rfl
      cases k₂ with
      | nil =>
          rw [List.headD_nil] at hit
          exact hb (hit ▸ List.mem_append_left _ hq)
      | cons p k₂ => exact (List.nodup_append.mp hnd').2.2 _ hq p List.mem_cons_self hit
    simpa using hne

theorem Links.positionOf (hl : Links h R F) (hb : (h.buffers b).isSome) (hR : R b = k₁ ++ k₂)
    (hit : it = k₂.headD b) (offset : Nat) :
    h.positionOf b it offset = (h.flat k₁).length + min offset (h.lenOf it) := by
  have hnd := (hl.ring hb).nodup
  rw [hR] at hnd
  rw [Heap.positionOf, hl.pagesOf hb, hR, takeWhile_cut hit hnd]

/-- A position is a cut of the ring and an offset behind it. -/
theorem Links.position (hl : Links h R F) (hb : (h.buffers b).isSome)
    (hp : h.IsPosition b it offset) :
    ∃ k₁ k₂, R b = k₁ ++ k₂ ∧ it = k₂.headD b ∧ (it ≠ b → offset < h.lenOf it) := by
  rcases hp with rfl | ⟨hm, hlt⟩
  · exact ⟨R it, [], by simp, rfl, fun hne => absurd rfl hne⟩
  · rw [hl.pagesOf hb] at hm
    obtain ⟨k₁, k₂, hR⟩ := List.append_of_mem hm
    exact ⟨k₁, it :: k₂, hR, rfl, fun _ => hlt⟩

theorem Links.content (hl : Links h R F) (hb : (h.buffers b).isSome) :
    h.content b = h.flat (R b) := by
  rw [Heap.content, hl.pagesOf hb]

/-- The bytes before a position are those before its place. -/
theorem Links.before (hl : Links h R F) (hb : (h.buffers b).isSome) (hR : R b = k₁ ++ k₂)
    (hit : it = k₂.headD b) (offset : Nat) :
    h.before k₁ k₂ it offset = (h.content b).take (h.positionOf b it offset) := by
  rw [hl.positionOf hb hR hit, hl.content hb, hR, Heap.flat_append, Heap.before,
    List.take_length_add_append]

theorem Links.behind (hl : Links h R F) (hb : (h.buffers b).isSome) (hR : R b = k₁ ++ k₂)
    (hit : it = k₂.headD b) (offset : Nat) :
    h.behind k₂ it offset = (h.content b).drop (h.positionOf b it offset) := by
  rw [hl.positionOf hb hR hit, hl.content hb, hR, Heap.flat_append, Heap.behind,
    List.drop_length_add_append]

/-! ## Byte iterators -/

theorem Links.isBytePosition_iff (hl : Links h R F) (hb : (h.buffers b).isSome) :
    h.IsBytePosition b bi k ↔ (bi = ⟨b, 0, none⟩ ∧ k = (h.flat (R b)).length) ∨
      ∃ l₁ p l₂ off, R b = l₁ ++ p :: l₂ ∧ off < h.lenOf p ∧
        bi = ⟨p, off, some ((h.vecOf p).base.add off)⟩ ∧ k = (h.flat l₁).length + off := by
  rw [Heap.IsBytePosition, hl.content hb, hl.pagesOf hb]

/-- The position that is not the end lies in a page. -/
theorem Links.byte_split (hl : Links h R F) (hb : (h.buffers b).isSome)
    (hk : h.IsBytePosition b bi k) (hlt : k < (h.content b).length) :
    ∃ l₁ p l₂ off, R b = l₁ ++ p :: l₂ ∧ off < h.lenOf p ∧
      bi = ⟨p, off, some ((h.vecOf p).base.add off)⟩ ∧ k = (h.flat l₁).length + off := by
  rw [hl.content hb] at hlt
  rcases (hl.isBytePosition_iff hb).mp hk with ⟨-, hend⟩ | hin
  · omega
  · exact hin

/-- The end iterator stands for the end, and nothing else does. -/
theorem Links.isEnd_iff (hl : Links h R F) (hb : (h.buffers b).isSome)
    (hk : h.IsBytePosition b bi k) :
    k ≤ (h.content b).length ∧
      (bufferIsEndByteIterator b bi = true ↔ k = (h.content b).length) := by
  rw [hl.content hb]
  simp only [bufferIsEndByteIterator, bufferIsEndIterator, trivialBufferIsEndIterator,
    decide_eq_true_eq]
  rcases (hl.isBytePosition_iff hb).mp hk with ⟨rfl, rfl⟩ | ⟨l₁, p, l₂, off, hR, hoff, rfl, rfl⟩
  · exact ⟨Nat.le_refl _, by simp⟩
  · have hne : p ≠ b := by
      rintro rfl
      exact hl.notMem_self hb (by simp [hR])
    rw [hR, Heap.flat_append, Heap.flat_cons, List.length_append, List.length_append,
      Heap.length_pageBytes]
    refine ⟨by omega, fun he => absurd he hne, fun he => ?_⟩
    omega

theorem byteIteratorAt_run (hp : (h.pages p).isSome) (off : Nat) :
    byteIteratorAt p off h = .ok (⟨p, off, some ((h.vecOf p).base.add off)⟩, h) :=
  (bind_run (pageGetBase_run hp)).trans rfl

/-- The byte iterator at the head of what comes after a cut. -/
theorem headByteIterator_run (hl : Links h R F) (hb : (h.buffers b).isSome)
    (hf : h.Full (R b)) (hR : R b = l₁ ++ l₂) :
    ∃ bi, (do
      if bufferIsEndIterator b (l₂.headD b) then pure ⟨l₂.headD b, 0, none⟩
      else byteIteratorAt (l₂.headD b) 0 : PbM ByteIterator) h = .ok (bi, h) ∧
        h.IsBytePosition b bi (h.flat l₁).length := by
  have hend := hl.headD_eq_iff hb hR
  cases l₂ with
  | nil =>
      refine ⟨⟨b, 0, none⟩, ?_, (hl.isBytePosition_iff hb).mpr (.inl ⟨rfl, by simp [hR]⟩)⟩
      simp [bufferIsEndIterator, trivialBufferIsEndIterator]
      rfl
  | cons p l₂ =>
      have hmem : p ∈ R b := by simp [hR]
      have hne : p ≠ b := by simpa using hend
      refine ⟨⟨p, 0, some ((h.vecOf p).base.add 0)⟩, ?_, ?_⟩
      · rw [if_neg (by simpa [bufferIsEndIterator, trivialBufferIsEndIterator] using hne)]
        exact byteIteratorAt_run (hl.node_live hb (List.mem_cons_of_mem b hmem)) 0
      · exact (hl.isBytePosition_iff hb).mpr
          (.inr ⟨l₁, p, l₂, 0, hR, hf p hmem, rfl, rfl⟩)

section Trivial

variable (hl : Links h R F) (ht : h.IsTrivial b) (hf : h.Full (R b))

include hl ht hf

variable (env) in
/-- `pb_trivial_buffer_get_byte_iterator` starts at the first byte. -/
theorem bufferGetByteIterator_run :
    ∃ bi, bufferGetByteIterator env b h = .ok (bi, h) ∧ h.IsBytePosition b bi 0 := by
  obtain ⟨bi, hrun, hpos⟩ := headByteIterator_run hl ht.isSome hf (show R b = [] ++ R b from rfl)
  exact ⟨bi, (bind_run (bufferGetIterator_run ht hl)).trans hrun, hpos⟩

/-- `pb_trivial_buffer_next_byte_iterator` moves on by one byte. -/
theorem bufferNextByteIterator_run (hk : h.IsBytePosition b bi k)
    (hlt : k < (h.content b).length) :
    ∃ bi', bufferNextByteIterator env b bi h = .ok (bi', h) ∧ h.IsBytePosition b bi' (k + 1) := by
  have hb := ht.isSome
  obtain ⟨l₁, p, l₂, off, hR, hoff, rfl, rfl⟩ := hl.byte_split hb hk hlt
  have hplive := hl.node_live hb (List.mem_cons_of_mem b (show p ∈ R b by simp [hR]))
  by_cases hge : off + 1 ≥ h.lenOf p
  · have hsplit : R b = (l₁ ++ [p]) ++ l₂ := by simp [hR]
    obtain ⟨bi, hrun, hpos⟩ := headByteIterator_run hl hb hf hsplit
    refine ⟨bi, ?_, ?_⟩
    · refine (bind_run (pageGetLen_run hplive)).trans ?_
      rw [if_pos hge]
      exact (bind_run (bufferNextIterator_run ht hl hR)).trans hrun
    · rw [Heap.flat_append, List.length_append, Heap.flat_cons, Heap.flat_nil, List.append_nil,
        Heap.length_pageBytes] at hpos
      rwa [show (h.flat l₁).length + off + 1 = (h.flat l₁).length + h.lenOf p by omega]
  · refine ⟨⟨p, off + 1, some ((h.vecOf p).base.add (off + 1))⟩, ?_, ?_⟩
    · refine (bind_run (pageGetLen_run hplive)).trans ?_
      rw [if_neg hge]
      exact byteIteratorAt_run hplive (off + 1)
    · exact (hl.isBytePosition_iff hb).mpr
        (.inr ⟨l₁, p, l₂, off + 1, hR, by omega, rfl, by omega⟩)

omit hl in
/-- Stepping back over the boundary between two pages. -/
theorem prevByteIterator_boundary (hl : Links h R F) (hR : R b = l₁ ++ l₂) (hne : l₁ ≠ [])
    (o : Option Ptr) :
    ∃ bi', bufferPrevByteIterator env b ⟨l₂.headD b, 0, o⟩ h = .ok (bi', h) ∧
      h.IsBytePosition b bi' ((h.flat l₁).length - 1) := by
  have hb := ht.isSome
  obtain ⟨j, q, rfl⟩ : ∃ j q, l₁ = j ++ [q] :=
    ⟨_, _, (List.dropLast_append_getLast hne).symm⟩
  have hsplit : R b = j ++ q :: l₂ := by simp [hR]
  have hq : q ∈ R b := by simp [hsplit]
  have hqlive := hl.node_live hb (List.mem_cons_of_mem b hq)
  have hqb : q ≠ b := by
    rintro rfl
    exact hl.notMem_self hb hq
  have hpos := hf q hq
  refine ⟨⟨q, h.lenOf q - 1, some ((h.vecOf q).base.add (h.lenOf q - 1))⟩, ?_, ?_⟩
  · refine (bind_run (bufferPrevIterator_run ht hl hR)).trans ?_
    rw [Ring.getLastD_concat]
    refine (bind_run (pageGetLen_run hqlive)).trans ?_
    rw [if_neg (by simpa [bufferIsEndIterator, trivialBufferIsEndIterator] using hqb),
      wrapSub_of_le hpos]
    exact byteIteratorAt_run hqlive _
  · refine (hl.isBytePosition_iff hb).mpr (.inr ⟨j, q, l₂, _, hsplit, by omega, rfl, ?_⟩)
    rw [Heap.flat_append, List.length_append, Heap.flat_cons, Heap.flat_nil, List.append_nil,
      Heap.length_pageBytes]
    omega

variable (env) in
/-- `pb_trivial_buffer_prev_byte_iterator` moves back by one byte. -/
theorem bufferPrevByteIterator_run (hk : h.IsBytePosition b bi k) (hpos : 0 < k) :
    ∃ bi', bufferPrevByteIterator env b bi h = .ok (bi', h) ∧ h.IsBytePosition b bi' (k - 1) := by
  have hb := ht.isSome
  rcases (hl.isBytePosition_iff hb).mp hk with ⟨rfl, rfl⟩ | ⟨l₁, p, l₂, off, hR, hoff, rfl, rfl⟩
  · have hne : R b ≠ [] := by
      intro hnil
      simp [hnil] at hpos
    exact prevByteIterator_boundary ht hf hl (show R b = R b ++ [] by simp) hne none
  · cases off with
    | zero =>
        have hne : l₁ ≠ [] := by
          rintro rfl
          simp at hpos
        exact prevByteIterator_boundary ht hf hl hR hne _
    | succ off =>
        have hplive := hl.node_live hb (List.mem_cons_of_mem b (show p ∈ R b by simp [hR]))
        refine ⟨⟨p, off, some ((h.vecOf p).base.add off)⟩, byteIteratorAt_run hplive off, ?_⟩
        exact (hl.isBytePosition_iff hb).mpr (.inr ⟨l₁, p, l₂, off, hR, by omega, rfl, by omega⟩)

omit hl hf in
/-- `pb_buffer_byte_iterator_get_current_byte` reads the byte of the content. -/
theorem byteIteratorGetCurrentByte_spec (hl : Links h R F) (hk : h.IsBytePosition b bi k)
    (hlt : k < (h.content b).length) :
    Yields (byteIteratorGetCurrentByte bi) h (fun c h' => (h.content b)[k]? = some c ∧
      ∃ o, h' = { h with overread := o }) := by
  have hb := ht.isSome
  obtain ⟨l₁, p, l₂, off, hR, hoff, rfl, rfl⟩ := hl.byte_split hb hk hlt
  refine Yields.step (memRead_run _ 1) (yields_pure.mpr ⟨?_, _, rfl⟩)
  have hcell : (h.pageBytes p)[off]? = some ((h.bytes ((h.vecOf p).base.add off) 1).headD 0) := by
    simp [Heap.pageBytes, Heap.bytes, hoff]
  rw [hl.content hb, hR, Heap.flat_append, List.getElem?_append_right (Nat.le_add_right _ _),
    Nat.add_sub_cancel_left, Heap.flat_cons, List.getElem?_append_left (by simpa using hoff), hcell]

end Trivial

/-- A byte iterator goes on standing for its byte while more pages are
appended. -/
theorem Heap.IsBytePosition.mono (hk : h.IsBytePosition b bi k)
    (hlt : k < (h.content b).length) (hpre : h.pagesOf b <+: h'.pagesOf b)
    (hv : ∀ p ∈ h.pagesOf b, h'.vecOf p = h.vecOf p) : h'.IsBytePosition b bi k := by
  rcases hk with ⟨-, hend⟩ | ⟨l₁, p, l₂, off, hR, hoff, hbi, hkk⟩
  · omega
  · obtain ⟨l, hl⟩ := hpre
    have hvec : ∀ q ∈ l₁ ++ p :: l₂, h'.vecOf q = h.vecOf q := fun q hq => hv q (hR ▸ hq)
    have hp : h'.vecOf p = h.vecOf p := hvec p (by simp)
    refine .inr ⟨l₁, p, l₂ ++ l, off, by rw [← hl, hR]; simp, ?_, by rw [hp, hbi], ?_⟩
    · rwa [Heap.lenOf, hp]
    · rw [hkk, Heap.length_flat, Heap.length_flat]
      congr 2
      refine List.map_congr_left (fun q hq => ?_)
      rw [Heap.lenOf, Heap.lenOf, hvec q (List.mem_append_left _ hq)]

end Pb
