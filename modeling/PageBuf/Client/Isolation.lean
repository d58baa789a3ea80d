import PageBuf.Invariant.Calls

/-!
# Isolation — zero copy is not seen

Pages of different buffers may lie on one `pb_data`, and data may lie in
memory of the caller. No call on a buffer is seen through another buffer, and
none writes to the caller's memory.
-/

namespace Pb

open StateRun

variable {env : Env} {h h' : Heap} {R R' : Nat → List Nat} {target : Option Nat} {b c : Nat}
  {σ : Strategy}

/-- The buffer is there as it was, with the same pages and the same content. -/
structure Unchanged (c : Nat) (h h' : Heap) : Prop where
  buffer : h'.buffers c = h.buffers c
  pages : h'.pagesOf c = h.pagesOf c
  content : h'.content c = h.content c

theorem Moved.unchanged (m : Moved target h h' R R') (s : Sound h R) (s' : Sound h' R')
    (hc : (h.buffers c).isSome) (hne : target ≠ some c) : Unchanged c h h' := by
  obtain ⟨hbuf, hsame⟩ := m.other hc hne.symm
  have hring := m.ring hne.symm
  have hc' : (h'.buffers c).isSome := by rwa [hbuf]
  refine ⟨hbuf, ?_, ?_⟩
  · rw [s'.pagesOf hc', s.pagesOf hc, hring]
  · rw [s'.content hc', s.content hc, hring, flat_of_same hsame]

theorem exists_buffer_of_kind (hk : h.kindOf b = some (σ, .trivial)) :
    ∃ B, h.buffers b = some B ∧ B.strategy = σ ∧ B.operations = .trivial := by
  obtain ⟨B, hB, hkind⟩ := Option.map_eq_some_iff.mp hk
  exact ⟨B, hB, (Prod.mk.inj hkind).1, (Prod.mk.inj hkind).2⟩

theorem isSome_of_kind (hk : h.kindOf b = some (σ, .trivial)) : (h.buffers b).isSome := by
  obtain ⟨B, hB, -⟩ := exists_buffer_of_kind hk
  rw [hB]
  rfl

theorem isTrivial_of_kind (hk : h.kindOf b = some (σ, .trivial)) : h.IsTrivial b := by
  obtain ⟨B, hB, -, hop⟩ := exists_buffer_of_kind hk
  exact ⟨B, hB, hop⟩

theorem Unchanged.kindOf {c : Nat} (u : Unchanged c h h') : h'.kindOf c = h.kindOf c := by
  rw [Heap.kindOf, Heap.kindOf, u.buffer]

end Pb
