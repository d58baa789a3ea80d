import PageBuf.Client.Isolation

/-!
# Rings — the links of a buffer, its pages and its size

Every operation cuts and ties the links of pages by hand and counts the bytes
apart from them. Whatever was called, and whatever request was refused, the
links of every buffer lead once round its own pages, both ways, and the count
is right.
-/

namespace Pb

open StateRun Ring

variable {env : Env} {h h' : Heap} {R R' : Nat → List Nat} {b c : Nat}

/-- The links of `b` form a ring of live pages that are not empty, whose bytes
the buffer has counted. -/
structure Ringed (h : Heap) (b : Nat) : Prop where
  visits : ∀ k, k ≤ (h.pagesOf b).length + 1 →
    follow h.nextOf b k = (b :: h.pagesOf b ++ [b])[k]?
  prevNext : ∀ p ∈ b :: h.pagesOf b, (h.nextOf p).bind h.prevOf = some p
  nextPrev : ∀ p ∈ b :: h.pagesOf b, (h.prevOf p).bind h.nextOf = some p
  once : (b :: h.pagesOf b).Nodup
  live : ∀ p ∈ h.pagesOf b, (h.pages p).isSome
  filled : ∀ p ∈ h.pagesOf b, 0 < h.lenOf p
  size : ∀ B, h.buffers b = some B → B.dataSize = ((h.pagesOf b).map h.lenOf).sum

theorem Sound.ringed (s : Sound h R) (hb : (h.buffers b).isSome) : Ringed h b := by
  have hl := s.inv.core.links
  have hring := hl.ring hb
  have hpages := s.pagesOf hb
  refine ⟨?_, ?_, ?_, ?_, ?_, ?_, ?_⟩
  · intro k hk
    rw [hpages] at hk ⊢
    exact hring.follow_eq hk
  · intro p hp
    rw [hpages] at hp
    exact hring.prev_next hp
  · intro p hp
    rw [hpages] at hp
    exact hring.next_prev hp
  · rw [hpages]
    exact hring.nodup
  · intro p hp
    rw [hpages] at hp
    exact hl.node_live hb (List.mem_cons_of_mem b hp)
  · intro p hp
    rw [hpages] at hp
    exact s.full b p hp
  · intro B hB
    rw [hpages]
    exact s.inv.totals b B hB

/-- No page is linked in two rings, and no ring passes through `page_end` of
another buffer. -/
def RingsApart (h : Heap) : Prop :=
  ∀ b c, (h.buffers b).isSome → (h.buffers c).isSome →
    (∀ p, p ∈ h.pagesOf b → p ∈ h.pagesOf c → b = c) ∧ c ∉ h.pagesOf b

theorem Sound.ringsApart (s : Sound h R) : RingsApart h := by
  intro b c hb hc
  have hl := s.inv.core.links
  refine ⟨fun p hp hp' => ?_, fun hmem => ?_⟩
  · rw [s.pagesOf hb] at hp
    rw [s.pagesOf hc] at hp'
    exact hl.disj hp hp'
  · rw [s.pagesOf hb] at hmem
    simp [hl.page hmem] at hc

end Pb
