import PageBuf.Invariant.Links

/-!
# Iterators — walking a ring, and the frame of an operation

How the iterators of a trivial buffer move along its ring, the audit of the
data size, and the relation between the states before and after an operation
on one buffer: `Frame` (nothing else is touched) and `Stable` (as long as the
revision stands, iterators stay valid).
-/

namespace Pb

open StateRun Function Ring RefCount

variable {env : Env} {h h' h'' : Heap} {R R' R'' : Nat → List Nat} {F X l₁ l₂ : List Nat}
  {b p : Nat} {B : Buffer}

/-! ## Iterators -/

theorem Links.nodup (hl : Links h R F) (hb : (h.buffers b).isSome) : (R b).Nodup :=
  (List.nodup_cons.mp (hl.ring hb).nodup).2

theorem Links.notMem_self (hl : Links h R F) (hb : (h.buffers b).isSome) : b ∉ R b :=
  (List.nodup_cons.mp (hl.ring hb).nodup).1

theorem Links.length_le (hl : Links h R F) (hb : (h.buffers b).isSome) :
    (R b).length ≤ h.next := by
  have hsub : R b ⊆ List.range h.next := by
    intro p hp
    exact List.mem_range.mpr (hl.fresh (hl.node_live hb (List.mem_cons_of_mem b hp)))
  simpa using List.Nodup.length_le_of_subset (hl.nodup hb) hsub

/-- The pages read off the links are those of the ring. -/
theorem Links.pagesOf (hl : Links h R F) (hb : (h.buffers b).isSome) : h.pagesOf b = R b := by
  have hring := hl.ring hb
  rw [Heap.pagesOf, hring.next_end]
  exact (show IsRing h.nextOf h.prevOf b ([] ++ R b) from hring).walk_eq (hl.length_le hb)

theorem getIterator_run (hl : Links h R F) (hb : (h.buffers b).isSome) :
    trivialBufferGetIterator b h = .ok ((R b).headD b, h) := by
  obtain ⟨E, hE⟩ := Option.isSome_iff_exists.mp (hl.node_live hb List.mem_cons_self)
  refine (bind_run (getPage_run hE)).trans (deref_run ?_)
  rw [← Heap.nextOf_eq hE, (hl.ring hb).next_end]

theorem nextIterator_run (hl : Links h R F) (hb : (h.buffers b).isSome)
    (hR : R b = l₁ ++ p :: l₂) : trivialBufferNextIterator p h = .ok (l₂.headD b, h) := by
  obtain ⟨P, hP⟩ := Option.isSome_iff_exists.mp
    (hl.node_live hb (List.mem_cons_of_mem b (by simp [hR] : p ∈ R b)))
  refine (bind_run (getPage_run hP)).trans (deref_run ?_)
  have hring := hl.ring hb
  rw [hR] at hring
  rw [← Heap.nextOf_eq hP, hring.next_mem]

/-- The iterator after a cut, from the one before it. -/
theorem nextIterator_cut (hl : Links h R F) (hb : (h.buffers b).isSome) (hR : R b = l₁ ++ l₂) :
    trivialBufferNextIterator (l₁.getLastD b) h = .ok (l₂.headD b, h) := by
  have hmem : l₁.getLastD b ∈ b :: R b := by
    rw [hR]
    exact List.cons_subset_cons b (List.subset_append_left l₁ l₂) (getLastD_mem b l₁)
  obtain ⟨P, hP⟩ := Option.isSome_iff_exists.mp (hl.node_live hb hmem)
  refine (bind_run (getPage_run hP)).trans (deref_run ?_)
  have hring := hl.ring hb
  rw [hR] at hring
  rw [← Heap.nextOf_eq hP, hring.next_cut]

/-- The iterator before a cut, from the one after it. -/
theorem prevIterator_run (hl : Links h R F) (hb : (h.buffers b).isSome)
    (hR : R b = l₁ ++ l₂) :
    trivialBufferPrevIterator (l₂.headD b) h = .ok (l₁.getLastD b, h) := by
  have hmem : l₂.headD b ∈ b :: R b := by
    rw [hR]
    exact List.cons_subset_cons b (List.subset_append_right l₁ l₂) (headD_mem b l₂)
  obtain ⟨P, hP⟩ := Option.isSome_iff_exists.mp (hl.node_live hb hmem)
  refine (bind_run (getPage_run hP)).trans (deref_run ?_)
  have hring := hl.ring hb
  rw [hR] at hring
  rw [← Heap.prevOf_eq hP, hring.prev_cut]

section Virtual

variable (ht : h.IsTrivial b)

include ht

theorem Heap.IsTrivial.isSome : (h.buffers b).isSome := by
  obtain ⟨B, hB, -⟩ := ht
  rw [hB]
  rfl

theorem bufferGetIterator_run (hl : Links h R F) :
    bufferGetIterator env b h = .ok ((R b).headD b, h) := by
  obtain ⟨B, hB, hop⟩ := ht
  refine (bind_run (getBuffer_run hB)).trans ?_
  rw [hop]
  exact getIterator_run hl (by rw [hB]; rfl)

theorem bufferNextIterator_run (hl : Links h R F) (hR : R b = l₁ ++ p :: l₂) :
    bufferNextIterator env b p h = .ok (l₂.headD b, h) := by
  obtain ⟨B, hB, hop⟩ := ht
  refine (bind_run (getBuffer_run hB)).trans ?_
  rw [hop]
  exact nextIterator_run hl (by rw [hB]; rfl) hR

/-- From the end iterator the ring leads to its first page. -/
theorem bufferNextIterator_end (hl : Links h R F) :
    bufferNextIterator env b b h = .ok ((R b).headD b, h) := by
  obtain ⟨B, hB, hop⟩ := ht
  refine (bind_run (getBuffer_run hB)).trans ?_
  rw [hop]
  exact getIterator_run hl (by rw [hB]; rfl)

theorem bufferPrevIterator_run (hl : Links h R F) (hR : R b = l₁ ++ l₂) :
    bufferPrevIterator env b (l₂.headD b) h = .ok (l₁.getLastD b, h) := by
  obtain ⟨B, hB, hop⟩ := ht
  refine (bind_run (getBuffer_run hB)).trans ?_
  rw [hop]
  exact prevIterator_run hl (by rw [hB]; rfl) hR

/-- From the end iterator the ring leads back to its last page. -/
theorem bufferPrevIterator_end (hl : Links h R F) :
    bufferPrevIterator env b b h = .ok ((R b).getLastD b, h) := by
  have hcut : R b = R b ++ [] := (List.append_nil _).symm
  show bufferPrevIterator env b (([] : List Nat).headD b) h = _
  exact bufferPrevIterator_run ht hl hcut

/-- From the first page the ring leads to the second one. -/
theorem bufferNextIterator_first {l : List Nat} (hl : Links h R F) (hR : R b = p :: l) :
    bufferNextIterator env b p h = .ok (l.headD b, h) := by
  have hcut : R b = [] ++ p :: l := hR
  exact bufferNextIterator_run ht hl hcut

end Virtual

/-- An iterator at a cut is the end exactly if nothing follows. -/
theorem Links.headD_eq_iff (hl : Links h R F) (hb : (h.buffers b).isSome)
    (hR : R b = l₁ ++ l₂) : l₂.headD b = b ↔ l₂ = [] := by
  constructor
  · intro he
    cases l₂ with
    | nil => rfl
    | cons p l₂ =>
        simp only [List.headD_cons] at he
        exact absurd (by simp [hR, he]) (hl.notMem_self hb)
  · rintro rfl
    rfl

theorem Links.headD_eq_self_iff (hl : Links h R F) (hb : (h.buffers b).isSome) :
    (R b).headD b = b ↔ R b = [] :=
  hl.headD_eq_iff hb (List.nil_append _).symm

theorem Links.getLastD_eq_iff (hl : Links h R F) (hb : (h.buffers b).isSome) :
    (R b).getLastD b = b ↔ R b = [] := by
  constructor
  · intro he
    rcases List.eq_nil_or_concat' (R b) with hnil | ⟨l, p, hR⟩
    · exact hnil
    · rw [hR, getLastD_concat] at he
      exact absurd (by simp [hR, he]) (hl.notMem_self hb)
  · intro he
    rw [he]
    rfl

/-! ## The audit -/

/-- `pb_trivial_buffer_get_data_size`: the audit passes. -/
theorem trivialBufferGetDataSize_run (hc : Core h R F X) (htot : Totals h R)
    (hB : h.buffers b = some B) : trivialBufferGetDataSize b h = .ok (B.dataSize, h) := by
  have hb : (h.buffers b).isSome := by rw [hB]; rfl
  have hloop : Yields (loopM .diverges (auditRound b) (h.next + 1) ((R b).headD b, 0)) h
      (fun n h' => n = B.dataSize ∧ h' = h) := by
    refine Yields.loop
      (I := fun n s h' => h' = h ∧ ∃ l₁ l₂, R b = l₁ ++ l₂ ∧ s.1 = l₂.headD b ∧
        s.2 = (l₁.map h.lenOf).sum ∧ n = l₂.length) ?_ _ (R b).length _ _ ?_ ?_
    · rintro n ⟨it, size⟩ h' ⟨heq, l₁, l₂, hR, rfl, rfl, rfl⟩
      subst heq
      unfold auditRound trivialBufferIsEndIterator
      simp only [decide_eq_true_eq, hc.links.headD_eq_iff hb hR]
      split
      · next hnil =>
          refine yields_pure.mpr ⟨?_, rfl⟩
          rw [htot b B hB, hR, hnil, List.append_nil]
      · next hne =>
          obtain ⟨p, k, rfl⟩ := List.exists_cons_of_ne_nil hne
          have hp : (h'.pages p).isSome :=
            hc.links.node_live hb (List.mem_cons_of_mem b (by simp [hR] : p ∈ R b))
          refine Yields.step (pageGetLen_run hp) ?_
          refine Yields.step (nextIterator_run hc.links hb hR) (yields_pure.mpr ?_)
          exact ⟨k.length, by simp, rfl, l₁ ++ [p], k, by simp [hR], rfl, by simp, rfl⟩
    · exact ⟨rfl, [], R b, rfl, rfl, rfl, rfl⟩
    · have := hc.links.length_le hb
      omega
  obtain ⟨n, _, hrun, rfl, rfl⟩ := hloop
  refine (bind_run (getIterator_run hc.links hb)).trans ?_
  refine (bind_run get_run).trans ((bind_run hrun).trans ((bind_run (getBuffer_run hB)).trans ?_))
  rw [if_pos rfl]
  rfl

/-! ## Frames -/

/-- The number of times the revision of a buffer was incremented. -/
def Heap.revOf (h : Heap) (b : Nat) : Nat := ((h.buffers b).map Buffer.dataRevision).getD 0

theorem Heap.revOf_eq (hB : h.buffers b = some B) : h.revOf b = B.dataRevision := by
  simp [revOf, hB]

theorem bufferGetDataRevision_run (hB : h.buffers b = some B) :
    bufferGetDataRevision b h = .ok (revisionValue (h.revOf b), h) := by
  rw [Heap.revOf_eq hB]
  exact (bind_run (getBuffer_run hB)).trans rfl

/-- An operation on `b` leaves the other buffers, their pages and the bytes of
these alone. -/
structure Frame (b : Nat) (h h' : Heap) (R R' : Nat → List Nat) : Prop where
  world : World h h'
  kind : h'.kindOf = h.kindOf
  ring : ∀ {c}, c ≠ b → R' c = R c
  buffer : ∀ {c}, c ≠ b → h'.buffers c = h.buffers c
  same : ∀ {c p}, c ≠ b → p ∈ R c → Same h h' p
  revision : h.revOf b ≤ h'.revOf b

theorem Frame.refl (b : Nat) (h : Heap) (R : Nat → List Nat) : Frame b h h R R :=
  ⟨World.refl h, rfl, fun _ => rfl, fun _ => rfl, fun _ _ => Same.refl h _, Nat.le_refl _⟩

theorem Frame.trans (f : Frame b h h' R R') (g : Frame b h' h'' R' R'') :
    Frame b h h'' R R'' where
  world := f.world.trans g.world
  kind := g.kind.trans f.kind
  ring := fun hc => (g.ring hc).trans (f.ring hc)
  buffer := fun hc => (g.buffer hc).trans (f.buffer hc)
  same := fun hc hp => (f.same hc hp).trans (g.same hc (by rwa [f.ring hc]))
  revision := Nat.le_trans f.revision g.revision

/-- While the revision stands, the pages of `b` stay what they are and new
ones only follow, and not to an empty buffer. -/
def Stable (b : Nat) (h h' : Heap) (R R' : Nat → List Nat) : Prop :=
  h'.revOf b = h.revOf b →
    R b <+: R' b ∧ (∀ p ∈ R b, Same h h' p) ∧ (R b = [] → R' b = [])

theorem Stable.refl (b : Nat) (h : Heap) (R : Nat → List Nat) : Stable b h h R R :=
  fun _ => ⟨List.prefix_refl _, fun _ _ => Same.refl h _, id⟩

theorem Stable.trans (f : Frame b h h' R R') (g : Frame b h' h'' R' R'')
    (s : Stable b h h' R R') (t : Stable b h' h'' R' R'') : Stable b h h'' R R'' := by
  intro he
  have hf := f.revision
  have hg := g.revision
  obtain ⟨hp, hs, hnil⟩ := s (by omega)
  obtain ⟨hp', hs', hnil'⟩ := t (by omega)
  exact ⟨hp.trans hp', fun p hm => (hs p hm).trans (hs' p (hp.subset hm)),
    fun h₀ => hnil' (hnil h₀)⟩

/-- A change that no page of a ring feels, and no counter of a buffer. -/
theorem Quiet.frame {P : Nat → Prop} (q : Quiet P h h') (hP : ∀ {c p}, p ∈ R c → P p) (b : Nat) :
    Frame b h h' R R where
  world := q.world
  kind := by
    funext c
    simp [Heap.kindOf, q.buffers]
  ring := fun _ => rfl
  buffer := fun _ => by rw [q.buffers]
  same := fun _ hp => q.same (hP hp)
  revision := by simp [Heap.revOf, q.buffers]

theorem Quiet.stable {P : Nat → Prop} (q : Quiet P h h') (hP : ∀ {c p}, p ∈ R c → P p) (b : Nat) :
    Stable b h h' R R :=
  fun _ => ⟨List.prefix_refl _, fun _ hp => q.same (hP hp), id⟩

theorem Heap.IsTrivial.congr (ht : h.IsTrivial b) (hk : h'.kindOf = h.kindOf) :
    h'.IsTrivial b := by
  obtain ⟨B, hB, hop⟩ := ht
  have : h'.kindOf b = some (B.strategy, B.operations) := by
    rw [hk, kindOf, hB]
    rfl
  obtain ⟨B', hB', heq⟩ := Option.map_eq_some_iff.mp this
  exact ⟨B', hB', by rw [(Prod.mk.inj heq).2, hop]⟩

end Pb
