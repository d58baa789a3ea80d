import PageBuf.Lib.Sequence
import PageBuf.Invariant.Calls

/-!
# Transfers — four algorithms, one result

Which of the four algorithms moves pages from one buffer to another depends on
two flags of the target's strategy. What the target contains afterwards, and
what the call returns, does not.
-/

namespace Pb

open StateRun Sequence

variable {env : Env} {h h' : Heap} {R R' : Nat → List Nat} {b src it offset len n pos : Nat}
  {B : Buffer}

/-- A state between two operations. -/
def Heap.WellFormed (h : Heap) : Prop := ∃ R, Inv h R

theorem Reachable.wellFormed (hr : Reachable env h) : h.WellFormed := by
  obtain ⟨R, s⟩ := hr.sound
  exact ⟨R, s.inv⟩

/-- The first `n` bytes of `src` are in `b` at the place `pos`; the source is
as it was and neither buffer has an empty page. -/
structure Spliced (b src pos n : Nat) (h h' : Heap) : Prop where
  wellFormed : h'.WellFormed
  content : h'.content b = splice (h.content b) pos ((h.content src).take n)
  source : h'.content src = h.content src
  full : h'.Full (h'.pagesOf b)
  sourceFull : h'.Full (h'.pagesOf src)

/-- A transfer between two buffers that fails only when it must. -/
theorem Transfers.spliced {Fails Inside AtEnd : Prop} {pre post : List UInt8} (hi : Inv h R)
    (hb : (h.buffers b).isSome) (hs : (h.buffers src).isSome) (hne : src ≠ b)
    (hk : Transfers env b src h R len Fails pre post Inside AtEnd n h')
    (hno : ¬Refused env) (hfails : ¬Fails) (hin : Inside) (hfull : h.Full (R b))
    (hsfull : h.Full (R src)) (hpre : pre = (h.content b).take pos)
    (hpost : post = (h.content b).drop pos) :
    n = min len (h.content src).length ∧ Spliced b src pos n h h' := by
  obtain ⟨-, hrest⟩ := hk
  obtain ⟨hall, R', out, -, hout, g⟩ := hrest (.inr hno)
  have hl := hi.core.links
  have hl' := g.core.links
  have hsome := Heap.buffers_isSome_congr g.frame.kind
  have hb' : (h'.buffers b).isSome := by rwa [hsome]
  have hs' : (h'.buffers src).isSome := by rwa [hsome]
  have hsame : ∀ p ∈ R src, Same h h' p := fun p hp => g.frame.same hne hp
  rw [hl.content hs]
  refine ⟨by_contra fun hn => hfails (hall hne hn), ⟨R', g.core, g.totals⟩, ?_, ?_, ?_, ?_⟩
  · rw [hl'.content hb', g.content, hout hne, hpre, hpost, hl.content hs]
    rfl
  · rw [hl'.content hs', hl.content hs, g.frame.ring hne, flat_of_same hsame]
  · rw [hl'.pagesOf hb']
    exact g.full hfull hin
  · intro p hp
    rw [hl'.pagesOf hs', g.frame.ring hne] at hp
    rw [(hsame p hp).len]
    exact hsfull p hp

/-- **Any of the four algorithms** returns the length it could take from the
source, splices those bytes in at the insertion point and leaves the source
as it was. -/
theorem transfer_spliced (hw : h.WellFormed) (hB : h.buffers b = some B)
    (hop : B.operations = .trivial) (hsrc : h.IsTrivial src) (hne : src ≠ b)
    (hfull : h.Full (h.pagesOf b)) (hsfull : h.Full (h.pagesOf src)) (hlen : len < 2 ^ 64)
    (hg : ∀ k, env.grants k = true) :
    (B.strategy.rejectsWrite = false →
      Yields (trivialBufferWriteBuffer env b src len) h (fun n h' =>
        n = min len (h.content src).length ∧
          Spliced b src (h.content b).length n h h')) ∧
    ∀ it offset, h.IsPosition b it offset → (it ≠ b → B.strategy.rejectsInsert = false) →
      Yields (trivialBufferInsertBuffer env b it offset src len) h (fun n h' =>
        n = min len (h.content src).length ∧
          Spliced b src (h.positionOf b it offset) n h h') := by
  obtain ⟨R, hi⟩ := hw
  have hl := hi.core.links
  have hb : (h.buffers b).isSome := by rw [hB]; rfl
  have hs := hsrc.isSome
  have hno : ¬Refused env := by
    rintro ⟨k, hk⟩
    simp [hg k] at hk
  rw [hl.pagesOf hb] at hfull
  rw [hl.pagesOf hs] at hsfull
  constructor
  · intro hacc
    refine (trivialBufferWriteBuffer_spec hi hB hop hsrc hsfull hlen).mono ?_
    intro n h' hk
    refine hk.spliced hi hb hs hne hno ?_ trivial hfull hsfull ?_ ?_
    · simp [hno, hacc]
    · rw [List.take_length, hl.content hb]
    · rw [List.drop_length]
  · intro it offset hpos hacc
    obtain ⟨k₁, k₂, hR, hit, hin⟩ := hl.position hb hpos
    refine (trivialBufferInsertBuffer_spec hi hB hop hsrc hsfull hR hit hlen
      (fun hself => absurd hself hne)).mono ?_
    intro n h' hk
    refine hk.spliced hi hb hs hne hno ?_ hin hfull hsfull ?_ ?_
    · rintro (hr | ⟨hit', hr⟩)
      · exact hno hr
      · simp [hacc hit'] at hr
    · exact hl.before hb hR hit offset
    · exact hl.behind hb hR hit offset

/-! ## Where a transfer falls short -/

/-- A transfer between two sound buffers that returns another number than the
length it could take from the source. -/
structure FallsShort (env : Env) (h : Heap) (b src len : Nat) : Prop where
  reachable : Reachable env h
  target : h.IsTrivial b
  source : h.IsTrivial src
  distinct : src ≠ b
  full : h.Full (h.pagesOf b)
  sourceFull : h.Full (h.pagesOf src)
  answer : ∃ n, h.answer env (.writeBuffer b src len) = some (.count n) ∧
    n ≠ min len (h.content src).length

/-- The byte 7 in the buffer 1, and the empty buffer 3. -/
def Heap.oneByte (env : Env) (strategy : Strategy) : Heap :=
  ((Heap.blank.after env (.create trivialBufferStrategy)).after env (.create strategy)).after env
    (.writeData 1 [7])

/-- Surroundings that grant the first seven requests and refuse the others. -/
def Env.frugal : Env := ⟨fun k => decide (k < 7), fun _ => true, fun _ n => n⟩

theorem transfer_spliced_oneByte :
    (trivialBufferStrategy.rejectsWrite = false →
      Yields (trivialBufferWriteBuffer .generous 3 1 1) (.oneByte .generous trivialBufferStrategy)
        (fun n h' => n = min 1
            ((Heap.oneByte .generous trivialBufferStrategy).content 1).length ∧
          Spliced 3 1 ((Heap.oneByte .generous trivialBufferStrategy).content 3).length n
            (.oneByte .generous trivialBufferStrategy) h')) ∧
    ∀ it offset, (Heap.oneByte .generous trivialBufferStrategy).IsPosition 3 it offset →
      (it ≠ 3 → trivialBufferStrategy.rejectsInsert = false) →
      Yields (trivialBufferInsertBuffer .generous 3 it offset 1 1)
        (.oneByte .generous trivialBufferStrategy) (fun n h' =>
          n = min 1 ((Heap.oneByte .generous trivialBufferStrategy).content 1).length ∧
            Spliced 3 1 ((Heap.oneByte .generous trivialBufferStrategy).positionOf 3 it offset) n
              (.oneByte .generous trivialBufferStrategy) h') :=
  transfer_spliced (B := { strategy := trivialBufferStrategy, operations := .trivial })
    (Reachable.wellFormed
      (Reachable.after (Reachable.after (Reachable.after reachable_blank trivial (by decide)
        (by decide)) trivial (by decide) (by decide)) ⟨_, rfl, rfl⟩ (by decide) (by decide)))
    rfl rfl ⟨_, rfl, rfl⟩ (by decide) (by unfold Heap.Full; decide)
    (by unfold Heap.Full; decide) (by decide) (fun _ => rfl)

/-- A strategy that rejects writing, and a refused allocation. -/
theorem transfer_short :
    FallsShort .generous
      (.oneByte .generous { trivialBufferStrategy with rejectsWrite := true }) 3 1 1 ∧
    FallsShort .frugal (.oneByte .frugal trivialBufferStrategy) 3 1 1 := by
  refine ⟨⟨?_, ⟨_, rfl, rfl⟩, ⟨_, rfl, rfl⟩, by decide, by unfold Heap.Full; decide,
    by unfold Heap.Full; decide, 0, by decide⟩, ⟨?_, ⟨_, rfl, rfl⟩, ⟨_, rfl, rfl⟩, by decide,
    by unfold Heap.Full; decide, by unfold Heap.Full; decide, 0, by decide⟩⟩
  · exact Reachable.after (Reachable.after (Reachable.after reachable_blank trivial (by decide)
      (by decide)) trivial (by decide) (by decide)) ⟨_, rfl, rfl⟩ (by decide) (by decide)
  · exact Reachable.after (Reachable.after (Reachable.after reachable_blank trivial (by decide)
      (by decide)) trivial (by decide) (by decide)) ⟨_, rfl, rfl⟩ (by decide) (by decide)

end Pb
