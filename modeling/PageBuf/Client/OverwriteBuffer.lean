import PageBuf.Invariant.OverwriteBuffer
import PageBuf.Client.Isolation
import PageBuf.Client.Transfers

/-!
# OverwriteBuffer — when one buffer may overwrite another

What `overwrite_buffer` promises, and for which fragmentations it keeps the
promise: no page of the one buffer may straddle a page of the other within the
bytes that are to be overwritten.
-/

namespace Pb

open StateRun Fragments Relation

variable {env : Env} {h h' : Heap} {R : Nat → List Nat} {b src len n : Nat} {B : Buffer}

/-- The loop of `overwrite_buffer` comes to the variables `x.1` and the heap
`x.2`. -/
def OverwriteBufferReaches (env : Env) (b src len : Nat) (h : Heap)
    (x : OverwriteBufferLoop × Heap) : Prop :=
  ∃ it srcIt h₁ h₂, bufferGetIterator env b h = .ok (it, h₁) ∧
    bufferGetIterator env src h₁ = .ok (srcIt, h₂) ∧
    ReflTransGen (OverwriteBufferStep env b src) (⟨it, srcIt, len, 0, 0, 0⟩, h₂) x

/-- The first `n` bytes of `src` are written over those of `b`, and no other
buffer has changed. -/
structure Overwritten (b src n : Nat) (h h' : Heap) : Prop where
  wellFormed : h'.WellFormed
  content : h'.content b = (h.content src).take n ++ (h.content b).drop n
  others : ∀ c, c ≠ b → (h.buffers c).isSome → Unchanged c h h'

/-- What `overwrite_buffer` promises. -/
structure OverwriteBufferLaw (env : Env) (b src len : Nat) (h : Heap) : Prop where
  result : Yields (trivialBufferOverwriteBuffer env b src len) h (fun n h' =>
    n = min len (min (h.content src).length (h.content b).length) ∧ Overwritten b src n h h')
  copies : ∀ x, OverwriteBufferReaches env b src len h x → CopyInside b src x.1 x.2

theorem Became.overwritten {r : Nat} (hi : Inv h R) (hb : (h.buffers b).isSome)
    (hs : (h.buffers src).isSome)
    (c : Became b h h' R R r ((h.flat (R src)).take n ++ (h.flat (R b)).drop n)) :
    Overwritten b src n h h' where
  wellFormed := ⟨R, c.inv⟩
  content := by
    have hb' : (h'.buffers b).isSome := by rwa [Heap.buffers_isSome_congr c.frame.kind]
    rw [c.core.links.content hb', c.content, hi.core.links.content hb, hi.core.links.content hs]
  others := fun d hd hds => by
    have hds' : (h'.buffers d).isSome := by rwa [Heap.buffers_isSome_congr c.frame.kind]
    have hsame : ∀ p ∈ R d, Same h h' p := fun p hp => c.frame.same hd hp
    refine ⟨c.frame.buffer hd, ?_, ?_⟩
    · rw [c.core.links.pagesOf hds', hi.core.links.pagesOf hds]
    · rw [c.core.links.content hds', hi.core.links.content hds, flat_of_same hsame]

/-- The loop before its first round. -/
theorem overwriteBuffer_start (hi : Inv h R) (hf : h.Fits) (hfull : h.Full (R b))
    (hsfull : h.Full (R src)) (len : Nat) :
    OverwriteBufferInv b src len h h R ⟨(R b).headD b, (R src).headD src, len, 0, 0, 0⟩
      ⟨0, (R b).map h.lenOf⟩ ⟨0, (R src).map h.lenOf⟩ where
  sum := Nat.zero_add len
  target := Heap.StandsAt.start b hfull
  source := Heap.StandsAt.start src hsfull
  offset := rfl
  srcOffset := rfl
  core := hi.core
  fits := hf
  frame := Frame.refl b h R
  len := fun _ _ => rfl
  content := rfl
  buffers := rfl

theorem overwriteBufferReaches_iff (hl : Links h R []) (ht : h.IsTrivial b)
    (hsrc : h.IsTrivial src) {x : OverwriteBufferLoop × Heap} :
    OverwriteBufferReaches env b src len h x ↔ ReflTransGen (OverwriteBufferStep env b src)
      (⟨(R b).headD b, (R src).headD src, len, 0, 0, 0⟩, h) x := by
  have hit : bufferGetIterator env b h = .ok ((R b).headD b, h) := bufferGetIterator_run ht hl
  have hsit : bufferGetIterator env src h = .ok ((R src).headD src, h) :=
    bufferGetIterator_run hsrc hl
  constructor
  · rintro ⟨it, srcIt, h₁, h₂, hrun, hsrun, hreach⟩
    rw [hit] at hrun
    cases hrun
    rw [hsit] at hsrun
    cases hsrun
    exact hreach
  · intro hreach
    exact ⟨_, _, _, _, hit, hsit, hreach⟩

section Law

variable (hi : Inv h R) (hf : h.Fits) (hB : h.buffers b = some B) (hop : B.operations = .trivial)
  (hsrc : h.IsTrivial src) (hne : src ≠ b) (hfull : h.Full (R b)) (hsfull : h.Full (R src))
  (hno : ¬Refused env)

include hi hf hB hop hsrc hfull hsfull hne hno

/-- The promise is kept over nested fragmentations. -/
theorem overwriteBuffer_of_nested (hacc : B.strategy.rejectsOverwrite = false)
    (hn : Nested len ((R b).map h.lenOf) ((R src).map h.lenOf)) :
    OverwriteBufferLaw env b src len h := by
  have ht : h.IsTrivial b := ⟨B, hB, hop⟩
  have hstart : OverwriteBufferNested b src len h R
      (⟨(R b).headD b, (R src).headD src, len, 0, 0, 0⟩, h) :=
    ⟨_, _, overwriteBuffer_start hi hf hfull hsfull len, .inr (.inl rfl), hn⟩
  constructor
  · unfold trivialBufferOverwriteBuffer
    refine Yields.step (getBuffer_run hB) ?_
    rw [hacc, if_neg (by decide)]
    refine Yields.step (bufferGetIterator_run ht hi.core.links) ?_
    refine Yields.step (bufferGetIterator_run hsrc hi.core.links) ?_
    refine Yields.bind (nested_loop hi.core ht hsrc hne hfull hsfull hno hstart
      (Nat.lt_succ_self len)) ?_
    rintro n h' ⟨s, P, Q, rfl, t, hover⟩
    refine (t.finish hi hB).mono ?_
    rintro n h'' ⟨rfl, hbecame⟩
    refine ⟨?_, hbecame.overwritten hi ht.isSome hsrc.isSome⟩
    have hsum := t.sum
    have hle := t.target.le_length
    have hsle := t.source.le_length
    rw [hi.core.links.content ht.isSome, hi.core.links.content hsrc.isSome]
    -- the loop ends at the length or at the end of one of the buffers
    rcases hover with hz | hnil | hnil
    · omega
    · have := t.target.eq_length hnil
      omega
    · have := t.source.eq_length hnil
      omega
  · intro x hreach
    exact copies_of_nested hi.core ht hsrc hne hfull hsfull hno
      ((overwriteBufferReaches_iff hi.core.links ⟨B, hB, hop⟩ hsrc).mp hreach) hstart

/-- Fragmentations for which no copy leaves its page are nested. -/
theorem nested_of_overwriteBuffer
    (hcopies : ∀ x, OverwriteBufferReaches env b src len h x → CopyInside b src x.1 x.2) :
    Nested len ((R b).map h.lenOf) ((R src).map h.lenOf) :=
  nested_of_copies hi.core ⟨B, hB, hop⟩ hsrc hne hfull hsfull hno
    (overwriteBuffer_start hi hf hfull hsfull len) (.inr (.inl rfl))
    (fun x hx => hcopies x ((overwriteBufferReaches_iff hi.core.links ⟨B, hB, hop⟩ hsrc).mpr hx))

end Law

/-- **`overwrite_buffer` keeps its promise** exactly if, within the first `len`
bytes, of any two pages of the two buffers that have bytes in common one covers
the other. -/
theorem overwriteBuffer_law_iff (hw : h.WellFormed) (hf : h.Fits) (hB : h.buffers b = some B)
    (hop : B.operations = .trivial) (hacc : B.strategy.rejectsOverwrite = false)
    (hsrc : h.IsTrivial src) (hne : src ≠ b) (hfull : h.Full (h.pagesOf b))
    (hsfull : h.Full (h.pagesOf src)) (hg : ∀ k, env.grants k = true) :
    OverwriteBufferLaw env b src len h ↔
      Nested len ((h.pagesOf b).map h.lenOf) ((h.pagesOf src).map h.lenOf) := by
  obtain ⟨R, hi⟩ := hw
  have hno : ¬Refused env := by
    rintro ⟨k, hk⟩
    simp [hg k] at hk
  rw [hi.core.links.pagesOf (by rw [hB]; rfl)] at hfull ⊢
  rw [hi.core.links.pagesOf hsrc.isSome] at hsfull ⊢
  constructor
  · intro hlaw
    exact nested_of_overwriteBuffer hi hf hB hop hsrc hne hfull hsfull hno hlaw.copies
  · intro hn
    exact overwriteBuffer_of_nested hi hf hB hop hsrc hne hfull hsfull hno hacc hn

/-! ## Pages that straddle -/

/-- A strategy for pages of `n` bytes at most. -/
def pagesUpTo (n : Nat) : Strategy := { trivialBufferStrategy with pageSize := n }

/-- Six bytes on two pages in the buffer 1, and six bytes on pages of up to `n`
bytes in the buffer 3. -/
def Heap.sixAndSix (n : Nat) : Heap :=
  ((Heap.twoBuffers (pagesUpTo 3) (pagesUpTo n)).after .generous
    (.writeData 1 [1, 2, 3, 4, 5, 6])).after .generous (.writeData 3 [7, 7, 7, 7, 7, 7])

theorem reachable_sixAndSix : Reachable .generous (.sixAndSix 4) ∧
    Reachable .generous (.sixAndSix 6) := by
  constructor
  · exact Reachable.after (Reachable.after (reachable_twoBuffers _ _) (isTrivial_twoBuffers _ _).1
      (by decide) (by decide)) ⟨_, rfl, rfl⟩ (by decide) (by decide)
  · exact Reachable.after (Reachable.after (reachable_twoBuffers _ _) (isTrivial_twoBuffers _ _).1
      (by decide) (by decide)) ⟨_, rfl, rfl⟩ (by decide) (by decide)

theorem Reachable.fits (hr : Reachable env h) : h.Fits := by
  obtain ⟨R, s⟩ := hr.sound
  exact s.fits hr.small

theorem overwriteBuffer_law_iff_sixAndSix :
    OverwriteBufferLaw .generous 3 1 6 (.sixAndSix 6) ↔
      Nested 6 (((Heap.sixAndSix 6).pagesOf 3).map (Heap.sixAndSix 6).lenOf)
        (((Heap.sixAndSix 6).pagesOf 1).map (Heap.sixAndSix 6).lenOf) :=
  overwriteBuffer_law_iff reachable_sixAndSix.2.wellFormed reachable_sixAndSix.2.fits rfl rfl rfl
    ⟨_, rfl, rfl⟩ (by decide) (by unfold Heap.Full; decide) (by unfold Heap.Full; decide)
    (fun _ => rfl)

/-- Two buffers whose pages are not empty, of which the one cannot be overwritten
with the other. -/
structure OverwriteBufferFails (env : Env) (b src len : Nat) (h : Heap) : Prop where
  reachable : Reachable env h
  grants : ∀ k, env.grants k = true
  distinct : src ≠ b
  target : ∃ B, h.buffers b = some B ∧ B.operations = .trivial ∧
    B.strategy.rejectsOverwrite = false
  source : h.IsTrivial src
  full : h.Full (h.pagesOf b)
  sourceFull : h.Full (h.pagesOf src)
  fails : ¬OverwriteBufferLaw env b src len h

/-- The second of two source pages of 3 bytes does not fit into what is left of
a target page of 4 bytes: the copy leaves the memory of the page. -/
theorem overwriteBuffer_straddles : OverwriteBufferFails .generous 3 1 6 (.sixAndSix 4) where
  reachable := reachable_sixAndSix.1
  grants := fun _ => rfl
  distinct := by decide
  target := ⟨_, rfl, rfl, rfl⟩
  source := ⟨_, rfl, rfl⟩
  full := by unfold Heap.Full; decide
  sourceFull := by unfold Heap.Full; decide
  fails := fun hlaw => by
    have hrun : (trivialBufferOverwriteBuffer .generous 3 1 6 (.sixAndSix 4)).isOk = false := by
      decide +kernel
    obtain ⟨n, h', hok, -⟩ := hlaw.result
    rw [hok] at hrun
    cases hrun

end Pb
