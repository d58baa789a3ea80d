import PageBuf.Invariant.Bookkeeping
import PageBuf.Invariant.PageMoves

/-!
# Adds — pages that come beside the others

Making a page, mapping one and linking it leave the bounds of the pages that
are there, and no file gets longer. This needs no invariant: a new page is at an
address that no page has had.
-/

namespace Pb

open StateRun Function

variable {env : Env} {h h' h'' : Heap} {a b c d p x it off len n : Nat}

/-- The pages below `n`, which are all old ones, have the bounds they had. -/
structure Adds (n : Nat) (h h' : Heap) : Prop where
  next : h.next ≤ h'.next
  vec : n ≤ h.next → ∀ p, p < n → h'.vecOf p = h.vecOf p
  length : ∀ k, (h'.files k).length = (h.files k).length

theorem Adds.refl (n : Nat) (h : Heap) : Adds n h h :=
  ⟨Nat.le_refl _, fun _ _ _ => rfl, fun _ => rfl⟩

theorem Adds.trans (s : Adds n h h') (s' : Adds n h' h'') : Adds n h h'' where
  next := Nat.le_trans s.next s'.next
  vec := fun hn p hp => (s'.vec (Nat.le_trans hn s.next) p hp).trans (s.vec hn p hp)
  length := fun k => (s'.length k).trans (s.length k)

theorem Adds.of_pages (hn : h.next ≤ h'.next) (hp : h'.pages = h.pages)
    (hf : ∀ k, (h'.files k).length = (h.files k).length) : Adds n h h' :=
  ⟨hn, fun _ p _ => congrFun (Heap.vecOf_congr hp) p, hf⟩

instance : Bookkeeping (Adds n) where
  refl := Adds.refl n
  trans _ _ _ := Adds.trans
  rest hn hp _ _ hf := .of_pages hn hp hf
  buffer _ _ _ := .of_pages (Nat.le_refl _) rfl fun _ => rfl
  allocator _ _ _ := .of_pages (Nat.le_refl _) rfl fun _ => rfl
  closed := .of_pages (Nat.le_refl _) rfl fun _ => rfl

/-- All old pages have the bounds they had, then those below `n` do. -/
theorem Adds.of_next (s : Adds h.next h h') : Adds n h h' :=
  ⟨s.next, fun hn p hp => s.vec (Nat.le_refl _) p (Nat.lt_of_lt_of_le hp hn), s.length⟩

theorem Adds.lenOf (s : Adds h.next h h') (hp : p < h.next) : h'.lenOf p = h.lenOf p := by
  rw [Heap.lenOf, Heap.lenOf, s.vec (Nat.le_refl _) p hp]

/-! ## Changes of one page -/

/-- A new page is set to anything. -/
theorem adds_setPage {P : Option Page} (hp : n ≤ p) :
    Within (Adds n) (modify (·.setPage p P) : PbM Unit) :=
  .modify fun h => ⟨Nat.le_refl _, fun _ q hq => by
    have hne : q ≠ p := by omega
    simp only [Heap.vecOf, Heap.setPage, update_of_ne hne], fun _ => rfl⟩

theorem adds_modifyNewPage {f : Page → Page} (hp : n ≤ p) : Within (Adds n) (modifyPage p f) :=
  within_getPage.bind fun _ => adds_setPage hp

/-- A page gets other links or other data, not other bounds. -/
theorem adds_modifyPage {f : Page → Page} (hf : ∀ P, (f P).dataVec = P.dataVec) :
    Within (Adds n) (modifyPage p f) := by
  intro h
  unfold modifyPage
  refine returns_getPage fun P hP => Returns.of_run (modify_run _) ⟨Nat.le_refl _, ?_, fun _ => rfl⟩
  intro _ q _
  by_cases he : q = p
  · subst he
    simp [Heap.vecOf, Heap.setPage, hP, hf]
  · simp only [Heap.vecOf, Heap.setPage, update_of_ne he]

theorem adds_pageSetData (hp : n ≤ p) : Within (Adds n) (pageSetData p d) := by
  have hrest : Within (Adds n) (do
      let D ← getData d
      modifyPage p (fun P => { P with dataVec := D.dataVec, data := some d })
      dataGet d) :=
    within_getData.bind fun _ => (adds_modifyNewPage hp).bind fun _ => within_dataGet
  refine within_getPage.bind fun P => ?_
  dsimp only
  split
  · exact within_dataPut.bind fun _ => hrest
  · exact hrest

/-! ## Making pages -/

/-- The program makes a page at a new address, or none. -/
def Allots (m : PbM (Option Nat)) : Prop :=
  ∀ h, Returns m h (fun r h' => Adds h.next h h' ∧ ∀ p, r = some p → h.next ≤ p)

theorem Allots.within {m : PbM (Option Nat)} (hm : Allots m) : Within (Adds n) m :=
  fun h => (hm h).mono fun _ _ hpost => hpost.1.of_next

/-- What follows may do anything to the new page. -/
theorem Allots.bind {α : Type} {m : PbM (Option Nat)} {f : Option Nat → PbM α} (hm : Allots m)
    (hnone : ∀ n, Within (Adds n) (f none))
    (hsome : ∀ n p, n ≤ p → Within (Adds n) (f (some p))) : Within (Adds n) (m >>= f) := by
  intro h
  refine Returns.bind (hm h) fun r h₁ hpost => ?_
  obtain ⟨s, hnew⟩ := hpost
  cases r with
  | none => exact (hnone h.next h₁).mono fun _ h' s' => (s.trans s').of_next
  | some p =>
      exact (hsome h.next p (hnew p rfl) h₁).mono fun _ h' s' => (s.trans s').of_next

theorem allots_callocPage : Allots (callocPage env) := by
  intro h
  cases hg : env.grants h.calls with
  | false =>
      refine Returns.of_run (callocPage_refused hg) ⟨?_, fun p hp => by cases hp⟩
      exact .of_pages (Nat.le_refl _) rfl fun _ => rfl
  | true =>
      refine Returns.of_run (callocPage_run hg) ⟨?_, fun p hp => ?_⟩
      · refine ⟨Nat.le_succ _, fun _ q hq => ?_, fun _ => rfl⟩
        have hne : q ≠ h.next := by omega
        simp only [Heap.vecOf, Heap.setPage, update_of_ne hne]
        rfl
      · cases hp
        exact Nat.le_refl _

theorem allots_pageCreate : Allots (pageCreate env d) := by
  intro h
  refine Returns.bind (allots_callocPage h) fun r h₁ hpost => ?_
  obtain ⟨s, hnew⟩ := hpost
  cases r with
  | none => exact Returns.pure ⟨s, fun p hp => by cases hp⟩
  | some page =>
      refine Returns.bind (adds_pageSetData (hnew page rfl) h₁) fun _ h₂ s₂ => ?_
      refine Returns.pure ⟨s.trans s₂, fun p hp => ?_⟩
      cases hp
      exact hnew page rfl

theorem adds_pageTransfer : Within (Adds n) (pageTransfer env p len off) := by
  refine allots_callocPage.bind (fun _ => .pure) fun n page hp => ?_
  exact within_getPage.bind fun _ => within_deref.bind fun _ => (adds_pageSetData hp).bind fun _ =>
    (adds_modifyNewPage hp).bind fun _ => .pure

/-- A page on new data, which is given up again by its maker. -/
theorem adds_pageOn {r : Option Nat} : Within (Adds n) (do
    match r with
    | none => pure none
    | some data => do
        match ← pageCreate env data with
        | none => do
            dataPut data
            pure none
        | some page => do
            dataPut data
            pure (some page) : PbM (Option Nat)) := by
  cases r with
  | none => exact .pure
  | some data =>
      exact allots_pageCreate.bind (fun _ => within_dataPut.bind fun _ => .pure) fun _ _ _ =>
        within_dataPut.bind fun _ => .pure

theorem adds_trivialBufferPageCreate : Within (Adds n) (trivialBufferPageCreate env c len) :=
  within_getBuffer.bind fun _ => within_trivialDataCreate.bind fun _ => adds_pageOn

theorem adds_trivialBufferPageCreateRef {buf : Ptr} :
    Within (Adds n) (trivialBufferPageCreateRef env buf len) :=
  within_trivialDataCreateRef.bind fun _ => adds_pageOn

theorem adds_makeDataPage {buf : List UInt8} {i k : Nat} :
    Within (Adds n) (makeDataPage env c buf i k) := by
  refine adds_trivialBufferPageCreate.bind fun r => ?_
  cases r with
  | none => exact .pure
  | some page =>
      exact within_pageGetLen.bind fun _ => within_callerSlice.bind fun _ =>
        within_pageGetBase.bind fun _ => within_memWrite.bind fun _ => .pure

theorem adds_makeCopiedPage : Within (Adds n) (makeCopiedPage env c p len off) := by
  refine adds_trivialBufferPageCreate.bind fun r => ?_
  cases r with
  | none => exact .pure
  | some page =>
      exact within_getPage.bind fun _ => within_pageGetLen.bind fun _ =>
        within_memRead.bind fun _ => within_pageGetBase.bind fun _ =>
          within_memWrite.bind fun _ => .pure

theorem adds_transferAlgorithm {strategy : Strategy} :
    Within (Adds n) ((transferAlgorithm env c strategy).make p len off) := by
  unfold transferAlgorithm
  split
  · exact adds_pageTransfer
  · exact adds_makeCopiedPage
  · exact adds_pageTransfer
  · exact adds_makeCopiedPage

/-! ## Linking pages -/

theorem adds_linkPage {nextPage page : Nat} : Within (Adds n) (linkPage p nextPage page) := by
  refine .bind (adds_modifyPage ?_) fun _ => .bind (adds_modifyPage ?_) fun _ => adds_modifyPage ?_
  all_goals exact fun _ => rfl

theorem returns_lenOf (p : Nat) (h : Heap) :
    Returns (pageGetLen p) h (fun k h' => k = h.lenOf p ∧ h' = h) := by
  intro k h' hrun
  cases hP : h.pages p with
  | none =>
      rw [pageGetLen, bind_fails (e := .dangling) (by simp [getPage, hP])] at hrun
      cases hrun
  | some P =>
      rw [pageGetLen_run (by rw [hP]; rfl)] at hrun
      cases hrun
      exact ⟨rfl, rfl⟩

/-- A page of no bytes is not split, whatever the offset. -/
theorem trivialBufferInsert_offset (hlt : it < h.next) (hzero : h.lenOf it = 0) :
    trivialBufferInsert env b it off x h = trivialBufferInsert env b it 0 x h := by
  unfold trivialBufferInsert
  have hbump : Within (Adds h.next) (trivialBufferInsertBump env b it) :=
    within_trivialBufferInsertBump
  refine Returns.bind_congr (hbump h) fun _ h₁ s => ?_
  have hlen : h₁.lenOf it = 0 := (s.lenOf hlt).trans hzero
  refine Returns.bind_congr (returns_lenOf it h₁) fun k h₂ hk => ?_
  obtain rfl := hk.1.trans hlen
  by_cases hoff : off > 0
  · simp only [hoff, if_true, gt_iff_lt, Nat.lt_irrefl, if_false]
  · have he : off = 0 := by omega
    rw [he]

theorem adds_insertAt : Within (Adds n) (trivialBufferInsert env b it 0 x) := by
  refine within_trivialBufferInsertBump.bind fun _ => within_pageGetLen.bind fun nextLen => ?_
  simp only [gt_iff_lt, Nat.not_lt_zero, if_false, ne_eq, not_true_eq_false]
  refine within_getPage.bind fun N => Within.pure.bind fun r => ?_
  cases r with
  | none => exact .throw
  | some prevPage =>
      exact adds_linkPage.bind fun _ => within_pageGetLen.bind fun _ =>
        Within.bind (within_modifyBuffer (fun _ => rfl) fun _ => Nat.le_refl _) fun _ => .pure

/-! ## Mapping pages -/

theorem adds_mmapAllocatorMapPage : Within (Adds n) (mmapAllocatorMapPage env d off len) :=
  allots_pageCreate.bind (fun _ => within_dataPut.bind fun _ => .pure) fun _ _ hp =>
    within_getData.bind fun _ => (adds_modifyNewPage hp).bind fun _ => within_dataPut.bind fun _ =>
      .pure

theorem adds_mmapAllocatorPageMapForward :
    Within (Adds n) (mmapAllocatorPageMapForward env c it) := by
  refine within_getMmapAllocator.bind fun A => ?_
  cases A.fileFd with
  | none => exact .pure
  | some fd =>
      refine within_mmapPageFileOffset.bind fun o =>
        within_mmapAllocatorGetFileSize.bind fun size => ?_
      cases o with
      | none =>
          refine Within.pure.bind fun _ => .ite .pure ?_
          refine within_mmapAllocatorMapBlock.bind fun r => ?_
          cases r with
          | none => exact .pure
          | some q => exact adds_mmapAllocatorMapPage
      | some off =>
          refine within_pageGetLen.bind fun _ => Within.pure.bind fun _ => .ite .pure ?_
          refine within_mmapAllocatorMapBlock.bind fun r => ?_
          cases r with
          | none => exact .pure
          | some q => exact adds_mmapAllocatorMapPage

/-- **The first page of any buffer**, which an mmap buffer may have to map. -/
theorem adds_bufferGetIterator : Within (Adds n) (bufferGetIterator env c) := by
  refine within_getBuffer.bind fun B => ?_
  cases B.operations with
  | trivial => exact within_trivialBufferGetIterator
  | mmap a =>
      refine within_trivialBufferGetIterator.bind fun it => .ite ?_ .pure
      refine adds_mmapAllocatorPageMapForward.bind fun r => ?_
      cases r with
      | none => exact .pure
      | some page =>
          exact adds_insertAt.bind fun _ => .ite .pure within_trivialBufferGetIterator

end Pb
