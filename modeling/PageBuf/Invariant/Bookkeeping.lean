import PageBuf.Model.System
import PageBuf.Lib.Within
import PageBuf.Invariant.View

/-!
# Bookkeeping — what the library does beside the pages

Most functions touch no page: they count, ask the allocator and the system,
read objects, and look up blocks of a file. A relation between states that
allows what these do needs to be looked at only for the pages.
-/

namespace Pb

open StateRun Function

variable {env : Env} {h h' : Heap} {a b c d p it off len : Nat} {rel : Heap → Heap → Prop}

/-- The relation allows any change that leaves the pages, the lengths of the files and the heads
of the allocators, and takes no revision back. -/
class Bookkeeping (rel : Heap → Heap → Prop) : Prop extends Std.Refl rel, IsTrans Heap rel where
  rest : ∀ {h h'}, h.next ≤ h'.next → h'.pages = h.pages → h'.buffers = h.buffers →
    h'.mmapAllocators = h.mmapAllocators →
    (∀ k, (h'.files k).length = (h.files k).length) → rel h h'
  buffer : ∀ {h c B B'}, h.buffers c = some B → B'.operations = B.operations →
    B.dataRevision ≤ B'.dataRevision → rel h (h.setBuffer c (some B'))
  allocator : ∀ {h c A A'}, h.mmapAllocators c = some A → A'.fileFd = A.fileFd →
    A'.fileHeadOffset = A.fileHeadOffset → rel h (h.setMmapAllocator c (some A'))
  closed : ∀ {h c}, rel h (h.setMmapAllocator c none)

variable [Bookkeeping rel]

/-- A store leaves the files as long as they are. -/
theorem Bookkeeping.store (h : Heap) (q : Ptr) (bs : List UInt8) : rel h (h.store q bs) := by
  cases hr : q.region with
  | mapped m =>
      cases hm : h.mappings m with
      | none =>
          have he : h.store q bs = h := by simp [Heap.store, hr, hm]
          rw [he]
          exact Std.Refl.refl h
      | some M =>
          have he : h.store q bs
              = h.setFile M.file (patchFile (h.files M.file) (M.offset + q.offset) bs) := by
            simp [Heap.store, hr, hm]
          rw [he]
          refine rest (Nat.le_refl _) rfl rfl rfl fun k => ?_
          rcases eq_or_ne k M.file with rfl | hne
          · simp only [Heap.setFile, update_self, patchFile, List.length_mapIdx]
          · simp only [Heap.setFile, update_of_ne hne]
  | _ =>
      rw [Heap.store_eq (by simp [hr])]
      exact rest (Nat.le_refl _) rfl rfl rfl fun _ => rfl

/-! ## Objects -/

theorem within_getPage : Within rel (getPage p) := .of_same fun s P s' hrun => by
  unfold getPage at hrun
  split at hrun <;> cases hrun
  rfl

theorem within_getData : Within rel (getData d) := .of_same fun s D s' hrun => by
  unfold getData at hrun
  split at hrun <;> cases hrun
  rfl

theorem within_getBuffer : Within rel (getBuffer c) := .of_same fun s B s' hrun => by
  unfold getBuffer at hrun
  split at hrun <;> cases hrun
  rfl

theorem within_getMmapAllocator : Within rel (getMmapAllocator c) :=
  .of_same fun s A s' hrun => by
    unfold getMmapAllocator at hrun
    split at hrun <;> cases hrun
    rfl

theorem within_get : Within rel (get : PbM Heap) := .of_same fun _ _ _ hrun => by
  cases hrun
  rfl

theorem within_deref {o : Option Nat} : Within rel (deref o) := by
  cases o with
  | none => exact .throw
  | some p => exact .pure

theorem within_setData {D : Option Data} : Within rel (modify (·.setData d D) : PbM Unit) :=
  .modify fun _ => Bookkeeping.rest (Nat.le_refl _) rfl rfl rfl fun _ => rfl

theorem within_modifyData {f : Data → Data} : Within rel (modifyData d f) :=
  within_getData.bind fun _ => within_setData

/-- A change of a buffer that keeps its class and does not take its revision back. -/
theorem within_modifyBuffer {f : Buffer → Buffer} (hop : ∀ B, (f B).operations = B.operations)
    (hle : ∀ B, B.dataRevision ≤ (f B).dataRevision) : Within rel (modifyBuffer c f) := by
  intro h
  unfold modifyBuffer
  cases hB : h.buffers c with
  | none => exact Returns.stuck (e := .dangling) (by simp [getBuffer, hB])
  | some B =>
      refine Returns.step (getBuffer_run hB) (Returns.of_run (modify_run _) ?_)
      exact Bookkeeping.buffer hB (hop B) (hle B)

theorem within_modifyMmapAllocator {f : MmapAllocator → MmapAllocator}
    (hfd : ∀ A, (f A).fileFd = A.fileFd)
    (hhead : ∀ A, (f A).fileHeadOffset = A.fileHeadOffset) :
    Within rel (modifyMmapAllocator c f) := by
  intro h
  unfold modifyMmapAllocator
  cases hA : h.mmapAllocators c with
  | none => exact Returns.stuck (e := .dangling) (by simp [getMmapAllocator, hA])
  | some A =>
      refine Returns.step (getMmapAllocator_run hA) (Returns.of_run (modify_run _) ?_)
      exact Bookkeeping.allocator hA (hfd A) (hhead A)

theorem within_memRead {q : Ptr} : Within rel (memRead q len) := fun _ =>
  Returns.of_run rfl (Bookkeeping.rest (Nat.le_refl _) rfl rfl rfl fun _ => rfl)

theorem within_memWrite {q : Ptr} {bs : List UInt8} : Within rel (memWrite q bs) := by
  intro h u h' hrun
  unfold memWrite at hrun
  split at hrun <;> cases hrun
  exact Bookkeeping.store h q bs

theorem within_callerSlice {buf : List UInt8} : Within rel (callerSlice buf off len) :=
  .ite .pure .throw

theorem within_requestFrom {grants : Nat → Bool} : Within rel (requestFrom grants) := by
  intro h r h' hrun
  unfold requestFrom at hrun
  split at hrun <;> cases hrun
  · exact Bookkeeping.rest (Nat.le_succ _) rfl rfl rfl fun _ => rfl
  · exact Bookkeeping.rest (Nat.le_refl _) rfl rfl rfl fun _ => rfl

theorem within_request : Within rel (request env) := within_requestFrom

theorem within_osRequest : Within rel (osRequest env) := within_requestFrom

theorem within_allocatorMalloc {class' : BufferClass} :
    Within rel (allocatorMalloc env class' len) := by
  cases class' with
  | mmap _ => exact .throw
  | trivial =>
      refine within_request.bind fun r => ?_
      cases r with
      | none => exact .pure
      | some n =>
          exact .bind (.modify fun _ => Bookkeeping.rest (Nat.le_refl _) rfl rfl rfl fun _ => rfl)
            fun _ => .pure

theorem within_allocatorFree {q : Ptr} : Within rel (allocatorFree q) := by
  intro h u h' hrun
  unfold allocatorFree at hrun
  split at hrun
  · split at hrun <;> cases hrun
    exact Bookkeeping.rest (Nat.le_refl _) rfl rfl rfl fun _ => rfl
  · cases hrun

theorem within_freeData : Within rel (freeData d) := by
  intro h u h' hrun
  unfold freeData at hrun
  split at hrun <;> cases hrun
  exact Bookkeeping.rest (Nat.le_refl _) rfl rfl rfl fun _ => rfl

theorem within_munmap {q : Ptr} : Within rel (munmap q) := by
  intro h u h' hrun
  unfold munmap at hrun
  split at hrun <;> cases hrun
  · exact Bookkeeping.rest (Nat.le_refl _) rfl rfl rfl fun _ => rfl
  · exact Std.Refl.refl h

/-! ## Data -/

theorem within_trivialDataCreate {class' : BufferClass} :
    Within rel (trivialDataCreate env len class') := by
  refine within_allocatorMalloc.bind fun r => ?_
  cases r with
  | none => exact .pure
  | some buf =>
      refine within_request.bind fun r => ?_
      cases r with
      | none => exact within_allocatorFree.bind fun _ => .pure
      | some d => exact within_setData.bind fun _ => .pure

theorem within_trivialDataCreateRef {buf : Ptr} :
    Within rel (trivialDataCreateRef env buf len) := by
  refine within_request.bind fun r => ?_
  cases r with
  | none => exact .pure
  | some d => exact within_setData.bind fun _ => .pure

theorem within_mmapAllocatorPut : Within rel (mmapAllocatorPut c) := by
  intro h
  unfold mmapAllocatorPut
  cases hA : h.mmapAllocators c with
  | none => exact Returns.stuck (e := .dangling) (by simp [getMmapAllocator, hA])
  | some A =>
      refine Returns.step (getMmapAllocator_run hA) ?_
      have hcount : rel h (h.setMmapAllocator c (some { A with
          useCount := u16Dec A.useCount })) := Bookkeeping.allocator hA rfl rfl
      refine Returns.step (modify_run _) (Returns.mono (P := fun _ h' => rel
        (h.setMmapAllocator c (some { A with useCount := u16Dec A.useCount })) h') ?_
        fun _ h' hw => IsTrans.trans _ _ _ hcount hw)
      have hgone : Within rel (modify (·.setMmapAllocator c none) : PbM Unit) :=
        .modify fun _ => Bookkeeping.closed
      -- without users the allocator goes, and the file perhaps with it
      refine Within.returns ?_ _
      dsimp only
      split
      · exact .pure
      · split
        · exact .bind (.modify fun _ => Bookkeeping.rest (Nat.le_refl _) rfl rfl rfl fun _ => rfl)
            fun _ => hgone
        · exact hgone

theorem within_dataTreeDel : Within rel (dataTreeDel c d) := by
  intro h
  unfold dataTreeDel
  cases hA : h.mmapAllocators c with
  | none => exact Returns.stuck (e := .dangling) (by simp [getMmapAllocator, hA])
  | some A =>
      refine Returns.step (getMmapAllocator_run hA) ?_
      split
      · exact Returns.of_run (modify_run _) (Bookkeeping.allocator hA rfl rfl)
      · exact Returns.throw

theorem within_mmapAllocatorGet : Within rel (mmapAllocatorGet c) :=
  within_modifyMmapAllocator (fun _ => rfl) fun _ => rfl

theorem within_dataTreeAdd : Within rel (dataTreeAdd c d) :=
  within_modifyMmapAllocator (fun _ => rfl) fun _ => rfl

theorem within_mmapAllocatorDataDestroy {obsolete : Bool} :
    Within rel (mmapAllocatorDataDestroy c d obsolete) := by
  have hrest : Within rel (do
      let D ← getData d
      munmap D.dataVec.base
      freeData d
      mmapAllocatorPut c) :=
    within_getData.bind fun _ => within_munmap.bind fun _ => within_freeData.bind fun _ =>
      within_mmapAllocatorPut
  unfold mmapAllocatorDataDestroy
  dsimp only
  split
  · exact hrest
  · exact within_dataTreeDel.bind fun _ => hrest

theorem within_dataGet : Within rel (dataGet d) := within_modifyData

theorem within_dataRelease {D : Data} : Within rel (dataRelease d D) := by
  unfold dataRelease
  split
  · dsimp only
    split
    · exact within_allocatorFree.bind fun _ => within_freeData
    · exact within_freeData
  · exact within_mmapAllocatorDataDestroy

theorem within_dataPut : Within rel (dataPut d) :=
  within_getData.bind fun _ => within_setData.bind fun _ => .ite .pure within_dataRelease

/-! ## Pages and iterators -/

theorem within_pageGetLen : Within rel (pageGetLen p) := within_getPage.bind fun _ => .pure

theorem within_pageGetBase : Within rel (pageGetBase p) := within_getPage.bind fun _ => .pure

theorem within_trivialBufferGetIterator : Within rel (trivialBufferGetIterator c) :=
  within_getPage.bind fun _ => within_deref

theorem within_trivialBufferNextIterator : Within rel (trivialBufferNextIterator it) :=
  within_getPage.bind fun _ => within_deref

theorem within_trivialBufferPrevIterator : Within rel (trivialBufferPrevIterator it) :=
  within_getPage.bind fun _ => within_deref

/-! ## Revision and size -/

theorem within_trivialBufferIncrementDataRevision :
    Within rel (trivialBufferIncrementDataRevision c) :=
  within_modifyBuffer (fun _ => rfl) fun B => Nat.le_succ B.dataRevision

theorem within_trivialBufferIncrementDataSize :
    Within rel (trivialBufferIncrementDataSize c len) :=
  within_modifyBuffer (fun _ => rfl) fun _ => Nat.le_refl _

theorem within_trivialBufferDecrementDataSize :
    Within rel (trivialBufferDecrementDataSize c len) :=
  within_modifyBuffer (fun _ => rfl) fun _ => Nat.le_refl _

theorem within_trivialBufferGetDataSize : Within rel (trivialBufferGetDataSize c) := by
  refine within_trivialBufferGetIterator.bind fun it => within_get.bind fun h => ?_
  refine .bind (.loop (fun s => ?_) _ _) fun n => within_getBuffer.bind fun B => .ite .pure .throw
  exact .ite .pure (within_pageGetLen.bind fun _ => within_trivialBufferNextIterator.bind fun _ =>
    .pure)

theorem within_mmapAllocatorGetFileSize : Within rel (mmapAllocatorGetFileSize env c) := by
  refine within_getMmapAllocator.bind fun A => ?_
  cases A.fileFd with
  | none => exact .pure
  | some fd =>
      refine within_osRequest.bind fun r => ?_
      cases r with
      | none => exact .pure
      | some n => exact within_get.bind fun _ => .pure

theorem within_mmapAllocatorGetDataSize : Within rel (mmapAllocatorGetDataSize env c) := by
  refine within_getMmapAllocator.bind fun A => ?_
  cases A.fileFd with
  | none => exact .pure
  | some fd => exact within_mmapAllocatorGetFileSize.bind fun _ => .ite .throw .pure

theorem within_bufferGetDataSize : Within rel (bufferGetDataSize env c) := by
  refine within_getBuffer.bind fun B => ?_
  cases B.operations with
  | trivial => exact within_trivialBufferGetDataSize
  | mmap a' => exact within_mmapAllocatorGetDataSize

theorem within_trivialBufferInsertBump : Within rel (trivialBufferInsertBump env c it) :=
  .ite (within_bufferGetDataSize.bind fun _ => .ite within_trivialBufferIncrementDataRevision .pure)
    within_trivialBufferIncrementDataRevision

/-! ## Mappings -/

theorem within_mmapFields {D : Data} : Within rel (mmapFields D) := by
  unfold mmapFields
  split
  · exact .pure
  · exact .throw

theorem within_dataTreeFind {key : Nat} (l : List Nat) : Within rel (dataTreeFind key l) := by
  induction l with
  | nil => exact .pure
  | cons d rest ih =>
      exact within_getData.bind fun _ => within_mmapFields.bind fun _ => .ite .pure ih

theorem within_mmap64 {fd : Fd} : Within rel (mmap64 env fd off len) := by
  refine .ite .pure (within_osRequest.bind fun r => ?_)
  cases r with
  | none => exact .pure
  | some m =>
      exact .bind (.modify fun _ => Bookkeeping.rest (Nat.le_refl _) rfl rfl rfl fun _ => rfl) fun _ => .pure

theorem within_mmapAllocatorDataCreate :
    Within rel (mmapAllocatorDataCreate env c off len) := by
  refine within_getMmapAllocator.bind fun A => ?_
  cases A.fileFd with
  | none => exact .pure
  | some fd =>
      refine within_mmap64.bind fun r => ?_
      cases r with
      | none => exact .pure
      | some m =>
          refine within_request.bind fun r => ?_
          cases r with
          | none => exact within_munmap.bind fun _ => .pure
          | some d =>
              exact within_setData.bind fun _ => within_mmapAllocatorGet.bind fun _ => .pure

theorem within_markObsolete : Within rel (markObsolete d) := by
  refine within_getData.bind fun D => ?_
  split
  · exact within_setData
  · exact .throw

theorem within_mmapAllocatorMapBlock {start size : Nat} :
    Within rel (mmapAllocatorMapBlock env c off start size) := by
  refine within_getMmapAllocator.bind fun A => (within_dataTreeFind _).bind fun r => ?_
  cases r with
  | none =>
      refine within_mmapAllocatorDataCreate.bind fun r => ?_
      cases r with
      | none => exact .pure
      | some d => exact within_dataTreeAdd.bind fun _ => .pure
  | some d =>
      refine within_getData.bind fun D => .ite (within_dataGet.bind fun _ => .pure) (.ite ?_ .pure)
      refine within_mmapAllocatorDataCreate.bind fun r => ?_
      cases r with
      | none => exact .pure
      | some newData =>
          exact within_dataTreeDel.bind fun _ => within_markObsolete.bind fun _ =>
            within_dataTreeAdd.bind fun _ => .pure

theorem within_mmapPageFileOffset : Within rel (mmapPageFileOffset it) := by
  refine within_getPage.bind fun P => ?_
  cases P.data with
  | none => exact .pure
  | some d => exact within_getData.bind fun _ => within_mmapFields.bind fun _ => .pure

end Pb
