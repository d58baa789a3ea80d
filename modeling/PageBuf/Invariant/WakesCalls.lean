import PageBuf.Invariant.Wakes

/-!
# WakesCalls — the functions that neither lengthen a file nor move a head

One lemma a function, from the pages up to the operations of a trivial
buffer, which an mmap buffer shares in part. Each proof follows the text of its
function.
-/

namespace Pb

open StateRun Function

variable {env : Env} {h h' : Heap} {a b c d p it off len : Nat}

/-! ## Pages -/

theorem wakes_setPage {P : Option Page} : Within (Wakes b a) (modify (·.setPage p P) : PbM Unit) :=
  .modify fun _ => .of_rest (Nat.le_refl _) rfl rfl fun _ => rfl

theorem wakes_modifyPage {f : Page → Page} : Within (Wakes b a) (modifyPage p f) :=
  within_getPage.bind fun _ => wakes_setPage

theorem wakes_freePage : Within (Wakes b a) (freePage p) := by
  intro h u h' hrun
  unfold freePage at hrun
  split at hrun <;> cases hrun
  exact .of_rest (Nat.le_refl _) rfl rfl fun _ => rfl

theorem wakes_pageSetData : Within (Wakes b a) (pageSetData p d) := by
  have hrest : Within (Wakes b a) (do
      let D ← getData d
      modifyPage p (fun P => { P with dataVec := D.dataVec, data := some d })
      dataGet d) :=
    within_getData.bind fun _ => wakes_modifyPage.bind fun _ => within_dataGet
  refine within_getPage.bind fun P => ?_
  dsimp only
  split
  · exact within_dataPut.bind fun _ => hrest
  · exact hrest

theorem wakes_callocPage : Within (Wakes b a) (callocPage env) := by
  refine within_request.bind fun r => ?_
  cases r with
  | none => exact .pure
  | some p => exact wakes_setPage.bind fun _ => .pure

theorem wakes_pageCreate : Within (Wakes b a) (pageCreate env d) := by
  refine wakes_callocPage.bind fun r => ?_
  cases r with
  | none => exact .pure
  | some p => exact wakes_pageSetData.bind fun _ => .pure

theorem wakes_pageTransfer : Within (Wakes b a) (pageTransfer env p len off) := by
  refine wakes_callocPage.bind fun r => ?_
  cases r with
  | none => exact .pure
  | some page =>
      exact within_getPage.bind fun _ => within_deref.bind fun _ => wakes_pageSetData.bind fun _ =>
        wakes_modifyPage.bind fun _ => .pure

theorem wakes_pageDestroy : Within (Wakes b a) (pageDestroy p) :=
  within_getPage.bind fun _ => within_deref.bind fun _ => within_dataPut.bind fun _ => wakes_freePage

/-- A page on new data, which is given up again by its maker. -/
theorem wakes_pageOn {r : Option Nat} : Within (Wakes b a) (do
    match r with
    | none => pure none
    | some data => do
        match ← pageCreate env data with
        | none => do
            dataPut data
            pure none
        | some page => do
            dataPut data
            pure (some page) : PbM (Option Nat)) := by
  cases r with
  | none => exact .pure
  | some data =>
      refine wakes_pageCreate.bind fun r => ?_
      cases r with
      | none => exact within_dataPut.bind fun _ => .pure
      | some page => exact within_dataPut.bind fun _ => .pure

theorem wakes_trivialBufferPageCreate : Within (Wakes b a) (trivialBufferPageCreate env c len) :=
  within_getBuffer.bind fun _ => within_trivialDataCreate.bind fun _ => wakes_pageOn

theorem wakes_trivialBufferPageCreateRef {buf : Ptr} :
    Within (Wakes b a) (trivialBufferPageCreateRef env buf len) :=
  within_trivialDataCreateRef.bind fun _ => wakes_pageOn

theorem wakes_trivialBufferDupPageData :
    Within (Wakes b a) (trivialBufferDupPageData env c p) := by
  refine within_getBuffer.bind fun B => within_getPage.bind fun P =>
    within_trivialDataCreate.bind fun r => ?_
  cases r with
  | none => exact .pure
  | some data =>
      exact within_getData.bind fun _ => within_memRead.bind fun _ => within_memWrite.bind fun _ =>
        wakes_pageSetData.bind fun _ => within_dataPut.bind fun _ => .pure

/-! ## Iterators and the insertion of a page -/

theorem wakes_trivialBufferSplit : Within (Wakes b a) (trivialBufferSplit env p off) := by
  refine within_pageGetLen.bind fun len => wakes_pageTransfer.bind fun r => ?_
  cases r with
  | none => exact .pure
  | some prevPage =>
      exact within_getPage.bind fun _ => wakes_modifyPage.bind fun _ => wakes_modifyPage.bind fun _ =>
        within_deref.bind fun _ => wakes_modifyPage.bind fun _ => wakes_modifyPage.bind fun _ => .pure

theorem wakes_linkPage {nextPage page : Nat} : Within (Wakes b a) (linkPage p nextPage page) :=
  wakes_modifyPage.bind fun _ => wakes_modifyPage.bind fun _ => wakes_modifyPage

theorem wakes_trivialBufferInsert : Within (Wakes b a) (trivialBufferInsert env c it off p) := by
  have hrest : ∀ {miss : PbM Nat} (r : Option Nat), Within (Wakes b a) miss →
      Within (Wakes b a) (
        match r with
        | none => miss
        | some prevPage => do
            linkPage prevPage it p
            let len ← pageGetLen p
            trivialBufferIncrementDataSize c len
            pure len) := by
    intro miss r hmiss
    cases r with
    | none => exact hmiss
    | some prevPage =>
        exact wakes_linkPage.bind fun _ => within_pageGetLen.bind fun _ =>
          within_trivialBufferIncrementDataSize.bind fun _ => .pure
  refine within_trivialBufferInsertBump.bind fun _ => within_pageGetLen.bind fun nextLen => ?_
  dsimp only
  generalize (if off > nextLen then nextLen else off) = off
  split
  · exact wakes_trivialBufferSplit.bind fun r => hrest r .pure
  · exact within_getPage.bind fun N => Within.pure.bind fun r => hrest r .throw

/-! ## Mapping blocks of a file -/

theorem wakes_mmapAllocatorMapPage : Within (Wakes b a) (mmapAllocatorMapPage env d off len) := by
  refine wakes_pageCreate.bind fun r => ?_
  cases r with
  | none => exact within_dataPut.bind fun _ => .pure
  | some page =>
      exact within_getData.bind fun _ => wakes_modifyPage.bind fun _ => within_dataPut.bind fun _ =>
        .pure

theorem wakes_mmapAllocatorPageMapForward :
    Within (Wakes b a) (mmapAllocatorPageMapForward env c it) := by
  refine within_getMmapAllocator.bind fun A => ?_
  cases A.fileFd with
  | none => exact .pure
  | some fd =>
      refine within_mmapPageFileOffset.bind fun o => within_mmapAllocatorGetFileSize.bind fun n => ?_
      cases o with
      | none =>
          refine Within.pure.bind fun _ => .ite .pure (within_mmapAllocatorMapBlock.bind fun r => ?_)
          cases r with
          | none => exact .pure
          | some q => exact wakes_mmapAllocatorMapPage
      | some off =>
          refine within_pageGetLen.bind fun _ => Within.pure.bind fun _ => .ite .pure
            (within_mmapAllocatorMapBlock.bind fun r => ?_)
          cases r with
          | none => exact .pure
          | some q => exact wakes_mmapAllocatorMapPage

theorem wakes_mmapAllocatorPageMapBackward :
    Within (Wakes b a) (mmapAllocatorPageMapBackward env c it) := by
  refine within_getMmapAllocator.bind fun A => ?_
  cases A.fileFd with
  | none => exact .pure
  | some fd =>
      refine within_mmapPageFileOffset.bind fun o => within_mmapAllocatorGetFileSize.bind fun n =>
        .ite .pure (within_mmapAllocatorMapBlock.bind fun r => ?_)
      cases r with
      | none => exact .pure
      | some q => exact wakes_mmapAllocatorMapPage

theorem wakes_mmapBufferGetIterator {a' : Nat} :
    Within (Wakes b a) (mmapBufferGetIterator env c a') := by
  refine within_trivialBufferGetIterator.bind fun it => .ite ?_ .pure
  refine wakes_mmapAllocatorPageMapForward.bind fun r => ?_
  cases r with
  | none => exact .pure
  | some page =>
      exact wakes_trivialBufferInsert.bind fun _ => .ite .pure within_trivialBufferGetIterator

theorem wakes_mmapBufferNextIterator {a' : Nat} :
    Within (Wakes b a) (mmapBufferNextIterator env c a' it) := by
  refine within_trivialBufferNextIterator.bind fun it => .ite ?_ .pure
  refine within_trivialBufferPrevIterator.bind fun it => ?_
  refine wakes_mmapAllocatorPageMapForward.bind fun r => ?_
  cases r with
  | none => exact .pure
  | some page =>
      exact Within.pure.bind fun _ => wakes_trivialBufferInsert.bind fun _ =>
        .ite .pure within_trivialBufferNextIterator

theorem wakes_mmapBufferPrevIterator {a' : Nat} :
    Within (Wakes b a) (mmapBufferPrevIterator env c a' it) := by
  refine within_trivialBufferPrevIterator.bind fun it => .ite ?_ .pure
  refine within_trivialBufferNextIterator.bind fun it => ?_
  refine wakes_mmapAllocatorPageMapBackward.bind fun r => ?_
  cases r with
  | none => exact .pure
  | some page =>
      exact within_trivialBufferGetIterator.bind fun _ => wakes_trivialBufferInsert.bind fun _ =>
        .ite .pure within_trivialBufferPrevIterator

theorem wakes_bufferGetIterator : Within (Wakes b a) (bufferGetIterator env c) := by
  refine within_getBuffer.bind fun B => ?_
  cases B.operations with
  | trivial => exact within_trivialBufferGetIterator
  | mmap a' => exact wakes_mmapBufferGetIterator

theorem wakes_bufferNextIterator : Within (Wakes b a) (bufferNextIterator env c it) := by
  refine within_getBuffer.bind fun B => ?_
  cases B.operations with
  | trivial => exact within_trivialBufferNextIterator
  | mmap a' => exact wakes_mmapBufferNextIterator

theorem wakes_bufferPrevIterator : Within (Wakes b a) (bufferPrevIterator env c it) := by
  refine within_getBuffer.bind fun B => ?_
  cases B.operations with
  | trivial => exact within_trivialBufferPrevIterator
  | mmap a' => exact wakes_mmapBufferPrevIterator

/-! ## Operations -/

theorem wakes_insertPages {place : PbM Nat} {make : Nat → Nat → PbM (Option Nat)}
    (hplace : Within (Wakes b a) place) (hmake : ∀ i n, Within (Wakes b a) (make i n)) :
    Within (Wakes b a) (insertPages env c place make off len) := by
  refine .loop (fun s => .ite .pure ?_) _ _
  refine within_getBuffer.bind fun B => hplace.bind fun it => (hmake _ _).bind fun r => ?_
  cases r with
  | none => exact .pure
  | some page =>
      exact wakes_trivialBufferInsert.bind fun n =>
        .ite (wakes_pageDestroy.bind fun _ => .pure) .pure

theorem wakes_makeDataPage {buf : List UInt8} {i n : Nat} :
    Within (Wakes b a) (makeDataPage env c buf i n) := by
  refine wakes_trivialBufferPageCreate.bind fun r => ?_
  cases r with
  | none => exact .pure
  | some page =>
      exact within_pageGetLen.bind fun _ => within_callerSlice.bind fun _ =>
        within_pageGetBase.bind fun _ => within_memWrite.bind fun _ => .pure

theorem wakes_trivialBufferInsertData {buf : List UInt8} :
    Within (Wakes b a) (trivialBufferInsertData env c it off buf) :=
  within_getBuffer.bind fun _ => .ite .pure (wakes_insertPages .pure fun _ _ => wakes_makeDataPage)

theorem wakes_trivialBufferInsertDataRef {buf : Ptr} :
    Within (Wakes b a) (trivialBufferInsertDataRef env c it off buf len) :=
  within_getBuffer.bind fun _ => .ite .pure
    (wakes_insertPages .pure fun _ _ => wakes_trivialBufferPageCreateRef)

theorem wakes_trivialBufferWriteData {buf : List UInt8} :
    Within (Wakes b a) (trivialBufferWriteData env c buf) :=
  within_getBuffer.bind fun _ => .ite .pure
    (Within.pure.bind fun _ => wakes_insertPages .pure fun _ _ => wakes_makeDataPage)

theorem wakes_trivialBufferWriteDataRef {buf : Ptr} :
    Within (Wakes b a) (trivialBufferWriteDataRef env c buf len) :=
  within_getBuffer.bind fun _ => .ite .pure
    (Within.pure.bind fun _ => wakes_insertPages .pure fun _ _ => wakes_trivialBufferPageCreateRef)

theorem wakes_trivialBufferExtend : Within (Wakes b a) (trivialBufferExtend env c len) :=
  within_getBuffer.bind fun _ => .ite .pure
    (wakes_insertPages .pure fun _ _ => wakes_trivialBufferPageCreate)

theorem wakes_trivialBufferReserve : Within (Wakes b a) (trivialBufferReserve env c len) :=
  within_getBuffer.bind fun _ => .ite .pure
    (within_bufferGetDataSize.bind fun _ => .ite .pure wakes_trivialBufferExtend)

theorem wakes_trivialBufferRewind : Within (Wakes b a) (trivialBufferRewind env c len) :=
  within_getBuffer.bind fun _ => .ite .pure
    (wakes_insertPages wakes_bufferGetIterator fun _ _ => wakes_trivialBufferPageCreate)

theorem wakes_makeCopiedPage : Within (Wakes b a) (makeCopiedPage env c p len off) := by
  refine wakes_trivialBufferPageCreate.bind fun r => ?_
  cases r with
  | none => exact .pure
  | some page =>
      exact within_getPage.bind fun _ => within_pageGetLen.bind fun _ => within_memRead.bind fun _ =>
        within_pageGetBase.bind fun _ => within_memWrite.bind fun _ => .pure

theorem wakes_transferAlgorithm {strategy : Strategy} :
    Within (Wakes b a) ((transferAlgorithm env c strategy).make p len off) := by
  unfold transferAlgorithm
  split
  · exact wakes_pageTransfer
  · exact wakes_makeCopiedPage
  · exact wakes_pageTransfer
  · exact wakes_makeCopiedPage

theorem wakes_insertBufferLoop {alg : TransferAlgorithm} {src : Nat}
    (hmake : ∀ q n o, Within (Wakes b a) (alg.make q n o)) :
    Within (Wakes b a) (insertBufferLoop env alg c it off src len) := by
  refine wakes_bufferGetIterator.bind fun srcIt => .loop (fun s => .ite .pure ?_) _ _
  refine within_getBuffer.bind fun B => within_pageGetLen.bind fun _ => (hmake _ _ _).bind fun r => ?_
  cases r with
  | none => exact .pure
  | some page =>
      refine wakes_trivialBufferInsert.bind fun n =>
        .ite (wakes_pageDestroy.bind fun _ => .pure) ?_
      exact within_pageGetLen.bind fun _ =>
        .ite (wakes_bufferNextIterator.bind fun _ => .pure) .pure

theorem wakes_trivialBufferInsertBuffer {src : Nat} :
    Within (Wakes b a) (trivialBufferInsertBuffer env c it off src len) :=
  within_getBuffer.bind fun _ => .ite .pure
    (wakes_insertBufferLoop fun _ _ _ => wakes_transferAlgorithm)

theorem wakes_trivialBufferWriteBuffer {src : Nat} :
    Within (Wakes b a) (trivialBufferWriteBuffer env c src len) :=
  within_getBuffer.bind fun _ => .ite .pure
    (Within.pure.bind fun _ => wakes_insertBufferLoop fun _ _ _ => wakes_transferAlgorithm)

theorem wakes_unlinkPage : Within (Wakes b a) (unlinkPage p) :=
  within_getPage.bind fun _ => within_deref.bind fun _ => within_deref.bind fun _ =>
    wakes_modifyPage.bind fun _ => wakes_modifyPage.bind fun _ => wakes_modifyPage.bind fun _ =>
      wakes_pageDestroy

theorem wakes_bumpIfPositive {n : Nat} : Within (Wakes b a) (bumpIfPositive c n) :=
  .ite within_trivialBufferIncrementDataRevision .pure

/-- The end of a round of `seek` or `trim` that takes `k` bytes. -/
theorem wakes_removed {s : RemoveLoop} {k it : Nat} : Within (Wakes b a) (
    if k = 0 then pure (.inr s.removed)
    else do
      trivialBufferDecrementDataSize c k
      pure (.inl ⟨it, s.len - k, s.removed + k⟩) : PbM (RemoveLoop ⊕ Nat)) :=
  .ite .pure (within_trivialBufferDecrementDataSize.bind fun _ => .pure)

theorem wakes_seekRound {s : RemoveLoop} : Within (Wakes b a) (seekRound env c s) := by
  refine .ite .pure (within_pageGetLen.bind fun n => wakes_modifyPage.bind fun _ => ?_)
  dsimp only
  generalize (if n < s.len then n else s.len) = k
  exact .ite (wakes_bufferNextIterator.bind fun _ => wakes_unlinkPage.bind fun _ =>
    Within.pure.bind fun _ => wakes_removed) (Within.pure.bind fun _ => wakes_removed)

theorem wakes_trimRound {s : RemoveLoop} : Within (Wakes b a) (trimRound env c s) := by
  refine .ite .pure (within_pageGetLen.bind fun n => wakes_modifyPage.bind fun _ => ?_)
  dsimp only
  generalize (if n < s.len then n else s.len) = k
  exact .ite (wakes_bufferPrevIterator.bind fun _ => wakes_unlinkPage.bind fun _ =>
    Within.pure.bind fun _ => wakes_removed) (Within.pure.bind fun _ => wakes_removed)

theorem wakes_trivialBufferSeek : Within (Wakes b a) (trivialBufferSeek env c len) :=
  within_getBuffer.bind fun _ => .ite .pure <| wakes_bufferGetIterator.bind fun _ =>
    .bind (.loop (fun _ => wakes_seekRound) _ _) fun _ => wakes_bumpIfPositive.bind fun _ => .pure

theorem wakes_trivialBufferTrim : Within (Wakes b a) (trivialBufferTrim env c len) :=
  within_getBuffer.bind fun _ => .ite .pure <| Within.pure.bind fun _ =>
    wakes_bufferPrevIterator.bind fun _ => .bind (.loop (fun _ => wakes_trimRound) _ _) fun _ =>
      wakes_bumpIfPositive.bind fun _ => .pure

theorem wakes_clearLoop {next : Nat → PbM Nat} (hnext : ∀ it, Within (Wakes b a) (next it))
    (fuel it : Nat) : Within (Wakes b a) (loopM .diverges (clearRound c next) fuel it) :=
  .loop (fun it => .ite .pure ((hnext it).bind fun _ => wakes_unlinkPage.bind fun _ => .pure)) _ _

theorem wakes_trivialBufferClearImpl {first : PbM Nat} {next : Nat → PbM Nat} {fuel : Heap → Nat}
    (hfirst : Within (Wakes b a) first) (hnext : ∀ it, Within (Wakes b a) (next it)) :
    Within (Wakes b a) (trivialBufferClearImpl c first next fuel) := by
  have hsize : Within (Wakes b a) (modifyBuffer c fun B => { B with dataSize := 0 }) :=
    within_modifyBuffer (fun _ => rfl) fun _ => Nat.le_refl _
  exact within_trivialBufferIncrementDataRevision.bind fun _ => hsize.bind fun _ =>
    hfirst.bind fun _ => within_get.bind fun _ => wakes_clearLoop hnext _ _

theorem wakes_trivialBufferClear : Within (Wakes b a) (trivialBufferClear env c) :=
  wakes_trivialBufferClearImpl wakes_bufferGetIterator fun _ => wakes_bufferNextIterator

theorem wakes_trivialPureBufferClear : Within (Wakes b a) (trivialPureBufferClear c) :=
  wakes_trivialBufferClearImpl within_trivialBufferGetIterator
    fun _ => within_trivialBufferNextIterator

theorem wakes_ensureWritable : Within (Wakes b a) (ensureWritable env c p) :=
  within_getBuffer.bind fun _ => within_getPage.bind fun _ => within_deref.bind fun _ =>
    within_getData.bind fun _ => .ite wakes_trivialBufferDupPageData .pure

theorem wakes_trivialBufferOverwriteData {buf : List UInt8} :
    Within (Wakes b a) (trivialBufferOverwriteData env c buf) := by
  refine within_getBuffer.bind fun _ => .ite .pure <| wakes_bufferGetIterator.bind fun _ =>
    .bind (.loop (fun s => .ite .pure ?_) _ _) fun _ => wakes_bumpIfPositive.bind fun _ => .pure
  exact wakes_ensureWritable.bind fun _ => .ite (within_pageGetLen.bind fun _ => .ite .pure <|
    within_callerSlice.bind fun _ => within_pageGetBase.bind fun _ => within_memWrite.bind fun _ =>
      wakes_bufferNextIterator.bind fun _ => .pure) .pure

theorem wakes_stepWhenFull : Within (Wakes b a) (stepWhenFull env c it off) :=
  within_pageGetLen.bind fun _ => .ite (wakes_bufferNextIterator.bind fun _ => .pure) .pure

theorem wakes_trivialBufferOverwriteBuffer {src : Nat} :
    Within (Wakes b a) (trivialBufferOverwriteBuffer env c src len) := by
  refine within_getBuffer.bind fun _ => .ite .pure <| wakes_bufferGetIterator.bind fun _ =>
    wakes_bufferGetIterator.bind fun _ => .bind (.loop (fun s => .ite .pure ?_) _ _) fun _ =>
      wakes_bumpIfPositive.bind fun _ => .pure
  exact wakes_ensureWritable.bind fun _ => .ite (within_pageGetLen.bind fun _ =>
    within_pageGetLen.bind fun _ => .ite .pure <| within_pageGetBase.bind fun _ =>
      within_memRead.bind fun _ => within_pageGetBase.bind fun _ => within_memWrite.bind fun _ =>
        wakes_stepWhenFull.bind fun _ => wakes_stepWhenFull.bind fun _ => .pure) .pure

theorem wakes_trivialBufferReadData : Within (Wakes b a) (trivialBufferReadData env c len) :=
  wakes_bufferGetIterator.bind fun _ => within_get.bind fun _ =>
    .loop (fun _ => .ite .pure <| within_getPage.bind fun _ => within_memRead.bind fun _ =>
      wakes_bufferNextIterator.bind fun _ => .pure) _ _

theorem wakes_freeBuffer : Within (Wakes b a) (freeBuffer c) := by
  intro h u h' hrun
  unfold freeBuffer at hrun
  split at hrun <;> cases hrun
  exact .noBuffer h

/-- A new buffer is at an address that no buffer has had. -/
theorem wakes_trivialBufferCreate {strategy : Strategy} :
    Within (Wakes b a) (trivialBufferCreate env strategy) := by
  refine within_request.bind fun r => ?_
  cases r with
  | none => exact .pure
  | some n =>
      intro h
      rcases request_cases env h with ⟨-, hreq⟩ | ⟨-, hreq⟩
      · refine Returns.step hreq (Returns.step (modify_run _) (Returns.step (modify_run _) ?_))
        refine Returns.pure ?_
        exact (Wakes.newBuffer (Nat.le_refl h.next)).trans
          (.of_rest (Nat.le_succ _) rfl rfl fun _ => rfl)
      · exact Returns.step hreq (Returns.pure (.of_rest (Nat.le_refl _) rfl rfl fun _ => rfl))

theorem wakes_trivialBufferDestroy : Within (Wakes b a) (trivialBufferDestroy env c) :=
  wakes_trivialBufferClear.bind fun _ => wakes_freeBuffer

/-! ## Byte iterators -/

theorem wakes_byteIteratorAt : Within (Wakes b a) (byteIteratorAt it off) :=
  within_pageGetBase.bind fun _ => .pure

theorem wakes_byteIteratorGetCurrentByte {bi : ByteIterator} :
    Within (Wakes b a) (byteIteratorGetCurrentByte bi) := by
  unfold byteIteratorGetCurrentByte
  cases bi.currentByte with
  | none => exact .pure
  | some q => exact within_memRead.bind fun _ => .pure

theorem wakes_bufferGetByteIterator : Within (Wakes b a) (bufferGetByteIterator env c) :=
  wakes_bufferGetIterator.bind fun _ => .ite .pure wakes_byteIteratorAt

theorem wakes_bufferNextByteIterator {bi : ByteIterator} :
    Within (Wakes b a) (bufferNextByteIterator env c bi) :=
  within_pageGetLen.bind fun _ => .ite (wakes_bufferNextIterator.bind fun _ =>
    .ite .pure wakes_byteIteratorAt) wakes_byteIteratorAt

theorem wakes_bufferPrevByteIterator {bi : ByteIterator} :
    Within (Wakes b a) (bufferPrevByteIterator env c bi) :=
  .ite (wakes_bufferPrevIterator.bind fun _ => within_pageGetLen.bind fun _ =>
    .ite .pure wakes_byteIteratorAt) wakes_byteIteratorAt

/-! ## The calls -/

/-- **Every call on trivial buffers**, on whatever it is made. -/
theorem wakes_perform (x : Action) : Within (Wakes b a) (perform env x) := by
  cases x with
  | overwriteBuffer b' src len => exact wakes_trivialBufferOverwriteBuffer.bind fun _ => .pure
  | op o =>
      cases o with
      | create _ => exact wakes_trivialBufferCreate.bind fun _ => .pure
      | destroy _ => exact wakes_trivialBufferDestroy.bind fun _ => .pure
      | writeData _ _ => exact wakes_trivialBufferWriteData.bind fun _ => .pure
      | writeDataRef _ _ _ => exact wakes_trivialBufferWriteDataRef.bind fun _ => .pure
      | writeBuffer _ _ _ => exact wakes_trivialBufferWriteBuffer.bind fun _ => .pure
      | insertData _ _ _ _ => exact wakes_trivialBufferInsertData.bind fun _ => .pure
      | insertDataRef _ _ _ _ _ => exact wakes_trivialBufferInsertDataRef.bind fun _ => .pure
      | insertBuffer _ _ _ _ _ => exact wakes_trivialBufferInsertBuffer.bind fun _ => .pure
      | extend _ _ => exact wakes_trivialBufferExtend.bind fun _ => .pure
      | reserve _ _ => exact wakes_trivialBufferReserve.bind fun _ => .pure
      | rewind _ _ => exact wakes_trivialBufferRewind.bind fun _ => .pure
      | seek _ _ => exact wakes_trivialBufferSeek.bind fun _ => .pure
      | trim _ _ => exact wakes_trivialBufferTrim.bind fun _ => .pure
      | overwriteData _ _ => exact wakes_trivialBufferOverwriteData.bind fun _ => .pure
      | readData _ _ => exact wakes_trivialBufferReadData.bind fun _ => .pure
      | clear _ => exact wakes_trivialBufferClear.bind fun _ => .pure

end Pb
