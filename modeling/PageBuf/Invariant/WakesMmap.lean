import PageBuf.Model.MmapSystem
import PageBuf.Invariant.WakesCalls

/-!
# WakesMmap — the functions that lengthen a file or move a head

What the mmap class adds to the other calls changes what the file has behind
the head. Its writes bump the revision of an empty buffer first, and what drops
all pages bumps it in any case. Only `extend` and `reserve` do neither.
-/

namespace StateRun

open Pb

theorem Within.stays {α : Type} {m : PbM α} {b a : Nat} (hm : Within (Wakes b a) m) :
    Within (Stays b a) m :=
  hm.mono fun _ _ w => w.toStays

end StateRun

namespace Pb

open StateRun Function

variable {env : Env} {h h' h'' : Heap} {a b c len src : Nat}

/-! ## Files and heads -/

theorem Stays.setFile {k : Nat} {bs : List UInt8} : Stays b a h (h.setFile k bs) :=
  ⟨Nat.le_refl _, fun _ hB => ⟨_, hB, rfl, Nat.le_refl _⟩, fun _ hA => ⟨_, hA, rfl⟩⟩

theorem stays_ftruncate {fd : Fd} : Within (Stays b a) (ftruncate env fd len) := by
  refine within_osRequest.stays.bind fun r => ?_
  cases r with
  | none => exact .pure
  | some _ => exact .ite (.bind (.modify fun _ => .setFile) fun _ => .pure) .pure

theorem stays_writeFile {fd : Fd} {bs : List UInt8} : Within (Stays b a) (writeFile env fd bs) := by
  intro h r h' hrun
  unfold writeFile at hrun
  split at hrun <;> cases hrun
  · exact ⟨Nat.le_refl _, fun _ hB => ⟨_, hB, rfl, Nat.le_refl _⟩, fun _ hA => ⟨_, hA, rfl⟩⟩
  · exact ⟨Nat.le_refl _, fun _ hB => ⟨_, hB, rfl, Nat.le_refl _⟩, fun _ hA => ⟨_, hA, rfl⟩⟩

/-- An allocator may move its head. -/
theorem stays_modifyMmapAllocator {f : MmapAllocator → MmapAllocator}
    (hfd : ∀ A, (f A).fileFd = A.fileFd) : Within (Stays b a) (modifyMmapAllocator c f) := by
  intro h
  unfold modifyMmapAllocator
  cases hA : h.mmapAllocators c with
  | none => exact Returns.stuck (e := .dangling) (by simp [getMmapAllocator, hA])
  | some A =>
      refine Returns.step (getMmapAllocator_run hA) (Returns.of_run (modify_run _) ?_)
      refine ⟨Nat.le_refl _, fun _ hB => ⟨_, hB, rfl, Nat.le_refl _⟩, fun {A'} _ hA' => ?_⟩
      rcases eq_or_ne a c with rfl | hne
      · simp only [Heap.setMmapAllocator, update_self] at hA'
        cases hA'
        exact ⟨A, hA, hfd A⟩
      · simp only [Heap.setMmapAllocator, update_of_ne hne] at hA'
        exact ⟨A', hA', rfl⟩

/-- What an open allocator does. -/
theorem stays_opened {m : Fd → PbM Nat} (hm : ∀ fd, Within (Stays b a) (m fd)) :
    Within (Stays b a) (do
      let A ← getMmapAllocator c
      match A.fileFd with
      | none => pure 0
      | some fd => m fd) := by
  refine within_getMmapAllocator.stays.bind fun A => ?_
  cases A.fileFd with
  | none => exact .pure
  | some fd => exact hm fd

theorem stays_mmapAllocatorExtend : Within (Stays b a) (mmapAllocatorExtend env c len) :=
  stays_opened fun _ => within_mmapAllocatorGetFileSize.stays.bind fun _ =>
    stays_ftruncate.bind fun _ => .ite .pure .pure

theorem stays_mmapAllocatorReserve : Within (Stays b a) (mmapAllocatorReserve env c len) :=
  stays_opened fun _ => within_mmapAllocatorGetDataSize.stays.bind fun _ =>
    .ite .pure stays_mmapAllocatorExtend

theorem stays_mmapAllocatorWriteData {buf : List UInt8} :
    Within (Stays b a) (mmapAllocatorWriteData env c buf) :=
  stays_opened fun _ => stays_writeFile.bind fun _ => .pure

theorem wakes_memReadVector (iov : List DataVec) : Within (Wakes b a) (memReadVector iov) := by
  induction iov with
  | nil => exact .pure
  | cons v rest ih => exact within_memRead.bind fun _ => ih.bind fun _ => .pure

theorem wakes_gatherRound {s : GatherLoop} : Within (Wakes b a) (gatherRound env src s) := by
  refine .ite .pure (.bind ?_ fun r => ?_)
  · refine .ite (.ite .pure (within_request.bind fun r => ?_)) .pure
    cases r with
    | none => exact .pure
    | some _ => exact .pure
  · cases r with
    | none => exact .pure
    | some _ =>
        exact within_pageGetLen.bind fun _ => within_pageGetBase.bind fun _ =>
          wakes_bufferNextIterator.bind fun _ => .pure

theorem stays_mmapAllocatorWriteDataBuffer :
    Within (Stays b a) (mmapAllocatorWriteDataBuffer env c src len) := by
  refine stays_opened fun fd => wakes_bufferGetIterator.stays.bind fun it => .ite .pure ?_
  refine within_request.stays.bind fun r => ?_
  cases r with
  | none => exact .pure
  | some _ =>
      refine .bind (Within.loop (fun _ => wakes_gatherRound) _ _).stays fun iov => ?_
      exact .bind ((wakes_memReadVector iov).stays.bind fun _ => stays_writeFile) fun _ => .pure

theorem stays_mmapAllocatorRewind : Within (Stays b a) (mmapAllocatorRewind c len) :=
  within_getMmapAllocator.stays.bind fun A => by
    cases A.fileFd with
    | none => exact .pure
    | some fd =>
        refine .bind (stays_modifyMmapAllocator ?_) fun _ => .pure
        exact fun _ => rfl

theorem stays_mmapAllocatorSeek : Within (Stays b a) (mmapAllocatorSeek env c len) :=
  within_getMmapAllocator.stays.bind fun A => by
    cases A.fileFd with
    | none => exact .pure
    | some fd =>
        refine within_mmapAllocatorGetFileSize.stays.bind fun _ =>
          .bind (stays_modifyMmapAllocator ?_) fun _ => .pure
        exact fun _ => rfl

theorem stays_mmapAllocatorClear : Within (Stays b a) (mmapAllocatorClear env c) :=
  within_getMmapAllocator.stays.bind fun A => by
    cases A.fileFd with
    | none => exact .pure
    | some fd =>
        exact within_mmapAllocatorGetFileSize.stays.bind fun _ =>
          stays_modifyMmapAllocator fun _ => rfl

theorem wakes_mmapTrimRound {size : Nat} {s : MmapTrimLoop} :
    Within (Wakes b a) (mmapTrimRound env c size s) := by
  refine .ite .pure (within_getMmapAllocator.bind fun A => (within_dataTreeFind _).bind fun r => ?_)
  cases r with
  | none => exact .pure
  | some d =>
      refine within_getData.bind fun D => .ite (within_mmapAllocatorDataCreate.bind fun r => ?_) ?_
      · cases r with
        | none => exact .pure
        | some _ =>
            exact within_dataTreeDel.bind fun _ => within_markObsolete.bind fun _ =>
              within_dataTreeAdd.bind fun _ => within_dataGet.bind fun _ =>
                within_dataPut.bind fun _ => .pure
      · exact within_dataTreeDel.bind fun _ => within_markObsolete.bind fun _ =>
          within_dataPut.bind fun _ => .pure

theorem stays_mmapAllocatorTrim : Within (Stays b a) (mmapAllocatorTrim env c len) :=
  within_getMmapAllocator.stays.bind fun A => by
    cases A.fileFd with
    | none => exact .pure
    | some fd =>
        refine within_mmapAllocatorGetFileSize.stays.bind fun n => .ite .pure ?_
        exact .bind (Within.loop (fun _ => wakes_mmapTrimRound) _ _).stays fun _ =>
          stays_ftruncate.bind fun _ => .ite .pure .pure

end Pb
