import PageBuf.Client.Gather
import PageBuf.Client.Waking
import PageBuf.Invariant.Adds

/-!
# InsertAtEnd — an insertion at the end against a write

For a trivial buffer the two are one loop, and the offset that an insertion is
given does not matter. An mmap buffer has writes of its own but inherits the
insertions: they make pages beside the file, or stop at the assertion of its
allocator.
-/

namespace Pb

open StateRun Function Ring

variable {env : Env} {h h' h₁ h₂ : Heap} {R : Nat → List Nat} {a b src it off len head n : Nat}
  {fd : Fd} {B : Buffer} {buf : List UInt8} {openAction : MmapOpenAction}
  {M : Heap → MmapOp → Prop}

/-! ## The trivial class -/

/-- The end of the buffer is a page of no bytes at an old address. -/
structure EndsEmpty (h : Heap) (b : Nat) : Prop where
  old : b < h.next
  len : h.lenOf b = 0

theorem EndsEmpty.adds (e : EndsEmpty h b) (s : Adds h.next h h') : EndsEmpty h' b :=
  ⟨Nat.lt_of_lt_of_le e.old s.next, (s.lenOf e.old).trans e.len⟩

theorem Core.endsEmpty {F X : List Nat} (hc : Core h R F X) (hb : (h.buffers b).isSome) :
    EndsEmpty h b :=
  ⟨hc.links.buffer_fresh hb, (hc.views.sentinel hb).2⟩

theorem returns_sameBuffer (b : Nat) (h : Heap) : Returns (getBuffer b) h (fun _ h' => h' = h) := by
  intro B h' hrun
  unfold getBuffer at hrun
  split at hrun <;> cases hrun
  rfl

section Trivial

variable (e : EndsEmpty h b)

include e

/-- The first page goes to the same place, whatever the offset. -/
theorem insertPages_offset {make : Nat → Nat → PbM (Option Nat)}
    (hmake : ∀ i k, Within (Adds h.next) (make i k)) (off len : Nat) :
    insertPages env b (pure b) make off len h = insertPages env b (pure b) make 0 len h := by
  refine loopM_same ?_ len
  unfold insertPagesRound
  by_cases hz : len = 0
  · rw [if_pos hz, if_pos hz]
  · rw [if_neg hz, if_neg hz]
    refine Returns.bind_congr (returns_sameBuffer b h) fun B h₁ he => ?_
    subst he
    refine Returns.bind_congr (P := fun it h' => it = b ∧ h' = h₁) (Returns.pure ⟨rfl, rfl⟩)
      fun it h' hpost => ?_
    obtain ⟨rfl, rfl⟩ := hpost
    refine Returns.bind_congr (hmake 0 _ h') fun r h₂ s => ?_
    cases r with
    | none => rfl
    | some page =>
        have e₂ := e.adds s
        exact bind_same (trivialBufferInsert_offset e₂.old e₂.len)

theorem insertBufferRound_offset {alg : TransferAlgorithm} {srcIt : Nat}
    (hmake : ∀ n p k o, Within (Adds n) (alg.make p k o)) (off len : Nat) :
    insertBufferRound env alg b b src ⟨off, len, 0, srcIt, 0⟩ h
      = insertBufferRound env alg b b src ⟨0, len, 0, srcIt, 0⟩ h := by
  unfold insertBufferRound
  by_cases hz : (len = 0 || bufferIsEndIterator src srcIt) = true
  · rw [if_pos hz, if_pos hz]
  · rw [if_neg hz, if_neg hz]
    refine Returns.bind_congr (returns_sameBuffer b h) fun B h₁ he => ?_
    subst he
    refine Returns.bind_congr (returns_lenOf srcIt h₁) fun k h₂ hk => ?_
    obtain ⟨-, rfl⟩ := hk
    refine Returns.bind_congr (hmake h₂.next _ _ _ h₂) fun r h₃ s => ?_
    cases r with
    | none => rfl
    | some page =>
        have e₃ := e.adds s
        exact bind_same (trivialBufferInsert_offset e₃.old e₃.len)

/-- And so it is with pages made from a source of any class. -/
theorem insertBufferLoop_offset {alg : TransferAlgorithm}
    (hmake : ∀ n p k o, Within (Adds n) (alg.make p k o)) (off len : Nat) :
    insertBufferLoop env alg b b off src len h = insertBufferLoop env alg b b 0 src len h := by
  unfold insertBufferLoop
  have hfirst : Within (Adds h.next) (bufferGetIterator env src) := adds_bufferGetIterator
  refine Returns.bind_congr (hfirst h) fun srcIt h₁ s => ?_
  exact loopM_same (insertBufferRound_offset (e.adds s) hmake off len) len

end Trivial

/-- A buffer that takes no bytes but at its end. -/
def appendOnly : Strategy := { trivialBufferStrategy with rejectsInsert := true }

/-- Both calls return the same count and leave the same bytes in every file. -/
def SameEffect (m m' : PbM Nat) (h : Heap) : Prop :=
  ∃ n g g', m h = .ok (n, g) ∧ m' h = .ok (n, g') ∧ g.files = g'.files

theorem adds_trivialBufferSplit : Within (Adds 0) (trivialBufferSplit env it off) := by
  have hmodify : ∀ {p : Nat} {f : Page → Page}, Within (Adds 0) (modifyPage p f) :=
    adds_modifyNewPage (Nat.zero_le _)
  refine within_pageGetLen.bind fun _ => adds_pageTransfer.bind fun r => ?_
  cases r with
  | none => exact .pure
  | some prevPage =>
      exact within_getPage.bind fun _ => hmodify.bind fun _ => hmodify.bind fun _ =>
        within_deref.bind fun _ => hmodify.bind fun _ => hmodify.bind fun _ => .pure

/-- An insertion makes no file longer or shorter, wherever the page goes. -/
theorem adds_trivialBufferInsert : Within (Adds 0) (trivialBufferInsert env b it off n) := by
  have hlink : ∀ prevPage, Within (Adds 0) (do
      linkPage prevPage it n
      let len ← pageGetLen n
      trivialBufferIncrementDataSize b len
      pure len) := fun _ =>
    adds_linkPage.bind fun _ => within_pageGetLen.bind fun _ =>
      within_trivialBufferIncrementDataSize.bind fun _ => .pure
  refine within_trivialBufferInsertBump.bind fun _ => within_pageGetLen.bind fun nextLen => ?_
  dsimp only
  generalize (if off > nextLen then nextLen else off) = off
  split
  · refine adds_trivialBufferSplit.bind fun r => ?_
    cases r with
    | none => exact .pure
    | some prevPage => exact hlink prevPage
  · refine within_getPage.bind fun N => Within.pure.bind fun r => ?_
    cases r with
    | none => exact .throw
    | some prevPage => exact hlink prevPage

theorem adds_pageDestroy : Within (Adds 0) (pageDestroy n) := by
  refine within_getPage.bind fun _ => within_deref.bind fun _ => within_dataPut.bind fun _ => ?_
  intro h u h' hrun
  unfold freePage at hrun
  split at hrun <;> cases hrun
  exact ⟨Nat.le_refl _, fun _ p hp => absurd hp (Nat.not_lt_zero p), fun _ => rfl⟩

theorem adds_insertPages {make : Nat → Nat → PbM (Option Nat)}
    (hmake : ∀ i k, Within (Adds 0) (make i k)) :
    Within (Adds 0) (insertPages env b (pure it) make off len) := by
  refine .loop (fun s => .ite .pure ?_) _ _
  refine within_getBuffer.bind fun B => Within.pure.bind fun it => (hmake _ _).bind fun r => ?_
  cases r with
  | none => exact .pure
  | some page =>
      exact adds_trivialBufferInsert.bind fun k =>
        .ite (adds_pageDestroy.bind fun _ => .pure) .pure

/-! ## The mmap class -/

section Mmap

variable (ho : Opened h b a fd head)

include ho

/-- The allocator of an mmap buffer makes no pages. -/
theorem Opened.pageCreate_stuck (len : Nat) :
    trivialBufferPageCreate env b len h = .error .assertion := by
  obtain ⟨B, hB, hop⟩ := ho.getBuffer
  refine (bind_run (getBuffer_run hB)).trans (bind_fails ?_)
  rw [hop]
  rfl

theorem Opened.insertData_stuck (hbuf : buf ≠ []) (off : Nat) :
    trivialBufferInsertData env b b off buf h = .error .assertion := by
  obtain ⟨B, hB, -⟩ := ho.getBuffer
  have hlen : buf.length ≠ 0 := by simpa using hbuf
  refine (bind_run (getBuffer_run hB)).trans ?_
  rw [bufferIsEndIterator_self]
  refine bind_fails ?_
  unfold insertPagesRound
  rw [if_neg hlen]
  refine (bind_run (getBuffer_run hB)).trans ((bind_run rfl).trans (bind_fails ?_))
  exact bind_fails (ho.pageCreate_stuck _)

/-- So a page of a source that has one is not copied. -/
theorem Opened.insertBuffer_stuck (hi : Inv h R) (ht : h.IsTrivial src) (hne : R src ≠ [])
    (hlen : len ≠ 0) (off : Nat) :
    trivialBufferInsertBuffer env b b off src len h = .error .assertion := by
  obtain ⟨B, hB, hk⟩ := Option.map_eq_some_iff.mp ho.kind
  obtain ⟨hσ, -⟩ := Prod.mk.inj hk
  have hl := hi.core.links
  have hfirst : (R src).headD src ≠ src := fun he => hne ((hl.headD_eq_self_iff ht.isSome).mp he)
  obtain ⟨p, l, hR⟩ := List.exists_cons_of_ne_nil hne
  have hlive : (h.pages p).isSome := hl.node_live ht.isSome (by simp [hR])
  refine (bind_run (getBuffer_run hB)).trans ?_
  rw [bufferIsEndIterator_self, hσ]
  refine (bind_run (bufferGetIterator_run ht hl)).trans (bind_fails ?_)
  unfold insertBufferRound
  rw [if_neg (by simpa [bufferIsEndIterator, trivialBufferIsEndIterator, hlen] using hfirst)]
  rw [hR]
  refine (bind_run (getBuffer_run hB)).trans ((bind_run (pageGetLen_run hlive)).trans ?_)
  exact bind_fails (bind_fails (ho.pageCreate_stuck _))

/-- `pb_mmap_buffer_write_data_ref` appends, like `pb_mmap_buffer_write_data`. -/
theorem Opened.writeDataRef (hs : env.Succeeds) (hw : fd.writable = true) (buf : Ptr) (len : Nat) :
    Yields (bufferWriteDataRef env b buf len) h (fun n h' =>
      n = len ∧ h'.files = update h.files fd.file (h.files fd.file ++ h.bytes buf len)) := by
  obtain ⟨B, hB, hop⟩ := ho.getBuffer
  obtain ⟨h₁, hrun, i, hm, -, -⟩ := bumpIfEmpty_run hs.system ho
    (do mmapAllocatorWriteData env a (← memRead buf len))
  have hcall : bufferWriteDataRef env b buf len h
      = (do mmapAllocatorWriteData env a (← memRead buf len)) h₁ := by
    refine (bind_run (getBuffer_run hB)).trans ?_
    rw [hop]
    exact hrun
  have hbytes : h₁.bytes buf len = h.bytes buf len :=
    Heap.bytes_congr (Heap.byteAt_congr (congrFun hm _) i.mappings i.files)
  refine Yields.of_eq hcall (Yields.step (memRead_run _ _) ?_)
  have i' : Idle h { h₁ with overread := h₁.overread || !h₁.inBounds buf len } := { i with }
  refine ((ho.idle i').allocatorWriteData hs _).mono fun n h' hpost => ?_
  obtain ⟨hn, ap⟩ := hpost
  have hfiles := ap.filed.idle.files
  simp only [hw, if_true, hbytes] at hn hfiles
  refine ⟨by simpa using hn, hfiles.trans ?_⟩
  simp only [Heap.setFile, i.files]

/-- What is inserted by reference is in no file. -/
theorem Opened.insertDataRef_adds (off : Nat) (buf : Ptr) (len : Nat) :
    Returns (trivialBufferInsertDataRef env b b off buf len) h (fun _ h' => Adds 0 h h') := by
  obtain ⟨B, hB, -⟩ := ho.getBuffer
  refine Returns.step (getBuffer_run hB) ?_
  rw [bufferIsEndIterator_self]
  exact adds_insertPages (fun _ _ => adds_trivialBufferPageCreateRef) h

end Mmap

theorem SameEffect.nothing {m m' : PbM Nat} (hins : m h = .ok (0, h))
    (hwrite : Yields m' h (fun n h' => n = 0 ∧ h'.files = h.files)) : SameEffect m m' h := by
  obtain ⟨n, g', hrun, rfl, hfiles⟩ := hwrite
  exact ⟨0, h, g', hins, hrun, hfiles.symm⟩

theorem files_update_nil (h : Heap) (k : Nat) :
    update h.files k (h.files k ++ []) = h.files := by
  rw [List.append_nil, update_eq_self]

end Pb
