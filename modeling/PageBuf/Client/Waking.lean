import PageBuf.Client.Iteration
import PageBuf.Invariant.WakesMmap

/-!
# Waking — the first bytes of an mmap buffer

Which calls bring bytes to an empty mmap buffer, and which of them move its
revision. The writes look whether the buffer is empty, and what gives up all
pages moves the revision in any case. `extend` and `reserve` do neither.
-/

namespace Pb

open StateRun Function

variable {env : Env} {h h' h'' : Heap} {a b c len : Nat} {op : MmapOp} {α : Type}

/-! ## An mmap buffer and its file -/

/-- The buffer is of the mmap class and has the allocator `a`, for as long as it is there. -/
structure Owns (h : Heap) (b a : Nat) : Prop where
  buffer : b < h.next
  allocator : a < h.next
  operations : ∀ {B}, h.buffers b = some B → B.operations = .mmap a

theorem Owns.stays (o : Owns h b a) (s : Stays b a h h') : Owns h' b a where
  buffer := Nat.lt_of_lt_of_le o.buffer s.next
  allocator := Nat.lt_of_lt_of_le o.allocator s.next
  operations := fun hB' => by
    obtain ⟨B, hB, hop, -⟩ := s.buffer o.buffer hB'
    rw [hop, o.operations hB]

theorem Owns.vacant_iff (o : Owns h b a) (hb : (h.buffers b).isSome) :
    h.Vacant a ↔ h.fileContent b = [] := by
  obtain ⟨B, hB⟩ := Option.isSome_iff_exists.mp hb
  have halloc : h.mmapAllocatorOf b = h.mmapAllocators a := by
    obtain ⟨strategy, operations, size, revision⟩ := B
    obtain rfl : operations = .mmap a := o.operations hB
    simp only [Heap.mmapAllocatorOf, hB]
  rw [Heap.fileContent, Heap.fileOf, Heap.fileHead, halloc, List.drop_eq_nil_iff]
  unfold Heap.Vacant
  cases hA : h.mmapAllocators a with
  | none => simp
  | some A =>
      have hall : (∀ A' fd, some A = some A' → A'.fileFd = some fd →
          (h.files fd.file).length ≤ A'.fileHeadOffset) ↔
          ∀ fd, A.fileFd = some fd → (h.files fd.file).length ≤ A.fileHeadOffset :=
        ⟨fun hv fd => hv A fd rfl, fun hv A' fd hA' => by cases hA'; exact hv fd⟩
      rw [hall]
      cases hfd : A.fileFd <;> simp [hfd]

/-- A call on the buffer is one of its class. -/
theorem Owns.dispatch {f : Buffer → PbM α} {P : α → Heap → Prop} (o : Owns h b a)
    (hf : ∀ B, h.buffers b = some B → B.operations = .mmap a → Returns (f B) h P) : Returns (getBuffer b >>= f) h P :=
  returns_getBuffer fun B hB => hf B hB (o.operations hB)

/-! ## Moving the revision -/

/-- The revision has moved. -/
structure Raises (b a : Nat) (h h' : Heap) : Prop extends Stays b a h h' where
  raised : ∀ {B B'}, b < h.next → h.buffers b = some B → h'.buffers b = some B' →
    B.dataRevision < B'.dataRevision

theorem Raises.wakes (r : Raises b a h h') : Wakes b a h h' where
  toStays := r.toStays
  vacant := fun hb _ hB hB' hrev _ => absurd hrev (Nat.ne_of_gt (r.raised hb hB hB'))

theorem Raises.trans_stays (r : Raises b a h h') (s : Stays b a h' h'') : Raises b a h h'' where
  toStays := r.toStays.trans s
  raised := fun hb hB hB'' => by
    obtain ⟨B', hB', -, hle⟩ := s.buffer (Nat.lt_of_lt_of_le hb r.next) hB''
    exact Nat.lt_of_lt_of_le (r.raised hb hB hB') hle

theorem Stays.trans_raises (s : Stays b a h h') (r : Raises b a h' h'') : Raises b a h h'' where
  toStays := s.trans r.toStays
  raised := fun hb hB hB'' => by
    have hb' := Nat.lt_of_lt_of_le hb s.next
    obtain ⟨B', hB', -⟩ := r.buffer hb' hB''
    obtain ⟨B₀, hB₀, -, hle⟩ := s.buffer hb hB'
    rw [hB] at hB₀
    cases hB₀
    exact Nat.lt_of_le_of_lt hle (r.raised hb' hB' hB'')

theorem raises_increment : Returns (trivialBufferIncrementDataRevision b) h
    (fun _ h' => Raises b a h h') := by
  intro u h' hrun
  refine ⟨within_trivialBufferIncrementDataRevision.stays h u h' hrun, fun _ hB hB' => ?_⟩
  unfold trivialBufferIncrementDataRevision modifyBuffer at hrun
  rw [bind_run (getBuffer_run hB)] at hrun
  cases hrun
  simp only [Heap.setBuffer, update_self] at hB'
  cases hB'
  exact Nat.lt_succ_self _

theorem raises_clear : Returns (trivialPureBufferClear b) h (fun _ h' => Raises b a h h') := by
  have hsize : Within (Wakes b a) (modifyBuffer b fun B => { B with dataSize := 0 }) :=
    within_modifyBuffer (fun _ => rfl) fun _ => Nat.le_refl _
  have hrest : ∀ fuel : Heap → Nat, Within (Wakes b a) (do
      modifyBuffer b (fun B => { B with dataSize := 0 })
      let it ← trivialBufferGetIterator b
      let h ← get
      loopM .diverges (clearRound b trivialBufferNextIterator) (fuel h) it) := fun _ =>
    hsize.bind fun _ => within_trivialBufferGetIterator.bind fun _ => within_get.bind fun _ =>
      wakes_clearLoop (fun _ => within_trivialBufferNextIterator) _ _
  refine Returns.bind (P := fun _ h' => Raises b a h h') raises_increment fun _ h' r => ?_
  exact (hrest _ h').mono fun _ h'' w => r.trans_stays w.toStays

/-- What a program does before it gives up the pages is done at another revision. -/
theorem raises_before {m : PbM α} (hm : Within (Stays b a) m) :
    Returns (do let r ← m; trivialPureBufferClear b; pure r) h (fun _ h' => Raises b a h h') :=
  Returns.bind (hm h) fun _ _ s => Returns.bind raises_clear fun _ _ r =>
    Returns.pure (s.trans_raises r)

/-! ## Bytes for an empty buffer -/

/-- A buffer that has bytes may get more. -/
theorem Stays.wakes_filled (s : Stays b a h h') (hv : ¬h.Vacant a) : Wakes b a h h' :=
  ⟨s, fun _ _ _ _ _ hv' => absurd hv' hv⟩

theorem returns_osRequest (env : Env) (h : Heap) :
    Returns (osRequest env) h (fun _ h' => h'.files = h.files) := by
  intro r h' hrun
  unfold osRequest requestFrom at hrun
  split at hrun <;> cases hrun <;> rfl

/-- What is read of the length of a file is the length, or nothing. -/
theorem returns_fileSize {A : MmapAllocator} {fd : Fd} (hA : h.mmapAllocators a = some A)
    (hfd : A.fileFd = some fd) : Returns (mmapAllocatorGetFileSize env a) h
      (fun n h' => h'.files = h.files ∧ n ≤ (h.files fd.file).length) := by
  unfold mmapAllocatorGetFileSize
  refine Returns.step (getMmapAllocator_run hA) ?_
  rw [hfd]
  refine Returns.bind (returns_osRequest env h) fun r h₁ hfiles => ?_
  cases r with
  | none => exact Returns.pure ⟨hfiles, Nat.zero_le _⟩
  | some _ =>
      refine Returns.step get_run (Returns.pure ⟨hfiles, ?_⟩)
      rw [hfiles]

/-- What has a size for the code has bytes. -/
theorem returns_dataSize (o : Owns h b a) : Returns (bufferGetDataSize env b) h
    (fun n h' => Wakes b a h h' ∧ (n ≠ 0 → ¬h.Vacant a)) := by
  refine (within_bufferGetDataSize.returns h).and (o.dispatch fun B _ hop => ?_)
  rw [hop]
  show Returns (mmapAllocatorGetDataSize env a) h _
  unfold mmapAllocatorGetDataSize
  refine returns_getMmapAllocator fun A hA => ?_
  cases hfd : A.fileFd with
  | none => exact Returns.pure fun hn => absurd rfl hn
  | some fd =>
      refine Returns.bind (returns_fileSize hA hfd) fun size h₁ hsize => ?_
      obtain ⟨-, hsize⟩ := hsize
      split
      · exact Returns.throw
      · refine Returns.pure fun hn hv => hn ?_
        exact Nat.sub_eq_zero_of_le (Nat.le_trans hsize (hv A fd hA hfd))

/-- **A write** moves the revision of an empty buffer before it writes. -/
theorem wakes_write {m : PbM α} (o : Owns h b a) (hm : Within (Stays b a) m) :
    Returns (do
      if (← bufferGetDataSize env b) = 0 then trivialBufferIncrementDataRevision b else pure ()
      m) h (fun _ h' => Wakes b a h h') := by
  refine Returns.bind (returns_dataSize o) fun n h₁ hn => ?_
  obtain ⟨w, hfull⟩ := hn
  split
  · refine Returns.bind (P := fun _ h₂ => Raises b a h₁ h₂) raises_increment fun _ h₂ r => ?_
    exact (hm h₂).mono fun _ h₃ s => w.trans (r.trans_stays s).wakes
  · next hne =>
      refine (hm h₁).mono fun _ h₂ s => ?_
      exact (w.toStays.trans s).wakes_filled (hfull hne)

/-- A file that gets no longer. -/
theorem Wakes.setFile {k : Nat} {bs : List UInt8} (hle : bs.length ≤ (h.files k).length) :
    Wakes b a h (h.setFile k bs) where
  toStays := .setFile
  vacant := fun _ _ _ _ _ hv A fd hA hfd => by
    refine Nat.le_trans ?_ (hv A fd hA hfd)
    rcases eq_or_ne fd.file k with rfl | hne
    · simpa only [Heap.setFile, update_self] using hle
    · simp only [Heap.setFile, update_of_ne hne, Nat.le_refl]

/-- An extension by nothing cuts a file whose length cannot be read. -/
theorem wakes_extend_nothing : Within (Wakes b a) (mmapAllocatorExtend env a 0) := by
  intro h
  unfold mmapAllocatorExtend
  refine returns_getMmapAllocator fun A hA => ?_
  cases hfd : A.fileFd with
  | none => exact Returns.pure (.refl b a h)
  | some fd =>
      have hsize : Within (Wakes b a) (mmapAllocatorGetFileSize env a) :=
        within_mmapAllocatorGetFileSize
      refine Returns.bind ((hsize h).and (returns_fileSize hA hfd)) fun size h₁ hpost => ?_
      obtain ⟨w, hfiles, hle⟩ := hpost
      have htruncate : Returns (ftruncate env fd (size + 0)) h₁
          (fun _ h' => Wakes b a h₁ h') := by
        unfold ftruncate
        have hask : Within (Wakes b a) (osRequest env) := within_osRequest
        refine Returns.bind ((hask h₁).and (returns_osRequest env h₁)) fun r h₂ hpost => ?_
        obtain ⟨w₂, hfiles₂⟩ := hpost
        cases r with
        | none => exact Returns.pure w₂
        | some _ =>
            dsimp only
            split
            · refine Returns.step (modify_run _) (Returns.pure (w₂.trans (.setFile ?_)))
              rw [← hfiles, ← hfiles₂] at hle
              simp only [List.length_append, List.length_take, List.length_replicate]
              omega
            · exact Returns.pure w₂
      refine Returns.bind htruncate fun r h₂ w₂ => ?_
      split
      · exact Returns.pure (w.trans w₂)
      · exact Returns.pure (w.trans w₂)

/-- A reservation of nothing is met. -/
theorem wakes_reserve_nothing : Within (Wakes b a) (mmapAllocatorReserve env a 0) := by
  refine within_getMmapAllocator.bind fun A => ?_
  cases A.fileFd with
  | none => exact .pure
  | some _ =>
      refine within_mmapAllocatorGetDataSize.bind fun n => ?_
      rw [if_pos (Nat.zero_le n)]
      exact .pure

/-! ## The calls -/

/-- The call would bring the first bytes without a look at the size. -/
def MmapOp.ExtendsEmpty (h : Heap) (b : Nat) : MmapOp → Prop
  | .extend len => 0 < len ∧ h.fileContent b = []
  | .reserve size => 0 < size ∧ h.fileContent b = []
  | _ => False

/-- **A call on the buffer** wakes it, unless it extends the empty buffer. -/
theorem wakes_execMmap (o : Owns h b a) (hok : ¬op.ExtendsEmpty h b) :
    Returns (execMmap env b op) h (fun _ h' => Wakes b a h h') := by
  have hret : ∀ {β : Type} {m : PbM β} {f : β → MmapRet},
      Returns m h (fun _ h' => Wakes b a h h') →
      Returns (do return f (← m)) h (fun _ h' => Wakes b a h h') := fun hm =>
    Returns.bind hm fun _ _ w => Returns.pure w
  have hfilled : ∀ {B}, h.buffers b = some B → h.fileContent b ≠ [] → ¬h.Vacant a := by
    intro B hB hne hv
    exact hne ((o.vacant_iff (by rw [hB]; rfl)).mp hv)
  have hclear : Returns (mmapBufferClear env b a) h (fun _ h' => Raises b a h h') :=
    Returns.bind (P := fun _ h' => Raises b a h h') raises_clear fun _ h₁ r =>
      (stays_mmapAllocatorClear h₁).mono fun _ _ s => r.trans_stays s
  have hwrite : ∀ buf, Returns (bufferWriteData env b buf) h (fun _ h' => Wakes b a h h') :=
    fun buf => o.dispatch fun B _ hop => by
      rw [hop]
      exact wakes_write o stays_mmapAllocatorWriteData
  cases op with
  | writeData buf => exact hret (hwrite buf)
  | writeDataRef buf => exact hret (hwrite buf)
  | extend len =>
      refine hret (o.dispatch fun B hB hop => ?_)
      rw [hop]
      by_cases hlen : len = 0
      · subst hlen
        exact wakes_extend_nothing h
      · refine (stays_mmapAllocatorExtend h).mono fun _ h' s => s.wakes_filled (hfilled hB ?_)
        exact fun hnil => hok ⟨Nat.pos_of_ne_zero hlen, hnil⟩
  | reserve size =>
      refine hret (o.dispatch fun B hB hop => ?_)
      rw [hop]
      by_cases hsize : size = 0
      · subst hsize
        exact wakes_reserve_nothing h
      · refine (stays_mmapAllocatorReserve h).mono fun _ h' s => s.wakes_filled (hfilled hB ?_)
        exact fun hnil => hok ⟨Nat.pos_of_ne_zero hsize, hnil⟩
  | rewind len =>
      refine hret (o.dispatch fun B _ hop => ?_)
      rw [hop]
      exact (raises_before stays_mmapAllocatorRewind).mono fun _ _ r => r.wakes
  | seek len =>
      refine hret (o.dispatch fun B _ hop => ?_)
      rw [hop]
      exact (raises_before stays_mmapAllocatorSeek).mono fun _ _ r => r.wakes
  | trim len =>
      refine hret (o.dispatch fun B _ hop => ?_)
      rw [hop]
      exact (raises_before stays_mmapAllocatorTrim).mono fun _ _ r => r.wakes
  | overwriteData buf => exact hret (wakes_trivialBufferOverwriteData h)
  | readData len => exact hret (wakes_trivialBufferReadData h)
  | clear =>
      refine Returns.bind (o.dispatch fun B _ hop => ?_) fun _ _ r => Returns.pure (Raises.wakes r)
      rw [hop]
      exact hclear
  | getDataSize => exact hret (within_bufferGetDataSize h)
  | getIterator => exact hret (wakes_bufferGetIterator h)
  | nextIterator it => exact hret (wakes_bufferNextIterator h)
  | prevIterator it => exact hret (wakes_bufferPrevIterator h)
  | getByteIterator => exact hret (wakes_bufferGetByteIterator h)
  | nextByteIterator bi => exact hret (wakes_bufferNextByteIterator h)
  | prevByteIterator bi => exact hret (wakes_bufferPrevByteIterator h)
  | destroy =>
      refine Returns.bind (o.dispatch fun B _ hop => ?_) fun _ _ r => Returns.pure (Raises.wakes r)
      rw [hop]
      refine Returns.bind hclear fun _ h₁ r => ?_
      have hfree : Within (Wakes b a) (do freeBuffer b; mmapAllocatorPut a) :=
        wakes_freeBuffer.bind fun _ => within_mmapAllocatorPut
      exact (hfree h₁).mono fun _ _ w => r.trans_stays w.toStays

/-- **A write from another buffer.** -/
theorem wakes_bufferWriteBuffer (o : Owns h b a) (src len : Nat) :
    Returns (bufferWriteBuffer env b src len) h (fun _ h' => Wakes b a h h') :=
  o.dispatch fun B _ hop => by
    rw [hop]
    exact wakes_write o stays_mmapAllocatorWriteDataBuffer

end Pb
