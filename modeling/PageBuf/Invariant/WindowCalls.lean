import PageBuf.Invariant.WindowClear

/-!
# WindowCalls — what the calls make of file, head and window

Writing, `extend` and `reserve` leave the window, which then may end before the
file does. Moving the head gives it up, and this is where the 16 bits of the
allocator's counter matter.
-/

namespace Pb

open StateRun Function Ring

variable {env : Env} {h h' h₁ : Heap} {R : Nat → List Nat} {a b head head' len n r : Nat}
  {fd : Fd} {ks : List Block} {bs : List UInt8} {A : MmapAllocator}

/-- Where a call leaves the buffer: the bytes of its file, its head, how often the revision
was bumped, and the window. -/
structure Stands (h h' : Heap) (b a : Nat) (fd : Fd) (bs : List UInt8) (head r : Nat)
    (ks : List Block) : Prop where
  window : Window h' b a fd head ks
  file : h'.files fd.file = bs
  revision : h'.revOf b = h.revOf b + r

/-! ## Growing the file -/

/-- A file that has not become shorter shows as much as before. -/
theorem Maps.filed (m : Maps h R b a fd head ks) (f : Filed h h' fd.file bs) (ht : Totals h' R)
    (hle : (h.files fd.file).length ≤ bs.length) : Maps h' R b a fd head ks := by
  have hfile : h'.files fd.file = bs := by
    rw [f.idle.files]
    exact update_self _ _ _
  exact
    { inv := ⟨f.core m.inv.core, ht⟩
      opened := m.opened.filed f (Nat.le_trans m.opened.head hle)
      alone := fun e he => by
        rw [← Heap.kindOf_eq_none, f.idle.kind]
        exact Heap.kindOf_eq_none.mpr (m.alone e he)
      ring := m.ring
      shows := fun k hk => by
        have hshow := m.shows k hk
        exact Heap.Shows.idle (h := h.setFile fd.file bs) ⟨hshow.data, hshow.shape, hshow.mapping,
          hshow.vec⟩ f.idle
      once := m.once
      stretch := by
        rw [hfile]
        exact m.stretch.mono hle
      first := m.first }

theorem Filed.file (f : Filed h h' fd.file bs) : h'.files fd.file = bs := by
  rw [f.idle.files]
  exact update_self _ _ _

/-- The file has grown by `bytes`; besides, only counters have changed, and the revision by
`r`. -/
structure Lengthens (h h' : Heap) (b : Nat) (fd : Fd) (bytes : List UInt8) (r : Nat) : Prop where
  filed : Filed h h' fd.file (h.files fd.file ++ bytes)
  totals : ∀ {R}, Totals h R → Totals h' R
  revision : h'.revOf b = h.revOf b + r

theorem Lengthens.granted (h : Heap) (b : Nat) (fd : Fd) : Lengthens h h.granted b fd [] 0 where
  filed := by
    rw [List.append_nil]
    exact .unchanged (Idle.granted h) rfl _
  totals := fun ht => ht
  revision := rfl

theorem Lengthens.before (ap : Lengthens h₁ h' b fd bs r) (i : Idle h h₁) (hm : h₁.mem = h.mem)
    (ht : ∀ {R}, Totals h R → Totals h₁ R) (hrev : h₁.revOf b = h.revOf b + n) :
    Lengthens h h' b fd bs (n + r) where
  filed := by
    have f := ap.filed
    rw [i.files] at f
    exact .before i hm f
  totals := fun ht' => ap.totals (ht ht')
  revision := by rw [ap.revision, hrev, Nat.add_assoc]

/-- The buffer stands in the longer file as before. -/
theorem Opened.lengthens (ho : Opened h b a fd head) (ap : Lengthens h h' b fd bs r) :
    Opened h' b a fd head := by
  refine ho.filed ap.filed ?_
  rw [List.length_append]
  exact Nat.le_add_right_of_le ho.head

theorem Window.lengthens (w : Window h b a fd head ks) (ap : Lengthens h h' b fd bs r) :
    Stands h h' b a fd (h.files fd.file ++ bs) head r ks := by
  obtain ⟨R, m⟩ := w.maps
  refine ⟨⟨⟨R, m.filed ap.filed (ap.totals m.inv.totals) ?_⟩, w.writable⟩, ap.filed.file,
    ap.revision⟩
  rw [List.length_append]
  omega

theorem Window.opened (w : Window h b a fd head ks) : Opened h b a fd head := by
  obtain ⟨R, m⟩ := w.maps
  exact m.opened

/-- `ftruncate` to a greater size. -/
theorem ftruncate_lengthens (hs : env.Succeeds) (len : Nat) :
    Yields (ftruncate env fd ((h.files fd.file).length + len)) h (fun ok h' =>
      ok = fd.writable ∧
      Lengthens h h' b fd (List.replicate (if fd.writable then len else 0) 0) 0) := by
  unfold ftruncate
  refine Yields.step (osRequest_granted hs.system) ?_
  by_cases hw : fd.writable = true
  · simp only [hw, if_true]
    refine Yields.step (modify_run _) (yields_pure.mpr ⟨rfl, ?_⟩)
    have hbytes : (h.granted.files fd.file).take ((h.files fd.file).length + len)
        ++ List.replicate ((h.files fd.file).length + len - (h.granted.files fd.file).length) 0
          = h.files fd.file ++ List.replicate len 0 := by
      have hfile : h.granted.files fd.file = h.files fd.file := rfl
      rw [hfile, List.take_of_length_le (by omega), Nat.add_sub_cancel_left]
    rw [hbytes]
    exact ⟨⟨(Idle.granted h).setFile _ _, rfl⟩, fun ht => ht, rfl⟩
  · simp only [hw, Bool.false_eq_true, if_false, List.replicate_zero]
    exact yields_pure.mpr ⟨by simp, .granted h b fd⟩

namespace Opened

variable (ho : Opened h b a fd head)

include ho

/-- The operations of the buffer are those of the mmap class. -/
theorem getBuffer : ∃ B, h.buffers b = some B ∧ B.operations = .mmap a := by
  obtain ⟨B, hB, hk⟩ := Option.map_eq_some_iff.mp ho.kind
  exact ⟨B, hB, (Prod.mk.inj hk).2⟩

theorem mmapAllocatorOf : h.mmapAllocatorOf b = h.mmapAllocators a := by
  obtain ⟨⟨σ, cls, rev, size⟩, hB, hop⟩ := ho.getBuffer
  subst hop
  rw [Heap.mmapAllocatorOf, hB]

/-- `pb_mmap_allocator_write_data` appends what it can write. -/
theorem allocatorWriteData (hs : env.Succeeds) (buf : List UInt8) :
    Yields (mmapAllocatorWriteData env a buf) h (fun n h' =>
      n = (if fd.writable then buf.length else 0) ∧
      Lengthens h h' b fd (if fd.writable then buf else []) 0) := by
  obtain ⟨A, hA, hfd, -⟩ := ho.allocator
  unfold mmapAllocatorWriteData
  refine Yields.step (getMmapAllocator_run hA) ?_
  simp only [hfd]
  obtain ⟨o, h', hwrite, ho', hbuffers, f⟩ := writeFile_appends hs fd buf h
  refine Yields.step hwrite (yields_pure.mpr ⟨ho', f, fun ht c C hC => ?_, ?_⟩)
  · rw [Heap.lenOf_congr f.idle.pages]
    exact ht c C (by rwa [← hbuffers])
  · rw [Heap.revOf, hbuffers]
    rfl

/-- **`pb_buffer_write_data`** appends to the file, and bumps the revision first where the buffer
has no bytes. -/
theorem writeData (hs : env.Succeeds) (buf : List UInt8) :
    Yields (bufferWriteData env b buf) h (fun n h' =>
      n = (if fd.writable then buf.length else 0) ∧
      Lengthens h h' b fd (if fd.writable then buf else [])
        (if (h.files fd.file).length = head then 1 else 0)) := by
  obtain ⟨B, hB, hop⟩ := ho.getBuffer
  obtain ⟨h₁, hrun, i, hm, ht, hrev⟩ := bumpIfEmpty_run hs.system ho (mmapAllocatorWriteData env a buf)
  have hcall : bufferWriteData env b buf h = mmapAllocatorWriteData env a buf h₁ := by
    refine (bind_run (getBuffer_run hB)).trans ?_
    rw [hop]
    exact hrun
  refine Yields.of_eq hcall (((ho.idle i).allocatorWriteData hs buf).mono fun n h' hpost => ?_)
  exact ⟨hpost.1, hpost.2.before i hm ht hrev⟩

theorem allocatorExtend (hs : env.Succeeds) (len : Nat) :
    Yields (mmapAllocatorExtend env a len) h (fun n h' =>
      n = (if fd.writable then len else 0) ∧ Lengthens h h' b fd (List.replicate n 0) 0) := by
  obtain ⟨A, hA, hfd, -⟩ := ho.allocator
  unfold mmapAllocatorExtend
  refine Yields.step (getMmapAllocator_run hA) ?_
  simp only [hfd]
  refine Yields.step (mmapAllocatorGetFileSize_run hs.system hA hfd) ?_
  refine Yields.bind (ftruncate_lengthens (h := h.granted) (b := b) hs len) fun ok h' hpost => ?_
  obtain ⟨rfl, ap⟩ := hpost
  have ap' := ap.before (n := 0) (Idle.granted h) rfl (fun ht => ht) rfl
  by_cases hw : fd.writable = true
  · simp only [hw, if_true] at ap' ⊢
    exact yields_pure.mpr ⟨rfl, ap'⟩
  · simp only [hw, Bool.false_eq_true, if_false] at ap' ⊢
    exact yields_pure.mpr ⟨rfl, ap'⟩

/-- **`pb_buffer_extend`** appends zero bytes, and leaves the revision. -/
theorem extend (hs : env.Succeeds) (len : Nat) :
    Yields (bufferExtend env b len) h (fun n h' =>
      n = (if fd.writable then len else 0) ∧ Lengthens h h' b fd (List.replicate n 0) 0) := by
  obtain ⟨B, hB, hop⟩ := ho.getBuffer
  unfold bufferExtend
  refine Yields.step (getBuffer_run hB) ?_
  rw [hop]
  exact ho.allocatorExtend hs len

/-- **`pb_buffer_reserve`** appends what is missing. -/
theorem reserve (hs : env.Succeeds) (size : Nat) :
    Yields (bufferReserve env b size) h (fun n h' =>
      n = (if fd.writable then size - ((h.files fd.file).length - head) else 0) ∧
      Lengthens h h' b fd (List.replicate n 0) 0) := by
  obtain ⟨B, hB, hop⟩ := ho.getBuffer
  obtain ⟨A, hA, hfd, hhead⟩ := ho.allocator
  have hsize := mmapAllocatorGetDataSize_run hs.system hA hfd (hhead ▸ ho.head)
  unfold bufferReserve
  refine Yields.step (getBuffer_run hB) ?_
  rw [hop]
  show Yields (mmapAllocatorReserve env a size) h _
  unfold mmapAllocatorReserve
  refine Yields.step (getMmapAllocator_run hA) ?_
  simp only [hfd]
  refine Yields.step hsize ?_
  rw [hhead]
  by_cases hle : size ≤ (h.files fd.file).length - head
  · rw [if_pos hle]
    refine yields_pure.mpr ⟨?_, .granted h b fd⟩
    rw [Nat.sub_eq_zero_of_le hle]
    simp
  · rw [if_neg hle]
    refine ((ho.idle (Idle.granted h)).allocatorExtend hs _).mono fun n h' hpost => ?_
    exact ⟨hpost.1, hpost.2.before (n := 0) (Idle.granted h) rfl (fun ht => ht) rfl⟩

end Opened

namespace Window

variable (w : Window h b a fd head ks)

include w

theorem getDataSize (hs : env.Succeeds) :
    bufferGetDataSize env b h = .ok ((h.files fd.file).length - head, h.granted) :=
  bufferGetDataSize_mmap hs.system w.opened

theorem writeData (hs : env.Succeeds) (buf : List UInt8) :
    Yields (bufferWriteData env b buf) h (fun n h' =>
      n = (if fd.writable then buf.length else 0) ∧
      Stands h h' b a fd (h.files fd.file ++ if fd.writable then buf else []) head
        (if (h.files fd.file).length = head then 1 else 0) ks) :=
  (w.opened.writeData hs buf).mono fun _ _ hpost => ⟨hpost.1, w.lengthens hpost.2⟩

theorem extend (hs : env.Succeeds) (len : Nat) :
    Yields (bufferExtend env b len) h (fun n h' =>
      n = (if fd.writable then len else 0) ∧
      Stands h h' b a fd (h.files fd.file ++ List.replicate n 0) head 0 ks) :=
  (w.opened.extend hs len).mono fun _ _ hpost => ⟨hpost.1, w.lengthens hpost.2⟩

theorem reserve (hs : env.Succeeds) (size : Nat) :
    Yields (bufferReserve env b size) h (fun n h' =>
      n = (if fd.writable then size - ((h.files fd.file).length - head) else 0) ∧
      Stands h h' b a fd (h.files fd.file ++ List.replicate n 0) head 0 ks) :=
  (w.opened.reserve hs size).mono fun _ _ hpost => ⟨hpost.1, w.lengthens hpost.2⟩

end Window

/-! ## Moving the head -/

/-- The heap with the head of the buffer at another place. -/
def Heap.withHead (h : Heap) (a : Nat) (A : MmapAllocator) (head : Nat) : Heap :=
  h.setMmapAllocator a (some { A with fileHeadOffset := head })

namespace Opened

variable (ho : Opened h b a fd head)

include ho

/-- The two halves of `pb_buffer_rewind`: the head moves, and what is mapped is given up. -/
theorem bufferRewind_eq (hA : h.mmapAllocators a = some A) (len : Nat) :
    bufferRewind env b len h = (do trivialPureBufferClear b; pure (min len head) : PbM Nat)
      (h.withHead a A (head - min len head)) := by
  obtain ⟨B, hB, hop⟩ := ho.getBuffer
  obtain ⟨A', hA', hfd, hhead⟩ := ho.allocator
  rw [hA] at hA'
  cases hA'
  have hmin : (if len < head then len else head) = min len head := by
    split <;> omega
  have hrun : mmapAllocatorRewind a len h
      = .ok (min len head, h.withHead a A (head - min len head)) := by
    unfold mmapAllocatorRewind
    refine (bind_run (getMmapAllocator_run hA)).trans ?_
    simp only [hfd, hhead, hmin]
    refine (bind_run (modifyMmapAllocator_run hA _)).trans ?_
    rw [hhead]
    rfl
  unfold bufferRewind
  refine (bind_run (getBuffer_run hB)).trans ?_
  rw [hop]
  exact bind_run hrun

/-- The two halves of `pb_buffer_seek`. -/
theorem bufferSeek_eq (hs : env.Succeeds) (hA : h.mmapAllocators a = some A)
    (hn : n = min len ((h.files fd.file).length - head)) :
    bufferSeek env b len h = (do trivialPureBufferClear b; pure n : PbM Nat)
      (h.granted.withHead a A (head + n)) := by
  obtain ⟨B, hB, hop⟩ := ho.getBuffer
  obtain ⟨A', hA', hfd, hhead⟩ := ho.allocator
  rw [hA] at hA'
  cases hA'
  have hmin : (if len > (h.files fd.file).length - head then (h.files fd.file).length - head
      else len) = n := by
    split <;> omega
  have hrun : mmapAllocatorSeek env a len h = .ok (n, h.granted.withHead a A (head + n)) := by
    unfold mmapAllocatorSeek
    refine (bind_run (getMmapAllocator_run hA)).trans ?_
    simp only [hfd]
    refine (bind_run (mmapAllocatorGetFileSize_run hs.system hA hfd)).trans ?_
    rw [hhead, wrapSub_of_le ho.head]
    simp only [hmin]
    refine (bind_run (modifyMmapAllocator_run (h := h.granted) hA _)).trans ?_
    rw [hhead]
    rfl
  unfold bufferSeek
  refine (bind_run (getBuffer_run hB)).trans ?_
  rw [hop]
  exact bind_run hrun

theorem bufferClear_eq : bufferClear env b h
    = (do trivialPureBufferClear b; mmapAllocatorClear env a : PbM Unit) h := by
  obtain ⟨B, hB, hop⟩ := ho.getBuffer
  unfold bufferClear
  refine (bind_run (getBuffer_run hB)).trans ?_
  rw [hop]
  rfl

/-- `pb_mmap_allocator_clear`. -/
theorem allocatorClear (hs : env.Succeeds) (hA : h.mmapAllocators a = some A) :
    mmapAllocatorClear env a h
      = .ok ((), h.granted.withHead a A (h.files fd.file).length) := by
  obtain ⟨A', hA', hfd, -⟩ := ho.allocator
  rw [hA] at hA'
  cases hA'
  unfold mmapAllocatorClear
  refine (bind_run (getMmapAllocator_run hA)).trans ?_
  simp only [hfd]
  refine (bind_run (mmapAllocatorGetFileSize_run hs.system hA hfd)).trans ?_
  exact modifyMmapAllocator_run (h := h.granted) hA _

end Opened

theorem Teardown.withHead {Z X T : List Nat} (t : Teardown h b a fd head ks Z X T n)
    (hA : h.mmapAllocators a = some A) :
    Teardown (h.withHead a A head') b a fd head' ks Z X T n where
  toRuins := t.toRuins.congr rfl rfl
  sentinel := t.sentinel
  datas := t.datas
  stale := t.stale
  allocator := by
    obtain ⟨A', hA', hfd, -, huse, hnd, htree⟩ := t.allocator
    rw [hA] at hA'
    cases hA'
    exact ⟨{ A with fileHeadOffset := head' }, update_self _ _ _, hfd, rfl, huse, hnd, htree⟩

theorem Bare.withHead (s : Bare h b a) : Bare (h.withHead a A head') b a :=
  { s with allocators := fun a' ha => (update_of_ne ha _ _).trans (s.allocators a' ha) }

/-- Without pages the head can be moved. -/
theorem Maps.withHead (m : Maps h R b a fd head []) (hA : h.mmapAllocators a = some A)
    (hle : head' ≤ (h.files fd.file).length) :
    Maps (h.withHead a A head') (fun _ => []) b a fd head' [] := by
  refine (m.teardown.withHead hA).maps m.bare.withHead hle fun B hB => ?_
  have hsize := m.inv.totals b B hB
  rw [m.ring] at hsize
  exact hsize

/-- **The window is given up**, and a window without pages is left. -/
theorem Teardown.giveUp (t : Teardown h b a fd head ks [] [] [] (ks.length + 1)) (s : Bare h b a)
    (hlen : ks.length ≤ h.next) (hle : head ≤ (h.files fd.file).length) :
    Settles (ks.length ≤ 65535) (trivialPureBufferClear b) h (fun _ h' =>
      Stands h h' b a fd (h.files fd.file) head 1 []) := by
  have hb : (h.buffers b).isSome := by
    rw [← h.isSome_kindOf, s.kind]
    rfl
  have hclear := t.pureClear hb (Nat.lt_succ_self _) (Nat.le_succ _) hlen
  have hpost : Settles (ks.length + 1 ≤ 65536) (trivialPureBufferClear b) h
      (fun _ h' => Stands h h' b a fd (h.files fd.file) head 1 []) := by
    refine hclear.mono fun _ h' hpost => ?_
    obtain ⟨t', cl⟩ := hpost
    rw [Nat.add_sub_cancel_left] at t'
    refine ⟨⟨⟨_, t'.maps (cl.bare s) ?_ fun B hB => ?_⟩, fun hne => (hne rfl).elim⟩,
      by rw [cl.files], cl.revision⟩
    · rw [cl.files]
      exact hle
    · obtain ⟨B₀, -, hB'⟩ := cl.buffer
      rw [hB'] at hB
      cases hB
      rfl
  exact hpost.iff (by omega)

theorem Maps.length_le (m : Maps h R b a fd head ks) : ks.length ≤ h.next := by
  have hle := m.inv.core.links.length_le m.opened.isSome
  rwa [m.ring, List.length_map] at hle

/-- The head may have moved before. -/
theorem Maps.pureClear (m : Maps h R b a fd head ks) (hA : h.mmapAllocators a = some A)
    (hle : head' ≤ (h.files fd.file).length) :
    Settles (ks.length ≤ 65535) (trivialPureBufferClear b) (h.withHead a A head') (fun _ h' =>
      Stands h h' b a fd (h.files fd.file) head' 1 []) :=
  ((m.teardown.withHead hA).giveUp m.bare.withHead m.length_le hle).mono fun _ _ hst =>
    ⟨hst.window, hst.file, hst.revision⟩

namespace Window

variable (w : Window h b a fd head ks)

include w

/-- **`pb_buffer_rewind`** moves the head back. -/
theorem rewind (len : Nat) : Settles (ks.length ≤ 65535) (bufferRewind env b len) h
    (fun n h' => n = min len head ∧ Stands h h' b a fd (h.files fd.file) (head - n) 1 []) := by
  obtain ⟨R, m⟩ := w.maps
  obtain ⟨A, hA, -⟩ := m.opened.allocator
  have hle : head - min len head ≤ (h.files fd.file).length :=
    Nat.le_trans (Nat.sub_le _ _) m.opened.head
  refine Settles.of_eq (m.opened.bufferRewind_eq hA len) ?_
  exact Settles.bind (m.pureClear hA hle) fun _ h' hst => yields_pure.mpr ⟨rfl, hst⟩

/-- **`pb_buffer_seek`** moves the head forward. -/
theorem seek (hs : env.Succeeds) (len : Nat) :
    Settles (ks.length ≤ 65535) (bufferSeek env b len) h (fun n h' =>
      n = min len ((h.files fd.file).length - head) ∧
      Stands h h' b a fd (h.files fd.file) (head + n) 1 []) := by
  obtain ⟨R, m⟩ := w.maps
  obtain ⟨A, hA, -⟩ := m.opened.allocator
  obtain ⟨n, hn⟩ : ∃ n, n = min len ((h.files fd.file).length - head) := ⟨_, rfl⟩
  have hle : head + n ≤ (h.granted.files fd.file).length := by
    have hhead := m.opened.head
    show head + n ≤ (h.files fd.file).length
    omega
  refine Settles.of_eq (m.opened.bufferSeek_eq hs hA hn) ?_
  refine Settles.bind (m.granted.pureClear hA hle) fun _ h' hst => ?_
  exact yields_pure.mpr ⟨hn, hst.window, hst.file, hst.revision⟩

/-- **`pb_buffer_clear`** moves the head to the end of the file. -/
theorem clear (hs : env.Succeeds) :
    Settles (ks.length ≤ 65535) (bufferClear env b) h (fun _ h' =>
      Stands h h' b a fd (h.files fd.file) (h.files fd.file).length 1 []) := by
  obtain ⟨R, m⟩ := w.maps
  have hclear := m.teardown.giveUp m.bare m.length_le m.opened.head
  refine Settles.of_eq m.opened.bufferClear_eq (Settles.bind hclear fun _ h' hst => ?_)
  -- without pages the head can be moved
  obtain ⟨R', m'⟩ := hst.window.maps
  obtain ⟨A', hA', -⟩ := m'.opened.allocator
  refine Yields.intro (m'.opened.allocatorClear hs hA') ?_
  rw [hst.file]
  have hlen : (h.files fd.file).length ≤ (h'.granted.files fd.file).length := by
    rw [show h'.granted.files = h'.files from rfl, hst.file]
  exact ⟨⟨⟨_, m'.granted.withHead hA' hlen⟩, fun hne => (hne rfl).elim⟩, hst.file, hst.revision⟩

end Window

end Pb
