import PageBuf.Invariant.Calls
import PageBuf.Invariant.WindowTrim

/-!
# MmapRuns — an mmap buffer through a run of calls

After every call an mmap buffer has a window, or a trim has left it behind, or it
is gone. Of what a call does to file, head and revision the steps keep as much as
the run needs.
-/

namespace Pb

open StateRun Function Ring

variable {env : Env} {h h' g : Heap} {a b head head' k len n r it : Nat} {fd : Fd}
  {ks : List Block} {bs : List UInt8} {bi : ByteIterator} {op : MmapOp} {A : MmapAllocator}

/-! ## A buffer that a trim has left behind -/

theorem bufferIsEndIterator_self : bufferIsEndIterator b b = true := by
  simp [bufferIsEndIterator, trivialBufferIsEndIterator]

namespace Broken

variable (br : Broken h b a fd head)

include br

theorem filed (f : Filed h h' fd.file bs) (hle : head ≤ bs.length) : Broken h' b a fd head where
  opened := br.opened.filed f hle
  writable := br.writable
  torn := by
    obtain ⟨X, d, t, hd⟩ := br.torn
    exact ⟨X, d, t.congr f.idle.pages f.idle.datas f.idle.mmapAllocators, hd⟩

theorem lengthens (ap : Lengthens h h' b fd bs r) : Broken h' b a fd head := by
  refine br.filed ap.filed ?_
  rw [List.length_append]
  exact Nat.le_add_right_of_le br.opened.head

theorem granted : Broken h.granted b a fd head := br.lengthens (Lengthens.granted h b fd)

theorem sentinel : ∃ E, h.pages b = some E ∧ E.prev = some b ∧ E.next = some b ∧ E.data = none ∧
    E.dataVec.len = 0 := by
  obtain ⟨X, d, t, -⟩ := br.torn
  obtain ⟨E, hE⟩ := Option.isSome_iff_exists.mp ((t.pages b).mpr (.inl rfl))
  refine ⟨E, hE, ?_, ?_, ?_, ?_⟩
  · rw [← Heap.prevOf_eq hE]
    exact IsRing.prev_end (l := []) t.ring
  · rw [← Heap.nextOf_eq hE]
    exact IsRing.next_end (l := []) t.ring
  · rw [← Heap.dataOf_eq hE]
    exact t.sentinel.1
  · rw [← t.sentinel.2, Heap.lenOf, Heap.vecOf_eq hE]

theorem pagesOf : h.pagesOf b = [] := by
  obtain ⟨E, hE, -, hnext, -⟩ := br.sentinel
  obtain ⟨X, d, t, -⟩ := br.torn
  rw [Heap.pagesOf, Heap.nextOf_eq hE, hnext]
  exact (show IsRing h.nextOf h.prevOf b ([] ++ []) from t.ring).walk_eq (Nat.zero_le _)

/-- Its only place is the end. -/
theorem place_eq (hit : h.IsPlaceOf b it) : it = b := by
  rw [Heap.IsPlaceOf, br.pagesOf] at hit
  simpa using hit

theorem next_end : trivialBufferNextIterator b h = .ok (b, h) := by
  obtain ⟨E, hE, -, hnext, -⟩ := br.sentinel
  exact (bind_run (getPage_run hE)).trans (deref_run hnext)

theorem prev_end : trivialBufferPrevIterator b h = .ok (b, h) := by
  obtain ⟨E, hE, hprev, -⟩ := br.sentinel
  exact (bind_run (getPage_run hE)).trans (deref_run hprev)

theorem get_end : trivialBufferGetIterator b h = .ok (b, h) := br.next_end

theorem offset_end : mmapPageFileOffset b h = .ok (none, h) := by
  obtain ⟨E, hE, -, -, hdata, -⟩ := br.sentinel
  unfold mmapPageFileOffset
  refine (bind_run (getPage_run hE)).trans ?_
  rw [hdata]
  rfl

/-- The tree has an entry, and every entry is stale. -/
theorem stale (hA : h.mmapAllocators a = some A) :
    (∃ d, d ∈ A.dataTree) ∧ ∀ e ∈ A.dataTree, h.datas e = none := by
  obtain ⟨X, d, t, hd⟩ := br.torn
  obtain ⟨A', hA', -, -, -, -, htree⟩ := t.allocator
  rw [hA] at hA'
  cases hA'
  refine ⟨⟨d, (htree d).mpr (.inr (List.mem_singleton_self d))⟩, fun e he => ?_⟩
  rcases (htree e).mp he with ⟨c, hc, -⟩ | he
  · cases hc
  · rw [List.mem_singleton.mp he]
    by_contra hn
    exact hd ((t.datas d (Option.isSome_iff_ne_none.mpr hn)).resolve_left (by simp))

/-- **The lookup runs into the stale entry.** -/
theorem lookup_stuck (hA : h.mmapAllocators a = some A) (key : Nat) :
    Returns (dataTreeFind key A.dataTree) h (fun _ _ => False) := by
  obtain ⟨⟨d, hin⟩, hgone⟩ := br.stale hA
  cases htr : A.dataTree with
  | nil =>
      rw [htr] at hin
      cases hin
  | cons e tree =>
      refine returns_getData fun D hD => ?_
      rw [hgone e (by rw [htr]; exact List.mem_cons_self)] at hD
      cases hD

theorem mapBlock_stuck (off start size : Nat) :
    Returns (mmapAllocatorMapBlock env a off start size) h (fun _ _ => False) := by
  obtain ⟨A, hA, -⟩ := br.opened.allocator
  unfold mmapAllocatorMapBlock
  refine Returns.step (getMmapAllocator_run hA) ?_
  exact Returns.bind (br.lookup_stuck hA off) fun _ _ hf => hf.elim

/-- Behind the end of the file there is nothing to map. Elsewhere the lookup does not return. -/
theorem mapForward (hs : env.Succeeds) :
    Returns (mmapAllocatorPageMapForward env a b) h (fun o g =>
      o = none ∧ g = h.granted ∧ (h.files fd.file).length ≤ head) := by
  obtain ⟨A, hA, hfd, hhead⟩ := br.opened.allocator
  unfold mmapAllocatorPageMapForward
  refine Returns.step (getMmapAllocator_run hA) ?_
  simp only [hfd]
  refine Returns.step br.offset_end ?_
  refine Returns.step (mmapAllocatorGetFileSize_run hs.system hA hfd) (Returns.pure_bind ?_)
  by_cases he : A.fileHeadOffset = (h.files fd.file).length
  · rw [if_pos he]
    exact Returns.pure ⟨rfl, rfl, Nat.le_of_eq (he.symm.trans hhead)⟩
  · rw [if_neg he]
    exact Returns.bind (br.granted.mapBlock_stuck _ _ _) fun _ _ hf => hf.elim

theorem mapBackward (hs : env.Succeeds) :
    Returns (mmapAllocatorPageMapBackward env a b) h (fun o g =>
      o = none ∧ g = h.granted ∧ (h.files fd.file).length ≤ head) := by
  obtain ⟨A, hA, hfd, hhead⟩ := br.opened.allocator
  unfold mmapAllocatorPageMapBackward
  refine Returns.step (getMmapAllocator_run hA) ?_
  simp only [hfd]
  refine Returns.step br.offset_end ?_
  refine Returns.step (mmapAllocatorGetFileSize_run hs.system hA hfd) ?_
  simp only [Option.getD_none]
  by_cases he : (h.files fd.file).length ≤ A.fileHeadOffset
  · rw [if_pos he]
    exact Returns.pure ⟨rfl, rfl, hhead ▸ he⟩
  · rw [if_neg he]
    exact Returns.bind (br.granted.mapBlock_stuck _ _ _) fun _ _ hf => hf.elim

theorem getIterator (hs : env.Succeeds) :
    Returns (bufferGetIterator env b) h (fun it g =>
      it = b ∧ g = h.granted ∧ (h.files fd.file).length ≤ head) := by
  obtain ⟨B, hB, hop⟩ := br.opened.getBuffer
  unfold bufferGetIterator
  refine Returns.step (getBuffer_run hB) ?_
  rw [hop]
  unfold mmapBufferGetIterator
  refine Returns.step br.get_end ?_
  simp only [trivialBufferIsEndIterator, decide_true, if_true]
  refine Returns.bind (br.mapForward hs) ?_
  rintro o g ⟨rfl, rfl, hle⟩
  exact Returns.pure ⟨rfl, rfl, hle⟩

theorem nextIterator (hs : env.Succeeds) :
    Returns (bufferNextIterator env b b) h (fun it g =>
      it = b ∧ g = h.granted ∧ (h.files fd.file).length ≤ head) := by
  obtain ⟨B, hB, hop⟩ := br.opened.getBuffer
  unfold bufferNextIterator
  refine Returns.step (getBuffer_run hB) ?_
  rw [hop]
  unfold mmapBufferNextIterator
  refine Returns.step br.next_end ?_
  simp only [trivialBufferIsEndIterator, decide_true, if_true]
  refine Returns.step br.prev_end (Returns.bind (br.mapForward hs) ?_)
  rintro o g ⟨rfl, rfl, hle⟩
  exact Returns.pure ⟨rfl, rfl, hle⟩

theorem prevIterator (hs : env.Succeeds) :
    Returns (bufferPrevIterator env b b) h (fun it g =>
      it = b ∧ g = h.granted ∧ (h.files fd.file).length ≤ head) := by
  obtain ⟨B, hB, hop⟩ := br.opened.getBuffer
  unfold bufferPrevIterator
  refine Returns.step (getBuffer_run hB) ?_
  rw [hop]
  unfold mmapBufferPrevIterator
  refine Returns.step br.prev_end ?_
  simp only [trivialBufferIsEndIterator, decide_true, if_true]
  refine Returns.step br.next_end (Returns.bind (br.mapBackward hs) ?_)
  rintro o g ⟨rfl, rfl, hle⟩
  exact Returns.pure ⟨rfl, rfl, hle⟩

theorem live : (h.pages b).isSome := by
  obtain ⟨E, hE, -⟩ := br.sentinel
  rw [hE]
  rfl

/-- **Reading** finds nothing, or does not return. -/
theorem reads (hs : env.Succeeds) (hop : op.Reads) (hv : op.Valid h b) :
    Returns (execMmap env b op) h (fun _ g => g = h ∨ g = h.granted) := by
  have hplace : ∀ {it}, h.IsPlaceOf b it → it = b := br.place_eq
  have hend : bufferIsEndIterator b b = true := bufferIsEndIterator_self
  cases op with
  | getDataSize =>
      exact Returns.step (bufferGetDataSize_mmap hs.system br.opened) (Returns.pure (.inr rfl))
  | readData len =>
      refine Returns.bind (P := fun _ g => g = h.granted) ?_ fun _ g hg => Returns.pure (.inr hg)
      unfold trivialBufferReadData
      refine Returns.bind (br.getIterator hs) fun it g hpost => ?_
      obtain ⟨rfl, rfl, -⟩ := hpost
      refine Returns.step get_run ?_
      refine Returns.loop (I := fun s g => s.it = it ∧ g = h.granted) ?_ _ _ _ ⟨rfl, rfl⟩
      rintro s g ⟨hit, rfl⟩
      unfold readDataRound
      rw [hit, if_pos (by simp [hend])]
      exact Returns.pure rfl
  | getIterator =>
      exact Returns.bind (br.getIterator hs) fun _ _ hpost => Returns.pure (.inr hpost.2.1)
  | nextIterator it =>
      obtain rfl := hplace hv.2
      exact Returns.bind (br.nextIterator hs) fun _ _ hpost => Returns.pure (.inr hpost.2.1)
  | prevIterator it =>
      obtain rfl := hplace hv.2
      exact Returns.bind (br.prevIterator hs) fun _ _ hpost => Returns.pure (.inr hpost.2.1)
  | getByteIterator =>
      refine Returns.bind (P := fun _ g => g = h.granted) ?_ fun _ g hg => Returns.pure (.inr hg)
      unfold bufferGetByteIterator
      refine Returns.bind (br.getIterator hs) fun it g hpost => ?_
      obtain ⟨rfl, rfl, -⟩ := hpost
      rw [if_pos hend]
      exact Returns.pure rfl
  | nextByteIterator bi =>
      have hit := hplace hv.2
      refine Returns.bind (P := fun _ g => g = h.granted) ?_ fun _ g hg => Returns.pure (.inr hg)
      have hzero : h.lenOf b = 0 := by
        obtain ⟨X, d, t, -⟩ := br.torn
        exact t.sentinel.2
      unfold bufferNextByteIterator
      rw [hit]
      refine Returns.step (pageGetLen_run br.live) ?_
      rw [hzero, if_pos (Nat.zero_le _)]
      refine Returns.bind (br.nextIterator hs) fun it g hpost => ?_
      obtain ⟨rfl, rfl, -⟩ := hpost
      rw [if_pos hend]
      exact Returns.pure rfl
  | prevByteIterator bi =>
      have hit := hplace hv.2
      refine Returns.bind (P := fun _ g => g = h ∨ g = h.granted) ?_ fun _ g hg => Returns.pure hg
      unfold bufferPrevByteIterator
      rw [hit]
      by_cases hfirst : bi.pageOffset = 0
      · rw [if_pos hfirst]
        refine Returns.bind (br.prevIterator hs) fun it g hpost => ?_
        obtain ⟨rfl, rfl, -⟩ := hpost
        refine Returns.step (pageGetLen_run br.granted.live) ?_
        rw [if_pos hend]
        exact Returns.pure (.inr rfl)
      · rw [if_neg hfirst]
        exact Returns.step (pageGetBase_run br.live) (Returns.pure (.inl rfl))
  | _ => exact hop.elim

theorem overwriteData (hs : env.Succeeds) (buf : List UInt8) :
    Returns (trivialBufferOverwriteData env b buf) h (fun _ g => g = h.granted) := by
  obtain ⟨B, hB, hkind⟩ := Option.map_eq_some_iff.mp br.opened.kind
  unfold trivialBufferOverwriteData
  refine Returns.step (getBuffer_run hB) ?_
  rw [(Prod.mk.inj hkind).1, if_neg (by decide)]
  refine Returns.bind (br.getIterator hs) fun it g hpost => ?_
  obtain ⟨rfl, rfl, -⟩ := hpost
  have hend : bufferIsEndIterator it it = true := bufferIsEndIterator_self
  refine Returns.bind (P := fun n g => n = 0 ∧ g = h.granted) ?_ fun n g hpost => ?_
  · refine Returns.loop (I := fun s g => (s.it = it ∧ s.written = 0) ∧ g = h.granted) ?_ _ _ _
      ⟨⟨rfl, rfl⟩, rfl⟩
    rintro s g ⟨⟨hit, hzero⟩, rfl⟩
    unfold overwriteDataRound
    rw [hit, if_pos (by simp [hend])]
    exact Returns.pure ⟨hzero, rfl⟩
  · obtain ⟨rfl, rfl⟩ := hpost
    unfold bumpIfPositive
    rw [if_neg (Nat.lt_irrefl 0)]
    exact Returns.pure_bind (Returns.pure rfl)

/-- Giving up what is not there leaves the stale entry. -/
theorem giveUp (hA : h.mmapAllocators a = some A) (hle : head' ≤ (h.files fd.file).length) :
    Yields (trivialPureBufferClear b) (h.withHead a A head') (fun _ g =>
      Broken g b a fd head' ∧ g.files = h.files ∧ g.revOf b = h.revOf b + 1) := by
  obtain ⟨X, d, t, hd⟩ := br.torn
  have t' : Teardown (h.withHead a A head') b a fd head' [] [] X [d] 2 := t.withHead hA
  have hclear := (t'.pureClear br.opened.isSome (Nat.succ_pos 1) (Nat.le_refl 2)
    (Nat.zero_le _)).yields (by decide)
  refine hclear.mono fun _ g hpost => ?_
  obtain ⟨t'', cl⟩ := hpost
  have ho : Opened (h.withHead a A head') b a fd head' :=
    { kind := br.opened.kind
      allocator := by
        obtain ⟨A', hA', hfd, hhead, -⟩ := t'.allocator
        exact ⟨A', hA', hfd, hhead⟩
      head := hle }
  refine ⟨⟨cl.opened ho ?_, br.writable, X, d, t'', hd⟩, cl.files, cl.revision⟩
  obtain ⟨A', hA', hfd, hhead, -⟩ := t''.allocator
  exact ⟨A', hA', hfd, hhead⟩

/-- What is given up first, with the head where it is. -/
theorem giveUp_here : Yields (trivialPureBufferClear b) h (fun _ g =>
    Broken g b a fd head ∧ g.files = h.files ∧ g.revOf b = h.revOf b + 1) := by
  obtain ⟨A, hA, -, hhead⟩ := br.opened.allocator
  have hclear := br.giveUp hA br.opened.head
  have hsame : h.withHead a A head = h := by
    rw [Heap.withHead, ← hhead, Heap.setMmapAllocator, ← hA, update_eq_self]
  rwa [hsame] at hclear

theorem rewind (len : Nat) : Yields (bufferRewind env b len) h (fun _ g =>
    ∃ head', Broken g b a fd head' ∧ g.files = h.files ∧ g.revOf b = h.revOf b + 1) := by
  obtain ⟨A, hA, -⟩ := br.opened.allocator
  have hle : head - min len head ≤ (h.files fd.file).length :=
    Nat.le_trans (Nat.sub_le _ _) br.opened.head
  refine Yields.of_eq (br.opened.bufferRewind_eq hA len) ?_
  exact Yields.bind (br.giveUp hA hle) fun _ g hpost => yields_pure.mpr ⟨_, hpost⟩

theorem seek (hs : env.Succeeds) (len : Nat) : Yields (bufferSeek env b len) h (fun _ g =>
    ∃ head', Broken g b a fd head' ∧ g.files = h.files ∧ g.revOf b = h.revOf b + 1) := by
  obtain ⟨A, hA, -⟩ := br.opened.allocator
  obtain ⟨n, hn⟩ : ∃ n, n = min len ((h.files fd.file).length - head) := ⟨_, rfl⟩
  have hhead := br.opened.head
  have hle : head + n ≤ (h.granted.files fd.file).length := by
    show head + n ≤ (h.files fd.file).length
    omega
  refine Yields.of_eq (br.opened.bufferSeek_eq hs hA hn) ?_
  exact Yields.bind (br.granted.giveUp hA hle) fun _ g hpost => yields_pure.mpr ⟨_, hpost⟩

theorem clear (hs : env.Succeeds) : Yields (bufferClear env b) h (fun _ g =>
    ∃ head', Broken g b a fd head' ∧ g.files = h.files ∧ g.revOf b = h.revOf b + 1) := by
  refine Yields.of_eq br.opened.bufferClear_eq (Yields.bind br.giveUp_here fun _ g hpost => ?_)
  obtain ⟨br', hfiles, hrev⟩ := hpost
  obtain ⟨A, hA, -⟩ := br'.opened.allocator
  refine Yields.intro (br'.opened.allocatorClear hs hA) ⟨(g.files fd.file).length, ?_, hfiles, hrev⟩
  obtain ⟨X, d, t, hd⟩ := br'.granted.torn
  exact
    { opened :=
        { kind := br'.opened.kind
          allocator := by
            obtain ⟨A', hA', hfd, -⟩ := br'.opened.allocator
            rw [hA] at hA'
            cases hA'
            exact ⟨_, update_self _ _ _, hfd, rfl⟩
          head := Nat.le_refl _ }
      writable := br.writable
      torn := ⟨X, d, t.withHead hA, hd⟩ }

/-- **Trimming** takes nothing off, or runs into the stale entry. -/
theorem trim (hs : env.Succeeds) (len : Nat) :
    Settles (min len ((h.files fd.file).length - head) = 0) (bufferTrim env b len) h (fun n g =>
      n = 0 ∧ Broken g b a fd head ∧ g.files = h.files ∧ g.revOf b = h.revOf b + 1) := by
  obtain ⟨k, hk⟩ : ∃ k, k = min len ((h.files fd.file).length - head) := ⟨_, rfl⟩
  refine Settles.of_eq (br.opened.bufferTrim_eq hs hk) ?_
  rw [← hk]
  constructor
  · intro hzero
    rw [if_pos hzero]
    exact Yields.bind br.granted.giveUp_here fun _ g hpost => yields_pure.mpr ⟨rfl, hpost⟩
  · intro hzero
    rw [if_neg hzero]
    refine Returns.bind (P := fun _ _ => False) ?_ fun _ _ hf => hf.elim
    obtain ⟨A, hA, -⟩ := br.granted.opened.allocator
    refine Returns.bind (P := fun _ _ => False) ?_ fun _ _ hf => hf.elim
    unfold mmapTrimRound
    rw [if_neg hzero]
    refine Returns.step (getMmapAllocator_run hA) ?_
    exact Returns.bind (br.granted.lookup_stuck hA _) fun _ _ hf => hf.elim

end Broken

/-! ## Any call -/

theorem MmapOp.Valid.isSome (hv : op.Valid h b) : (h.buffers b).isSome := by
  cases op with
  | nextIterator it => exact hv.1
  | prevIterator it => exact hv.1
  | nextByteIterator bi => exact hv.1
  | prevByteIterator bi => exact hv.1
  | _ => exact hv

/-- `pb_buffer_destroy` leaves no buffer. -/
theorem returns_bufferDestroy (ho : Opened h b a fd head) :
    Returns (bufferDestroy env b) h (fun _ g => g.buffers b = none) := by
  obtain ⟨B, hB, hop⟩ := ho.getBuffer
  unfold bufferDestroy
  refine Returns.step (getBuffer_run hB) ?_
  rw [hop]
  unfold mmapBufferDestroy
  refine Returns.bind (P := fun _ _ => True) (fun _ _ _ => trivial) fun _ g _ => ?_
  refine Returns.bind (P := fun _ g' => g'.buffers b = none) ?_ fun _ g' hnone => ?_
  · intro r g' hrun
    unfold freeBuffer at hrun
    split at hrun
    · cases hrun
      exact update_self _ _ _
    · cases hrun
  · refine (returns_mmapAllocatorPut a g').mono fun _ g'' hput => ?_
    rw [← Heap.kindOf_eq_none, hput.kind, Heap.kindOf_eq_none, hnone]

/-- After a call: a window of the file, or what a trim has left behind. -/
def Standing (h : Heap) (b a : Nat) (fd : Fd) (head : Nat) : Prop :=
  (∃ ks, Window h b a fd head ks) ∨ Broken h b a fd head

theorem Standing.opened (st : Standing h b a fd head) : Opened h b a fd head := by
  rcases st with ⟨ks, w⟩ | br
  · exact w.opened
  · exact br.opened

/-- The calls that bump the revision when they bring the first bytes. -/
def MmapOp.Bumps : MmapOp → Prop
  | .extend _ | .reserve _ => False
  | _ => True

/-- What every call keeps: the buffer stands somewhere, and its revision, which only grows, has
grown if it had no bytes and now has some. -/
structure Moves (h h' : Heap) (b a : Nat) (fd : Fd) (head head' : Nat) (Bumps : Prop) : Prop where
  standing : Standing h' b a fd head'
  revision : h.revOf b ≤ h'.revOf b
  filled : Bumps → (h.files fd.file).length = head → (h'.files fd.file).length ≠ head' →
    h.revOf b < h'.revOf b

section Moves

variable {Bumps : Prop}

theorem Stands.moves (hst : Stands h h' b a fd bs head' r ks)
    (hr : Bumps → (h.files fd.file).length = head → bs.length ≠ head' → 0 < r) :
    Moves h h' b a fd head head' Bumps where
  standing := .inl ⟨ks, hst.window⟩
  revision := by
    rw [hst.revision]
    exact Nat.le_add_right _ _
  filled := fun hb hempty hfull => by
    rw [hst.file] at hfull
    have := hr hb hempty hfull
    have := hst.revision
    omega

/-- A call after which the file and the head are as they were. -/
theorem Stands.moves_same (hst : Stands h h' b a fd (h.files fd.file) head r ks) :
    Moves h h' b a fd head head Bumps :=
  hst.moves fun _ hempty hfull => absurd hempty hfull

theorem Broken.moves (br : Broken h' b a fd head') (hrev : h'.revOf b = h.revOf b + r)
    (hr : Bumps → (h.files fd.file).length = head → (h'.files fd.file).length ≠ head' → 0 < r) :
    Moves h h' b a fd head head' Bumps where
  standing := .inr br
  revision := by
    rw [hrev]
    exact Nat.le_add_right _ _
  filled := fun hb hempty hfull => by
    have := hr hb hempty hfull
    omega

theorem Broken.moves_bumped (br : Broken h' b a fd head') (hrev : h'.revOf b = h.revOf b + 1) :
    Moves h h' b a fd head head' Bumps :=
  br.moves hrev fun _ _ _ => Nat.one_pos

end Moves

/-- Of what is trimmed it matters here only where the buffer then stands. -/
theorem Window.trim_moves {Bumps : Prop} (w : Window h b a fd head ks) (hs : env.Succeeds)
    (len : Nat) : Returns (bufferTrim env b len) h (fun _ h' => Moves h h' b a fd head head Bumps) := by
  obtain ⟨k, hk⟩ : ∃ k, k = min len ((h.files fd.file).length - head) := ⟨_, rfl⟩
  have hhead := w.opened.head
  by_cases hpos : k = 0
  · refine (w.trim_nothing hs (hk ▸ hpos)).returns.mono fun _ h' hpost => ?_
    exact hpost.2.moves_same
  · by_cases hmapped : ∃ c ∈ ks, c.obsolete = false ∧ c.offset = mmapOffsetOf (h.files fd.file).length
    · obtain ⟨c, hc, hlive, hoff⟩ := hmapped
      by_cases hlt : k < c.len
      · refine (w.trim_cut hs hc hlive hoff hk hpos hlt).returns.mono fun _ h' hpost => ?_
        obtain ⟨-, br, -, hrev⟩ := hpost
        exact br.moves_bumped hrev
      · exact (w.trim_lost hs hc hlive hoff hk (by omega)).mono fun _ _ hf => hf.elim
    · have hfree : ∀ c ∈ ks, c.obsolete = false → c.offset ≠ mmapOffsetOf (h.files fd.file).length :=
        fun c hc hlive hoff => hmapped ⟨c, hc, hlive, hoff⟩
      have hle : mmapOffsetOf (h.files fd.file).length ≤ (h.files fd.file).length :=
        Nat.div_mul_le_self _ _
      rcases Nat.lt_or_eq_of_le hle with hpart | hfull
      · refine (w.trim_unmapped hs hk hpos hfree hpart).returns.mono fun _ h' hpost => ?_
        exact hpost.2.moves fun _ _ _ => Nat.one_pos
      · exact Returns.of_fault (w.trim_full hs hk hpos hfull)

/-- **A call that neither trims nor destroys** leaves a window. -/
theorem Window.stands (w : Window h b a fd head ks) (hs : env.Succeeds) (hv : op.Valid h b)
    (htrim : ∀ len, op ≠ .trim len) (hdestroy : op ≠ .destroy) :
    Returns (execMmap env b op) h (fun _ h' => ∃ ks' bs head' r,
      Stands h h' b a fd bs head' r ks' ∧
      (op.Bumps → (h.files fd.file).length = head → bs.length ≠ head' → 0 < r)) := by
  by_cases hop : op.Reads
  · refine (w.reads hs hop hv).returns.mono fun _ h' hpost => ?_
    obtain ⟨ks', hst⟩ := hpost
    exact ⟨ks', _, head, _, hst, fun _ hempty hfull => absurd hempty hfull⟩
  · have hwrite : ∀ buf, Returns (bufferWriteData env b buf) h (fun _ h' => ∃ ks' bs head' r,
        Stands h h' b a fd bs head' r ks' ∧
        (True → (h.files fd.file).length = head → bs.length ≠ head' → 0 < r)) := by
      intro buf
      refine (w.writeData hs buf).returns.mono fun _ h' hpost => ?_
      refine ⟨ks, _, head, _, hpost.2, fun _ hempty _ => ?_⟩
      rw [if_pos hempty]
      exact Nat.one_pos
    cases op with
    | writeData buf => exact Returns.bind (hwrite buf) fun _ h' hm => Returns.pure hm
    | writeDataRef buf => exact Returns.bind (hwrite buf) fun _ h' hm => Returns.pure hm
    | extend len =>
        refine Returns.bind (w.extend hs len).returns fun _ h' hpost => Returns.pure ?_
        exact ⟨ks, _, head, 0, hpost.2, fun hb => hb.elim⟩
    | reserve size =>
        refine Returns.bind (w.reserve hs size).returns fun _ h' hpost => Returns.pure ?_
        exact ⟨ks, _, head, 0, hpost.2, fun hb => hb.elim⟩
    | rewind len =>
        refine Returns.bind (w.rewind len).returns fun _ h' hpost => Returns.pure ?_
        exact ⟨[], _, _, 1, hpost.2, fun _ _ _ => Nat.one_pos⟩
    | seek len =>
        refine Returns.bind (w.seek hs len).returns fun _ h' hpost => Returns.pure ?_
        exact ⟨[], _, _, 1, hpost.2, fun _ _ _ => Nat.one_pos⟩
    | trim len => exact absurd rfl (htrim len)
    | overwriteData buf =>
        refine Returns.bind (w.overwriteData hs buf).returns fun n h' hpost => Returns.pure ?_
        obtain ⟨hn, ks', hst, -⟩ := hpost
        refine ⟨ks', _, head, _, hst, fun _ hempty hfull => absurd ?_ hfull⟩
        rw [Sequence.length_overwrite, hempty]
        rw [List.length_take]
        have hfirst := w.firstAt_le
        omega
    | clear =>
        refine Returns.bind (w.clear hs).returns fun _ h' hst => Returns.pure ?_
        exact ⟨[], _, _, 1, hst, fun _ _ _ => Nat.one_pos⟩
    | destroy => exact absurd rfl hdestroy
    | _ => exact absurd trivial hop

/-- **Any call but the last** of a buffer with a window. -/
theorem Window.calls (w : Window h b a fd head ks) (hs : env.Succeeds) (hv : op.Valid h b)
    (hdestroy : op ≠ .destroy) :
    Returns (execMmap env b op) h (fun _ h' => ∃ head', Moves h h' b a fd head head' op.Bumps) := by
  by_cases htrim : ∃ len, op = .trim len
  · obtain ⟨len, rfl⟩ := htrim
    exact Returns.bind (w.trim_moves hs len) fun _ h' hm => Returns.pure ⟨head, hm⟩
  · refine (w.stands hs hv (fun len he => htrim ⟨len, he⟩) hdestroy).mono fun _ h' hpost => ?_
    obtain ⟨ks', bs, head', r, hst, hr⟩ := hpost
    exact ⟨head', hst.moves hr⟩

/-- **Any call but the last** of a buffer that a trim has left behind. -/
theorem Broken.calls (br : Broken h b a fd head) (hs : env.Succeeds) (hv : op.Valid h b)
    (hdestroy : op ≠ .destroy) :
    Returns (execMmap env b op) h (fun _ h' => ∃ head', Moves h h' b a fd head head' op.Bumps) := by
  have hstay : ∀ {Bumps : Prop}, Moves h h.granted b a fd head head Bumps := fun {Bumps} =>
    br.granted.moves (r := 0) rfl fun _ hempty hfull => absurd hempty hfull
  by_cases hop : op.Reads
  · refine (br.reads hs hop hv).mono fun _ h' hpost => ⟨head, ?_⟩
    rcases hpost with rfl | rfl
    · exact br.moves (r := 0) rfl fun _ hempty hfull => absurd hempty hfull
    · exact hstay
  · have hwrite : ∀ buf, Returns (bufferWriteData env b buf) h (fun _ h' =>
        Moves h h' b a fd head head True) := by
      intro buf
      refine (br.opened.writeData hs buf).returns.mono fun _ h' hpost => ?_
      refine (br.lengthens hpost.2).moves hpost.2.revision fun _ hempty _ => ?_
      rw [if_pos hempty]
      exact Nat.one_pos
    cases op with
    | writeData buf => exact Returns.bind (hwrite buf) fun _ h' hm => Returns.pure ⟨head, hm⟩
    | writeDataRef buf => exact Returns.bind (hwrite buf) fun _ h' hm => Returns.pure ⟨head, hm⟩
    | extend len =>
        refine Returns.bind (br.opened.extend hs len).returns fun _ h' hpost =>
          Returns.pure ?_
        exact ⟨head, (br.lengthens hpost.2).moves hpost.2.revision fun hb => hb.elim⟩
    | reserve size =>
        refine Returns.bind (br.opened.reserve hs size).returns fun _ h' hpost =>
          Returns.pure ?_
        exact ⟨head, (br.lengthens hpost.2).moves hpost.2.revision fun hb => hb.elim⟩
    | rewind len =>
        refine Returns.bind (br.rewind len).returns fun _ h' hpost => Returns.pure ?_
        obtain ⟨head', br', -, hrev⟩ := hpost
        exact ⟨head', br'.moves_bumped hrev⟩
    | seek len =>
        refine Returns.bind (br.seek hs len).returns fun _ h' hpost => Returns.pure ?_
        obtain ⟨head', br', -, hrev⟩ := hpost
        exact ⟨head', br'.moves_bumped hrev⟩
    | trim len =>
        refine Returns.bind (br.trim hs len).returns fun _ h' hpost => Returns.pure ?_
        obtain ⟨-, br', -, hrev⟩ := hpost
        exact ⟨head, br'.moves_bumped hrev⟩
    | overwriteData buf =>
        refine Returns.bind (br.overwriteData hs buf) fun n h' hpost => Returns.pure ?_
        rw [hpost]
        exact ⟨head, hstay⟩
    | clear =>
        refine Returns.bind (br.clear hs).returns fun _ h' hpost => Returns.pure ?_
        obtain ⟨head', br', -, hrev⟩ := hpost
        exact ⟨head', br'.moves_bumped hrev⟩
    | destroy => exact absurd rfl hdestroy
    | _ => exact absurd trivial hop

/-- **Any call but the last.** -/
theorem Standing.calls (st : Standing h b a fd head) (hs : env.Succeeds) (hv : op.Valid h b)
    (hdestroy : op ≠ .destroy) :
    Returns (execMmap env b op) h (fun _ h' => ∃ head', Moves h h' b a fd head head' op.Bumps) := by
  rcases st with ⟨ks, w⟩ | br
  · exact w.calls hs hv hdestroy
  · exact br.calls hs hv hdestroy

/-- **Any call.** -/
theorem Standing.step (st : Standing h b a fd head) (hs : env.Succeeds) (hv : op.Valid h b) :
    Returns (execMmap env b op) h (fun _ h' => h'.buffers b = none ∨
      ∃ head', Moves h h' b a fd head head' op.Bumps) := by
  by_cases hdestroy : op = .destroy
  · subst hdestroy
    exact Returns.bind (returns_bufferDestroy st.opened) fun _ h' hnone => Returns.pure (.inl hnone)
  · exact (st.calls hs hv hdestroy).mono fun _ h' hpost => .inr hpost

/-! ## Runs -/

/-- A new mmap buffer in a heap with nothing in it. -/
theorem window_created (hs : env.Succeeds) {mem : Region → Nat → UInt8} {callerLen : Nat → Nat}
    {files : Nat → List UInt8} {file : Nat} {openAction : MmapOpenAction}
    {closeAction : MmapCloseAction}
    (hrun : mmapBufferCreate env file openAction closeAction (Heap.initial mem callerLen files)
      = .ok (some b, h)) : ∃ a, Window h b a ⟨file, openAction ≠ .read⟩ 0 [] := by
  rw [mmapBufferCreate_run hs] at hrun
  cases hrun
  have hopened := opened_withMmap (Heap.initial mem callerLen files) file openAction closeAction
  have hinv : Inv ((Heap.initial mem callerLen files).withMmap file openAction closeAction)
      (fun _ => []) := (sound_initial mem callerLen files).inv.withMmap rfl
  refine ⟨(Heap.initial mem callerLen files).next, ⟨fun _ => [], ?_⟩, fun hne => (hne rfl).elim⟩
  exact
    { inv := hinv
      opened := hopened
      alone := fun e he => buffers_withMmap (h := Heap.initial mem callerLen files) he
      ring := rfl
      shows := by simp
      once := List.nodup_nil
      stretch := .nil _
      first := .inl rfl }

section Runs

variable {openAction : MmapOpenAction} {M : Heap → MmapOp → Prop}

/-- **The run rule**: what holds of a new mmap buffer and what every call keeps holds of every
state that is reached. -/
theorem MmapReachable.invariant {I : Heap → Prop} (hr : MmapReachable env openAction M b h)
    (hs : env.Succeeds)
    (start : ∀ g a file, Window g b a ⟨file, openAction ≠ .read⟩ 0 [] → I g)
    (step : ∀ g op, I g → op.Valid g b → M g op → Returns (execMmap env b op) g (fun _ g' => I g')) :
    I h := by
  obtain ⟨mem, callerLen, files, file, closeAction, h₀, hcreate, hrun⟩ := hr
  obtain ⟨a, w⟩ := window_created hs hcreate
  have hI : I h₀ := start h₀ a file w
  induction hrun with
  | refl => exact hI
  | tail _ hstep ih =>
      obtain ⟨op, r, hv, hM, hexec⟩ := hstep
      exact step _ op ih hv hM r _ hexec

/-- Where a run has brought an mmap buffer. -/
theorem MmapReachable.standing (hr : MmapReachable env openAction M b h) (hs : env.Succeeds)
    (hb : (h.buffers b).isSome) :
    ∃ a file head, Standing h b a ⟨file, openAction ≠ .read⟩ head := by
  have hI : h.buffers b = none ∨ ∃ a file head, Standing h b a ⟨file, openAction ≠ .read⟩ head := by
    refine hr.invariant (I := fun h => h.buffers b = none ∨
      ∃ a file head, Standing h b a ⟨file, openAction ≠ .read⟩ head) hs ?_ ?_
    · exact fun g a file w => .inr ⟨a, file, 0, .inl ⟨[], w⟩⟩
    · rintro g op (hnone | ⟨a, file, head, st⟩) hv -
      · -- no call is made on a buffer that is gone
        have hsome : (g.buffers b).isSome := hv.isSome
        rw [hnone] at hsome
        cases hsome
      · refine (st.step hs hv).mono fun _ g' hpost => ?_
        rcases hpost with hnone | ⟨head', hm⟩
        · exact .inl hnone
        · exact .inr ⟨a, file, head', hm.standing⟩
  rcases hI with hnone | hst
  · rw [hnone] at hb
    cases hb
  · exact hst

/-- Without trims and without the buffer's end there is a window in every state. -/
theorem MmapReachable.window (hr : MmapReachable env openAction M b h) (hs : env.Succeeds)
    (hM : ∀ g op, M g op → (∀ len, op ≠ .trim len) ∧ op ≠ .destroy) :
    ∃ a file head ks, Window h b a ⟨file, openAction ≠ .read⟩ head ks := by
  refine hr.invariant (I := fun h => ∃ a file head ks,
    Window h b a ⟨file, openAction ≠ .read⟩ head ks) hs ?_ ?_
  · exact fun g a file w => ⟨a, file, 0, [], w⟩
  · rintro g op ⟨a, file, head, ks, w⟩ hv hm
    obtain ⟨htrim, hdestroy⟩ := hM g op hm
    refine (w.stands hs hv htrim hdestroy).mono fun _ g' hpost => ?_
    obtain ⟨ks', bs, head', n, hst, -⟩ := hpost
    exact ⟨a, file, head', ks', hst.window⟩

theorem MmapReachable.mono {M' : Heap → MmapOp → Prop} (hr : MmapReachable env openAction M b h)
    (hM : ∀ g op, M g op → M' g op) : MmapReachable env openAction M' b h := by
  obtain ⟨mem, callerLen, files, file, closeAction, h₀, hcreate, hrun⟩ := hr
  refine ⟨mem, callerLen, files, file, closeAction, h₀, hcreate,
    Relation.ReflTransGen.mono (fun g g' hstep => ?_) _ _ hrun⟩
  obtain ⟨op, r, hv, hm, hexec⟩ := hstep
  exact ⟨op, r, hv, hM g op hm, hexec⟩

theorem MmapReachable.call {r : MmapRet} (hr : MmapReachable env openAction M b h)
    (hv : op.Valid h b) (hm : M h op) (hexec : execMmap env b op h = .ok (r, h')) :
    MmapReachable env openAction M b h' := by
  obtain ⟨mem, callerLen, files, file, closeAction, h₀, hcreate, hrun⟩ := hr
  exact ⟨mem, callerLen, files, file, closeAction, h₀, hcreate, hrun.tail ⟨op, r, hv, hm, hexec⟩⟩

end Runs

/-! ## Running calls -/

/-- The state after a call on an mmap buffer, if it returns. -/
def Heap.afterMmap (h : Heap) (env : Env) (b : Nat) (op : MmapOp) : Heap :=
  match execMmap env b op h with
  | .ok (_, h') => h'
  | .error _ => h

/-- The answer of a call on an mmap buffer, if it returns. -/
def Heap.answerMmap (h : Heap) (env : Env) (b : Nat) (op : MmapOp) : Option MmapRet :=
  match execMmap env b op h with
  | .ok (r, _) => some r
  | .error _ => none

theorem execMmap_after {r : MmapRet} (ha : h.answerMmap env b op = some r) :
    execMmap env b op h = .ok (r, h.afterMmap env b op) := by
  unfold Heap.answerMmap at ha
  unfold Heap.afterMmap
  cases hrun : execMmap env b op h with
  | error f => simp [hrun] at ha
  | ok q =>
      rw [hrun] at ha
      cases ha
      rfl

theorem MmapReachable.after {openAction : MmapOpenAction} {M : Heap → MmapOp → Prop}
    (hr : MmapReachable env openAction M b h) (hv : op.Valid h b) (hm : M h op)
    (ha : (h.answerMmap env b op).isSome) :
    MmapReachable env openAction M b (h.afterMmap env b op) := by
  obtain ⟨r, hr'⟩ := Option.isSome_iff_exists.mp ha
  exact hr.call hv hm (execMmap_after hr')

end Pb
