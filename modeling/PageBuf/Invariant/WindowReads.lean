import PageBuf.Invariant.WindowData

/-!
# WindowReads — the reading calls, from any place

Iterators step from the end or from any page, and so do byte iterators, whatever
part of the file is mapped. Of all these steps one bumps the revision: the step
back from the first page to bytes before it.
-/

namespace Pb

open StateRun Function Ring

variable {env : Env} {h h' : Heap} {R : Nat → List Nat} {a b head len r it x : Nat} {fd : Fd}
  {k : Block} {ks ks' : List Block} {bi : ByteIterator} {op : MmapOp}

/-! ## Places -/

namespace Heap

/-- Where in the file of its buffer a page begins. -/
def fileOffsetOf (h : Heap) (p : Nat) : Nat :=
  match (h.dataOf p).bind h.mmapFieldsOf with
  | some (_, fileOffset, _) => fileOffset + (h.vecOf p).base.offset
  | none => 0

/-- The place is the first page, and the buffer has bytes before it. -/
def StepsBack (h : Heap) (b it : Nat) : Prop :=
  (h.pagesOf b).head? = some it ∧ h.fileHead b < h.fileOffsetOf it

instance : Decidable (h.StepsBack b it) := inferInstanceAs (Decidable (_ ∧ _))

end Heap

namespace Maps

variable (m : Maps h R b a fd head ks)

include m

theorem pagesOf : h.pagesOf b = ks.map Block.page := by
  rw [m.inv.core.links.pagesOf m.opened.isSome, m.ring]

theorem isPlaceOf : h.IsPlaceOf b it ↔ it = b ∨ ∃ k ∈ ks, k.page = it := by
  rw [Heap.IsPlaceOf, m.pagesOf, List.mem_map]

theorem mmapFieldsOf (hk : k ∈ ks) : h.mmapFieldsOf k.data = some (a, k.offset, k.obsolete) := by
  obtain ⟨D, hD, hshape⟩ := Option.map_eq_some_iff.mp (m.shows k hk).shape
  obtain ⟨v, resp, n, cls⟩ := D
  cases hshape
  simp [Heap.mmapFieldsOf, hD]

theorem fileOffsetOf (hk : k ∈ ks) : h.fileOffsetOf k.page = k.start := by
  have hoff := m.offset_le hk
  rw [Heap.fileOffsetOf, (m.shows k hk).data, Option.bind_some, m.mmapFieldsOf hk,
    (m.shows k hk).vec]
  show k.offset + (k.start - k.offset) = k.start
  omega

theorem not_stepsBack_end : ¬h.StepsBack b b := by
  intro hback
  rw [Heap.StepsBack, m.pagesOf] at hback
  have hmem := List.mem_of_mem_head? hback.1
  obtain ⟨k, hk, hpage⟩ := List.mem_map.mp hmem
  exact m.page_ne hk hpage

theorem stepsBack_iff (hk : k ∈ ks) :
    h.StepsBack b k.page ↔ k.start = startOf ks head ∧ head < startOf ks head := by
  rw [Heap.StepsBack, m.pagesOf, m.fileOffsetOf hk, m.opened.fileHead]
  cases ks with
  | nil => cases hk
  | cons k' l =>
      rw [startOf_cons, List.map_cons, List.head?_cons, Option.some.injEq]
      constructor
      · intro hback
        -- one page, one place in the file
        have hsame : k'.start = k.start := by
          rw [← m.fileOffsetOf List.mem_cons_self, ← m.fileOffsetOf hk, hback.1]
        omega
      · intro hback
        refine ⟨?_, by omega⟩
        rcases List.mem_cons.mp hk with rfl | hl
        · rfl
        · -- any other page begins behind the first one
          have hfit := (m.stretch.fits k' List.mem_cons_self).start
          have hle := m.stretch.tail.start_le hl k'.stop
          rw [m.stretch.start_next] at hle
          omega

end Maps

theorem BeginsAt.isPlaceOf {size : Nat} (m : Maps h R b a fd head ks)
    (hp : BeginsAt ks b size it x) : h.IsPlaceOf b it := by
  rw [m.isPlaceOf]
  rcases beginsAt_iff.mp hp with ⟨k, hk, rfl, -⟩ | ⟨rfl, -⟩
  · exact .inr ⟨k, hk, rfl⟩
  · exact .inl rfl

theorem EndsAt.isPlaceOf (m : Maps h R b a fd head ks) (hp : EndsAt ks b head it x) :
    h.IsPlaceOf b it := by
  rw [m.isPlaceOf]
  rcases endsAt_iff.mp hp with ⟨k, hk, rfl, -⟩ | ⟨rfl, -⟩
  · exact .inr ⟨k, hk, rfl⟩
  · exact .inl rfl

/-! ## Page iterators -/

/-- Where a step of an iterator leaves the buffer: nothing has changed but what is mapped and, by
`r`, the revision. -/
structure Walks (h h' : Heap) (b a : Nat) (fd : Fd) (head r : Nat) (ks' : List Block) : Prop where
  turned : Turned h h' b r
  window : Window h' b a fd head ks'

theorem Walks.files (w : Walks h h' b a fd head r ks') : h'.files = h.files := w.turned.files

namespace Window

variable (w : Window h b a fd head ks)

include w

theorem place_live (hit : h.IsPlaceOf b it) : (h.pages it).isSome := by
  obtain ⟨R, m⟩ := w.maps
  refine m.inv.core.links.node_live m.opened.isSome ?_
  rcases m.isPlaceOf.mp hit with rfl | ⟨k, hk, rfl⟩
  · exact List.mem_cons_self
  · exact List.mem_cons_of_mem b (m.page_mem hk)

/-- **A step forward** moves neither the window's first page nor the revision. -/
theorem nextPlace (hs : env.Succeeds) (hit : h.IsPlaceOf b it) :
    Yields (bufferNextIterator env b it) h (fun it' h' => ∃ ks', Walks h h' b a fd head 0 ks' ∧
      startOf ks' head = startOf ks head ∧ h'.IsPlaceOf b it') := by
  obtain ⟨R, m⟩ := w.maps
  rcases m.isPlaceOf.mp hit with rfl | ⟨k, hk, rfl⟩
  · refine (w.nextIterator_end hs).mono fun it' h' hpost => ?_
    obtain ⟨ht, ks', w', hst, -, hp⟩ := hpost
    obtain ⟨R', m'⟩ := w'.maps
    exact ⟨ks', ⟨ht, w'⟩, hst, hp.isPlaceOf m'⟩
  · refine (w.nextIterator hs hk).mono fun it' h' hpost => ?_
    obtain ⟨ht, ks', w', hst, -, hp⟩ := hpost
    obtain ⟨R', m'⟩ := w'.maps
    exact ⟨ks', ⟨ht, w'⟩, hst, hp.isPlaceOf m'⟩

theorem getPlace (hs : env.Succeeds) :
    Yields (bufferGetIterator env b) h (fun it' h' => ∃ ks', Walks h h' b a fd head 0 ks' ∧
      startOf ks' head = startOf ks head ∧ h'.IsPlaceOf b it') := by
  refine (w.getIterator hs).mono fun it' h' hpost => ?_
  obtain ⟨ht, ks', w', hst, -, hp⟩ := hpost
  obtain ⟨R', m'⟩ := w'.maps
  exact ⟨ks', ⟨ht, w'⟩, hst, hp.isPlaceOf m'⟩

/-- **A step back** bumps the revision where it leaves the first page for bytes before it. -/
theorem prevPlace (hs : env.Succeeds) (hit : h.IsPlaceOf b it) :
    Yields (bufferPrevIterator env b it) h (fun it' h' => ∃ ks',
      Walks h h' b a fd head (if h.StepsBack b it then 1 else 0) ks' ∧ h'.IsPlaceOf b it') := by
  obtain ⟨R, m⟩ := w.maps
  rcases m.isPlaceOf.mp hit with rfl | ⟨k, hk, rfl⟩
  · refine (w.prevIterator_end hs).mono fun it' h' hpost => ?_
    obtain ⟨ht, ks', w', hp⟩ := hpost
    obtain ⟨R', m'⟩ := w'.maps
    refine ⟨ks', ⟨?_, w'⟩, hp.isPlaceOf m'⟩
    rwa [if_neg m.not_stepsBack_end]
  · refine (w.prevIterator hs hk).mono fun it' h' hpost => ?_
    obtain ⟨ht, ks', w', hp⟩ := hpost
    obtain ⟨R', m'⟩ := w'.maps
    refine ⟨ks', ⟨?_, w'⟩, hp.isPlaceOf m'⟩
    simpa only [m.stepsBack_iff hk] using ht

/-! ## Byte iterators -/

/-- The byte iterator at an offset of a place. -/
theorem byteAtPlace (hit : h.IsPlaceOf b it) (offset : Nat) : ∃ bi : ByteIterator,
    byteIteratorAt it offset h = .ok (bi, h) ∧ bi.bufferIterator = it :=
  ⟨_, (bind_run (pageGetBase_run (w.place_live hit))).trans rfl, rfl⟩

/-- What the byte iterators do with a page iterator: its first byte, or the end. -/
theorem headByte (hit : h.IsPlaceOf b it) : ∃ bi : ByteIterator,
    (if bufferIsEndIterator b it then pure ⟨it, 0, none⟩
      else byteIteratorAt it 0 : PbM ByteIterator) h = .ok (bi, h) ∧ bi.bufferIterator = it := by
  by_cases hend : bufferIsEndIterator b it
  · rw [if_pos hend]
    exact ⟨_, rfl, rfl⟩
  · rw [if_neg hend]
    exact w.byteAtPlace hit 0

theorem getByte (hs : env.Succeeds) :
    Yields (bufferGetByteIterator env b) h (fun bi h' => ∃ ks', Walks h h' b a fd head 0 ks' ∧
      startOf ks' head = startOf ks head ∧ h'.IsPlaceOf b bi.bufferIterator) := by
  unfold bufferGetByteIterator
  refine Yields.bind (w.getPlace hs) fun it h' hpost => ?_
  obtain ⟨ks', hw, hst, hp⟩ := hpost
  obtain ⟨bi, hrun, hbi⟩ := hw.window.headByte hp
  exact Yields.intro hrun ⟨ks', hw, hst, by rwa [hbi]⟩

theorem nextByte (hs : env.Succeeds) (hit : h.IsPlaceOf b bi.bufferIterator) :
    Yields (bufferNextByteIterator env b bi) h (fun bi' h' => ∃ ks',
      Walks h h' b a fd head 0 ks' ∧ startOf ks' head = startOf ks head ∧
      h'.IsPlaceOf b bi'.bufferIterator) := by
  unfold bufferNextByteIterator
  refine Yields.step (pageGetLen_run (w.place_live hit)) ?_
  by_cases hlast : bi.pageOffset + 1 ≥ h.lenOf bi.bufferIterator
  · rw [if_pos hlast]
    refine Yields.bind (w.nextPlace hs hit) fun it h' hpost => ?_
    obtain ⟨ks', hw, hst, hp⟩ := hpost
    obtain ⟨bi', hrun, hbi⟩ := hw.window.headByte hp
    exact Yields.intro hrun ⟨ks', hw, hst, by rwa [hbi]⟩
  · rw [if_neg hlast]
    obtain ⟨bi', hrun, hbi⟩ := w.byteAtPlace hit (bi.pageOffset + 1)
    exact Yields.intro hrun ⟨ks, ⟨.refl h b, w⟩, rfl, by rwa [hbi]⟩

theorem prevByte (hs : env.Succeeds) (hit : h.IsPlaceOf b bi.bufferIterator) :
    Yields (bufferPrevByteIterator env b bi) h (fun bi' h' => ∃ ks', Walks h h' b a fd head
      (if bi.pageOffset = 0 ∧ h.StepsBack b bi.bufferIterator then 1 else 0) ks' ∧
      h'.IsPlaceOf b bi'.bufferIterator) := by
  unfold bufferPrevByteIterator
  by_cases hfirst : bi.pageOffset = 0
  · rw [if_pos hfirst]
    refine Yields.bind (w.prevPlace hs hit) fun it h' hpost => ?_
    obtain ⟨ks', hw, hp⟩ := hpost
    refine Yields.step (pageGetLen_run (hw.window.place_live hp)) ?_
    simp only [hfirst, true_and]
    by_cases hend : bufferIsEndIterator b it
    · rw [if_pos hend]
      exact yields_pure.mpr ⟨ks', hw, hp⟩
    · rw [if_neg hend]
      obtain ⟨bi', hrun, hbi⟩ := hw.window.byteAtPlace hp (wrapSub (h'.lenOf it) 1)
      exact Yields.intro hrun ⟨ks', hw, by rwa [hbi]⟩
  · rw [if_neg hfirst]
    obtain ⟨bi', hrun, hbi⟩ := w.byteAtPlace hit (bi.pageOffset - 1)
    refine Yields.intro hrun ⟨ks, ⟨?_, w⟩, by rwa [hbi]⟩
    rw [if_neg fun hback => hfirst hback.1]
    exact .refl h b

end Window

/-! ## All of them -/

/-- The calls that read. -/
def MmapOp.Reads : MmapOp → Prop
  | .getDataSize | .readData _ | .getIterator | .nextIterator _ | .prevIterator _
  | .getByteIterator | .nextByteIterator _ | .prevByteIterator _ => True
  | _ => False

/-- The call steps back from the first page of the buffer to bytes before it. -/
def MmapOp.StepsBack (h : Heap) (b : Nat) : MmapOp → Prop
  | .prevIterator it => h.StepsBack b it
  | .prevByteIterator bi => bi.pageOffset = 0 ∧ h.StepsBack b bi.bufferIterator
  | _ => False

instance MmapOp.decidableStepsBack (h : Heap) (b : Nat) :
    (op : MmapOp) → Decidable (op.StepsBack h b)
  | .prevIterator it => inferInstanceAs (Decidable (h.StepsBack b it))
  | .prevByteIterator bi =>
      inferInstanceAs (Decidable (bi.pageOffset = 0 ∧ h.StepsBack b bi.bufferIterator))
  | .writeData _ | .writeDataRef _ | .extend _ | .reserve _ | .rewind _ | .seek _ | .trim _
  | .overwriteData _ | .readData _ | .clear | .getDataSize | .getIterator | .nextIterator _
  | .getByteIterator | .nextByteIterator _ | .destroy => inferInstanceAs (Decidable False)

theorem Walks.stands (hw : Walks h h' b a fd head r ks') :
    Stands h h' b a fd (h.files fd.file) head r ks' :=
  ⟨hw.window, by rw [hw.files], hw.turned.revision⟩

/-- **Reading** keeps file and head, and the revision unless the call steps back from the first
page. -/
theorem Window.reads (w : Window h b a fd head ks) (hs : env.Succeeds) (hop : op.Reads)
    (hv : op.Valid h b) : Yields (execMmap env b op) h (fun _ h' =>
      ∃ ks', Stands h h' b a fd (h.files fd.file) head (if op.StepsBack h b then 1 else 0) ks') := by
  have hno : ∀ {h' : Heap} {ks' : List Block}, Stands h h' b a fd (h.files fd.file) head 0 ks' →
      Stands h h' b a fd (h.files fd.file) head (if False then 1 else 0) ks' := by
    intro h' ks' hst
    rwa [if_neg not_false]
  cases op with
  | readData len =>
      refine Yields.bind (w.readData hs len) fun bs h' hpost => yields_pure.mpr ?_
      obtain ⟨-, ks', hst, -⟩ := hpost
      exact ⟨ks', hno hst⟩
  | getDataSize =>
      exact Yields.step (w.getDataSize hs) (yields_pure.mpr ⟨ks, hno ⟨w.granted, rfl, rfl⟩⟩)
  | getIterator =>
      refine Yields.bind (w.getPlace hs) fun it h' hpost => yields_pure.mpr ?_
      obtain ⟨ks', hw, -⟩ := hpost
      exact ⟨ks', hno hw.stands⟩
  | nextIterator it =>
      refine Yields.bind (w.nextPlace hs hv.2) fun it h' hpost => yields_pure.mpr ?_
      obtain ⟨ks', hw, -⟩ := hpost
      exact ⟨ks', hno hw.stands⟩
  | prevIterator it =>
      refine Yields.bind (w.prevPlace hs hv.2) fun it h' hpost => yields_pure.mpr ?_
      obtain ⟨ks', hw, -⟩ := hpost
      exact ⟨ks', hw.stands⟩
  | getByteIterator =>
      refine Yields.bind (w.getByte hs) fun bi h' hpost => yields_pure.mpr ?_
      obtain ⟨ks', hw, -⟩ := hpost
      exact ⟨ks', hno hw.stands⟩
  | nextByteIterator bi =>
      refine Yields.bind (w.nextByte hs hv.2) fun bi h' hpost => yields_pure.mpr ?_
      obtain ⟨ks', hw, -⟩ := hpost
      exact ⟨ks', hno hw.stands⟩
  | prevByteIterator bi =>
      refine Yields.bind (w.prevByte hs hv.2) fun bi h' hpost => yields_pure.mpr ?_
      obtain ⟨ks', hw, -⟩ := hpost
      exact ⟨ks', hw.stands⟩
  | _ => exact hop.elim

end Pb
