import PageBuf.Client.Trimming

/-!
# MappingIndex — the data tree of an mmap buffer

The tree holds the mappings that are current, one for a block, and no data
outlives its page. Only a trim into a mapped block breaks this: what it puts in
the tree is the data it has made obsolete.
-/

namespace Pb

open StateRun Function Ring

variable {env : Env} {h h' : Heap} {openAction : MmapOpenAction} {a b d head len n off : Nat}
  {fd : Fd} {ks : List Block} {op : MmapOp} {o : Bool}

namespace Heap

/-- The data is a `pb_mmap_data` of the allocator of the buffer. -/
def IsMapping (h : Heap) (b d off : Nat) (obsolete : Bool) : Prop :=
  ∃ a, (h.kindOf b).map Prod.snd = some (.mmap a) ∧ h.mmapFieldsOf d = some (a, off, obsolete)

/-- The index is sound and complete, and everything in the allocator's hands is used. -/
structure Indexed (h : Heap) (b : Nat) : Prop where
  entry : ∀ d ∈ h.dataTreeOf b, ∃ off, h.IsMapping b d off false ∧ mmapBaseSize ∣ off
  nodup : (h.dataTreeOf b).Nodup
  once : ∀ d ∈ h.dataTreeOf b, ∀ d' ∈ h.dataTreeOf b, ∀ off, h.IsMapping b d off false →
    h.IsMapping b d' off false → d = d'
  complete : ∀ d off, h.IsMapping b d off false → d ∈ h.dataTreeOf b
  used : ∀ d off obsolete, h.IsMapping b d off obsolete →
    ∃ p ∈ h.pagesOf b, h.dataOf p = some d

/-- The buffer stays, and a trim takes nothing or finds the end of the file not mapped. -/
def TrimsAside (b : Nat) (h : Heap) (op : MmapOp) : Prop :=
  op ≠ .destroy ∧ ∀ len, op = .trim len → h.trimLen b len = 0 ∨ ∀ d, ¬h.IsEntryOfEnd b d

end Heap

theorem Opened.isMapping_iff (ho : Opened h b a fd head) :
    h.IsMapping b d off o ↔ h.mmapFieldsOf d = some (a, off, o) := by
  constructor
  · rintro ⟨a', hkind, hfields⟩
    rw [ho.kind] at hkind
    cases hkind
    exact hfields
  · intro hfields
    exact ⟨a, by rw [ho.kind]; rfl, hfields⟩

namespace Maps

variable {R : Nat → List Nat} (m : Maps h R b a fd head ks)

include m

/-- The data that are mappings are those of the blocks. -/
theorem isMapping_iff : h.IsMapping b d off o ↔
    ∃ c ∈ ks, c.data = d ∧ c.offset = off ∧ c.obsolete = o := by
  rw [m.opened.isMapping_iff]
  constructor
  · intro hfields
    have hlive : (h.datas d).isSome := by
      by_contra hno
      rw [Option.not_isSome_iff_eq_none] at hno
      simp [Heap.mmapFieldsOf, hno] at hfields
    rcases m.teardown.datas d hlive with hd | hd
    · obtain ⟨c, hc, rfl⟩ := List.mem_map.mp hd
      rw [m.mmapFieldsOf hc] at hfields
      cases hfields
      exact ⟨c, hc, rfl, rfl, rfl⟩
    · cases hd
  · rintro ⟨c, hc, rfl, rfl, rfl⟩
    exact m.mmapFieldsOf hc

/-- **The index of a window.** -/
theorem indexed : h.Indexed b where
  entry := by
    intro d hd
    obtain ⟨c, hc, rfl, hcur⟩ := m.mem_dataTreeOf.mp hd
    refine ⟨c.offset, m.isMapping_iff.mpr ⟨c, hc, rfl, rfl, hcur⟩, ?_⟩
    rw [(m.stretch.fits c hc).offset]
    exact Nat.dvd_mul_left _ _
  nodup := by
    obtain ⟨A, hA, -, -, -, hnodup, -⟩ := m.teardown.allocator
    rwa [m.opened.dataTreeOf hA]
  once := by
    intro d _ d' _ off hd hd'
    obtain ⟨c, hc, rfl, hoff, hcur⟩ := m.isMapping_iff.mp hd
    obtain ⟨c', hc', rfl, hoff', hcur'⟩ := m.isMapping_iff.mp hd'
    rw [m.stretch.offset_unique hc hc' hcur hcur' (hoff.trans hoff'.symm)]
  complete := by
    intro d off hd
    obtain ⟨c, hc, rfl, -, hcur⟩ := m.isMapping_iff.mp hd
    exact m.mem_dataTreeOf.mpr ⟨c, hc, rfl, hcur⟩
  used := by
    intro d off o hd
    obtain ⟨c, hc, rfl, -⟩ := m.isMapping_iff.mp hd
    refine ⟨c.page, ?_, (m.shows c hc).data⟩
    rw [m.pagesOf]
    exact List.mem_map_of_mem hc

end Maps

/-- The stale entry is no mapping. -/
theorem Broken.not_indexed (br : Broken h b a fd head) : ¬h.Indexed b := by
  intro i
  obtain ⟨A, hA, -⟩ := br.opened.allocator
  obtain ⟨⟨d, hd⟩, hgone⟩ := br.stale hA
  obtain ⟨off, hmap, -⟩ := i.entry d (by rwa [br.opened.dataTreeOf hA])
  rw [br.opened.isMapping_iff] at hmap
  simp [Heap.mmapFieldsOf, hgone d hd] at hmap

/-- A trim that takes nothing, or does not find the end of the file mapped, leaves a window. -/
theorem Window.trimAside (w : Window h b a fd head ks) (hs : env.Succeeds)
    (haside : h.trimLen b len = 0 ∨ ∀ d, ¬h.IsEntryOfEnd b d) :
    Returns (bufferTrim env b len) h (fun _ h' => Window h' b a fd head []) := by
  obtain ⟨R, m⟩ := w.maps
  have htrim := m.opened.trimLen len
  by_cases hzero : h.trimLen b len = 0
  · refine (w.trim_nothing hs (htrim ▸ hzero)).returns.mono fun _ h' hpost => ?_
    exact hpost.2.window
  · have hfree : ∀ c ∈ ks, c.obsolete = false → c.offset ≠ mmapOffsetOf (h.files fd.file).length := by
      intro c hc hcur hoff
      exact (haside.resolve_left hzero) c.data (m.isEntryOfEnd_iff.mpr ⟨c, hc, rfl, hcur, hoff⟩)
    have hle : mmapOffsetOf (h.files fd.file).length ≤ (h.files fd.file).length :=
      Nat.div_mul_le_self _ _
    rcases Nat.lt_or_eq_of_le hle with hpart | hfull
    · refine (w.trim_unmapped hs htrim hzero hfree hpart).returns.mono fun _ h' hpost => ?_
      exact hpost.2.window
    · exact Returns.of_fault (w.trim_full hs htrim hzero hfull)

/-- A trim into the mapped end of the file leaves a stale entry, if it returns. -/
theorem Window.trimInto (w : Window h b a fd head ks) (hs : env.Succeeds)
    (hpos : h.trimLen b len ≠ 0) (hd : h.IsEntryOfEnd b d) :
    Returns (bufferTrim env b len) h (fun _ h' => Broken h' b a fd head) := by
  obtain ⟨R, m⟩ := w.maps
  have htrim := m.opened.trimLen len
  obtain ⟨c, hc, rfl, hcur, hoff⟩ := m.isEntryOfEnd_iff.mp hd
  by_cases hlt : h.trimLen b len < c.len
  · refine (w.trim_cut hs hc hcur hoff htrim hpos hlt).returns.mono fun _ h' hpost => ?_
    exact hpost.2.1
  · exact (w.trim_lost hs hc hcur hoff htrim (Nat.le_of_not_lt hlt)).mono fun _ _ hf => hf.elim

theorem MmapReachable.window_aside
    (hr : MmapReachable env openAction (Heap.TrimsAside b) b h) (hs : env.Succeeds) :
    ∃ a file head ks, Window h b a ⟨file, openAction ≠ .read⟩ head ks := by
  refine hr.invariant (I := fun h => ∃ a file head ks,
    Window h b a ⟨file, openAction ≠ .read⟩ head ks) hs ?_ ?_
  · exact fun g a file w => ⟨a, file, 0, [], w⟩
  · rintro g op ⟨a, file, head, ks, w⟩ hv ⟨hdestroy, haside⟩
    by_cases htrim : ∃ len, op = .trim len
    · obtain ⟨len, rfl⟩ := htrim
      exact Returns.bind (w.trimAside hs (haside len rfl)) fun _ g' w' =>
        Returns.pure ⟨a, file, head, [], w'⟩
    · have hstands := w.stands hs hv (fun len he => htrim ⟨len, he⟩) hdestroy
      refine hstands.mono fun _ g' hpost => ?_
      obtain ⟨ks', bs, head', n, hst, -⟩ := hpost
      exact ⟨a, file, head', ks', hst.window⟩

/-- A file of two bytes, mapped. -/
def Heap.twoBytes : Heap :=
  ((Heap.initial (fun _ _ => 0) (fun _ => 0) (fun _ => [1, 2])).withMmap 0 .append .retain).afterMmap
    .generous 3 .getIterator

theorem reachable_twoBytes {M : Heap → MmapOp → Prop} (hM : ∀ h, M h .getIterator) :
    MmapReachable .generous .append M 3 .twoBytes := by
  have hnew : MmapReachable .generous .append M 3
      ((Heap.initial (fun _ _ => 0) (fun _ => 0) (fun _ => [1, 2])).withMmap 0 .append .retain) :=
    ⟨_, _, _, 0, .retain, _, mmapBufferCreate_run succeeds_generous, .refl⟩
  exact hnew.after rfl (hM _) (by decide +kernel)

/-- The same with one byte taken off. -/
def Heap.cutByte : Heap := Heap.twoBytes.afterMmap .generous 3 (.trim 1)

end Pb
