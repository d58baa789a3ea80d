import PageBuf.Invariant.FileCalls

/-!
# MapBlock — a block of the file comes to a page

What `pb_mmap_allocator_page_map_forward` and `page_map_backward` have in
common, where every request is granted: the lookup that ends with a new mapping
or with a longer one in the place of the one that is there, and the page on it.
-/

namespace Pb

open StateRun Function Ring RefCount

variable {env : Env} {h h' : Heap} {R : Nat → List Nat} {F X : List Nat}
  {a d e : Nat} {A : MmapAllocator} {D : Data} {M : Mapping} {fd : Fd} {v : DataVec}
  {off start size : Nat}

/-! ## The page -/

/-- A new page on data that is there, whose count is as it was. -/
def Heap.newPage (h : Heap) (v : DataVec) (d : Nat) : Heap :=
  h.granted.setPage h.next (some { dataVec := v, data := some d })

theorem u16Dec_u16Inc {n : Nat} (hn : n ≤ 65535) : u16Dec (u16Inc n) = n := by
  unfold u16Inc u16Dec
  split <;> split <;> omega

/-- A put that leaves a reference. -/
theorem dataPut_kept (hD : h.datas d = some D) (hne : u16Dec D.useCount ≠ 0) :
    dataPut d h = .ok ((), h.setData d (some { D with useCount := u16Dec D.useCount })) := by
  unfold dataPut
  refine (bind_run (getData_run hD)).trans ((bind_run (modify_run _)).trans ?_)
  rw [if_pos hne]
  rfl

section NewPage

variable (hD : h.datas d = some D) (hle : D.useCount ≤ 65535)

include hD hle

/-- The put takes back what the page has got. -/
theorem dataPut_addPage (hpos : D.useCount ≠ 0) :
    dataPut d (h.addPage v d D) = .ok ((), h.newPage v d) := by
  have hdata : (h.addPage v d D).datas d = some { D with useCount := u16Inc D.useCount } :=
    update_self _ _ _
  have hback : (h.addPage v d D).setData d (some D) = h.newPage v d := by
    simp only [Heap.addPage, Heap.newPage, Heap.setData, update_idem]
    rw [← hD]
    exact congrArg (fun f => { h.granted.setPage h.next _ with datas := f }) (update_eq_self d h.datas)
  rw [dataPut_kept hdata (by rwa [u16Dec_u16Inc hle]), u16Dec_u16Inc hle, hback]

theorem mmapAllocatorMapPage_run (hg : env.grants h.calls = true) (hpos : D.useCount ≠ 0)
    (distance len : Nat) : mmapAllocatorMapPage env d distance len h
      = .ok (some h.next, h.newPage ⟨D.dataVec.base.add distance, len⟩ d) := by
  have hcreate : pageCreate env d h = .ok (some h.next, h.addPage D.dataVec d D) :=
    (bind_run (callocPage_run hg)).trans
      ((bind_run (pageSetData_new (h := h.granted) hD)).trans rfl)
  have hdata : (h.addPage D.dataVec d D).datas d
      = some { D with useCount := u16Inc D.useCount } := update_self _ _ _
  have hpage : (h.addPage D.dataVec d D).pages h.next
      = some { dataVec := D.dataVec, data := some d } := update_self _ _ _
  have hset : (h.addPage D.dataVec d D).setPage h.next
      (some { dataVec := ⟨D.dataVec.base.add distance, len⟩, data := some d })
        = h.addPage ⟨D.dataVec.base.add distance, len⟩ d D := by
    simp [Heap.addPage, Heap.setPage, Heap.setData]
  unfold mmapAllocatorMapPage
  refine (bind_run hcreate).trans ((bind_run (getData_run hdata)).trans ?_)
  refine (bind_run (modifyPage_run hpage _)).trans ?_
  rw [hset]
  exact (bind_run (dataPut_addPage hD hle hpos)).trans rfl

/-- The reference that was in hand is the one of the page. -/
theorem Core.newPage (hc : Core h R F (d :: X)) (hv : v.base.region = D.dataVec.base.region)
    (hcount : h.count (d :: X) d ≤ 65535) : Core (h.newPage v d) R (h.next :: F) X := by
  have hpos : 0 < h.count (d :: X) d := by
    rw [Heap.count, List.count_cons_self]
    omega
  have huse : D.useCount ≠ 0 := by
    rw [hc.objs.count hD]
    omega
  have hc' := hc.addPage hD hv
  have hmore : (h.addPage v d D).count (d :: X) d = h.count (d :: X) d + 1 := by
    rw [Heap.count, Heap.count, Heap.refs_addPage, if_pos rfl]
    omega
  obtain ⟨-, hput⟩ := (dataPut_hand hc').of_run (dataPut_addPage hD hle huse)
  exact hput (by omega) (by omega)

end NewPage

/-! ## The data -/

/-- The heap with a mapping of the block `off` up to the end of the file, in the
data tree and, where there was a shorter one, in its place. -/
structure Mapped (h h' : Heap) (a off size : Nat) (A : MmapAllocator) (fd : Fd)
    (old : Option Nat) : Prop where
  mapping : NewMapping h h' a (h.next + 1) h.next A ⟨fd.file, off, mmapLenOf size off⟩ old
  next : h'.next = h.next + 2

/-- How the lookup of a block ends. -/
inductive BlockLookup (env : Env) (h : Heap) (a off start size : Nat) (A : MmapAllocator) (fd : Fd) :
    Except Fault (Option (Nat × Nat) × Heap) → Prop where
  | created (h' : Heap)
      (absent : ∀ d ∈ A.dataTree, ∀ s, h.shapeOf d = some s → s.operations ≠ .mmap a off false)
      (mapped : Mapped h h' a off size A fd none) :
      BlockLookup env h a off start size A fd (.ok (some (h.next + 1, mmapLenOf size off), h'))
  | held (d : Nat) (D : Data) (found : d ∈ A.dataTree) (data : h.datas d = some D)
      (operations : D.operations = .mmap a off false)
      (long : start + mmapBaseSize ≤ off + D.dataVec.len) :
      BlockLookup env h a off start size A fd (.ok (some (d, D.dataVec.len),
        h.setData d (some { D with useCount := u16Inc D.useCount })))
  | extended (h' : Heap) (d : Nat) (D : Data) (found : d ∈ A.dataTree) (data : h.datas d = some D)
      (operations : D.operations = .mmap a off false) (short : D.dataVec.len < mmapBaseSize)
      (grown : off + D.dataVec.len < size) (mapped : Mapped h h' a off size A fd (some d)) :
      BlockLookup env h a off start size A fd (.ok (some (h.next + 1, mmapLenOf size off), h'))
  | kept (d : Nat) (D : Data) (found : d ∈ A.dataTree) (data : h.datas d = some D)
      (operations : D.operations = .mmap a off false)
      (short : off + D.dataVec.len < start + mmapBaseSize)
      (same : ¬(D.dataVec.len < mmapBaseSize ∧ off + D.dataVec.len < size)) :
      BlockLookup env h a off start size A fd (.ok (some (d, D.dataVec.len), h))

/-- A new mapping, in the tree. -/
def Heap.mapNew (h : Heap) (a : Nat) (A : MmapAllocator) (M : Mapping) : Heap :=
  (h.withMapping a A M).setMmapAllocator a (some { A with
    useCount := u16Inc A.useCount, dataTree := (h.next + 1) :: A.dataTree })

/-- A new mapping, in the tree in the place of the one of `d`, which is obsolete. -/
def Heap.mapLonger (h : Heap) (a : Nat) (A : MmapAllocator) (M : Mapping) (d : Nat) (D : Data) :
    Heap :=
  ((h.withMapping a A M).setData d (some D.outdated)).setMmapAllocator a (some { A with
    useCount := u16Inc A.useCount, dataTree := (h.next + 1) :: A.dataTree.erase d })

theorem Mapped.new (hA : h.mmapAllocators a = some A) :
    Mapped h (h.mapNew a A ⟨fd.file, off, mmapLenOf size off⟩) a off size A fd none where
  mapping :=
    { allocator := hA
      replaces := fun he => by cases he
      nextMapping := Nat.le_refl _
      nextMapping' := Nat.lt_add_of_pos_right (Nat.succ_pos 1)
      nextData := Nat.le_succ _
      nextData' := Nat.lt_succ_self _
      pages := rfl, buffers := rfl, blocks := rfl, mem := rfl, callerLen := rfl, files := rfl
      mappings := rfl
      mmapAllocators := update_idem _ _ _
      new := update_self _ _ _
      other := fun he => by
        rw [if_neg (by simp)]
        exact update_of_ne he _ _ }
  next := rfl

theorem Mapped.longer (hA : h.mmapAllocators a = some A) (hd : d ∈ A.dataTree)
    (hD : h.datas d = some D) (hne : d ≠ h.next + 1) :
    Mapped h (h.mapLonger a A ⟨fd.file, off, mmapLenOf size off⟩ d D) a off size A fd (some d) where
  mapping :=
    { allocator := hA
      replaces := fun he => by
        cases he
        exact hd
      nextMapping := Nat.le_refl _
      nextMapping' := Nat.lt_add_of_pos_right (Nat.succ_pos 1)
      nextData := Nat.le_succ _
      nextData' := Nat.lt_succ_self _
      pages := rfl, buffers := rfl, blocks := rfl, mem := rfl, callerLen := rfl, files := rfl
      mappings := rfl
      mmapAllocators := update_idem _ _ _
      new := (update_of_ne hne.symm _ _).trans (update_self _ _ _)
      other := fun {e} he => by
        by_cases hed : d = e
        · subst hed
          rw [if_pos rfl, hD]
          exact update_self _ _ _
        · rw [if_neg (fun h => hed (Option.some.inj h))]
          exact (update_of_ne (Ne.symm hed) _ _).trans (update_of_ne he _ _) }
  next := rfl

theorem dataTreeDel_run (hA : h.mmapAllocators a = some A) (hd : d ∈ A.dataTree) :
    dataTreeDel a d h = .ok ((), h.setMmapAllocator a (some { A with
      dataTree := A.dataTree.erase d })) := by
  unfold dataTreeDel
  refine (bind_run (getMmapAllocator_run hA)).trans ?_
  rw [if_pos hd]
  rfl

theorem markObsolete_run {obsolete : Bool} (hD : h.datas d = some D)
    (hop : D.operations = .mmap a off obsolete) :
    markObsolete d h = .ok ((), h.setData d (some D.outdated)) := by
  unfold markObsolete
  refine (bind_run (getData_run hD)).trans ?_
  rw [Data.outdated, hop]
  rfl

/-- The new mapping takes the place of the old one. -/
theorem replaceMapping_run {len : Nat}
    (hcreate : mmapAllocatorDataCreate env a off len h
      = .ok (some (h.next + 1), h.withMapping a A ⟨fd.file, off, len⟩))
    (hd : d ∈ A.dataTree) (hD : (h.withMapping a A ⟨fd.file, off, len⟩).datas d = some D)
    (hop : D.operations = .mmap a off false) :
    (do
      match ← mmapAllocatorDataCreate env a off len with
      | none => pure none
      | some newData => do
          dataTreeDel a d
          markObsolete d
          dataTreeAdd a newData
          pure (some (newData, len)) : PbM (Option (Nat × Nat))) h
      = .ok (some (h.next + 1, len), h.mapLonger a A ⟨fd.file, off, len⟩ d D) := by
  have hA₁ : (h.withMapping a A ⟨fd.file, off, len⟩).mmapAllocators a
      = some { A with useCount := u16Inc A.useCount } := update_self _ _ _
  have hD₁ : ((h.withMapping a A ⟨fd.file, off, len⟩).setMmapAllocator a (some { A with
      useCount := u16Inc A.useCount, dataTree := A.dataTree.erase d })).datas d = some D := hD
  refine (bind_run hcreate).trans ((bind_run (dataTreeDel_run hA₁ hd)).trans ?_)
  refine (bind_run (markObsolete_run hD₁ hop)).trans ?_
  refine (bind_run (modifyMmapAllocator_run (update_self _ _ _) _)).trans ?_
  simp only [Heap.mapLonger, Heap.setMmapAllocator, Heap.setData, update_idem]
  rfl

section MapBlock

variable (hs : env.Succeeds) (hc : Core h R F X) (hA : h.mmapAllocators a = some A)
  (hfd : A.fileFd = some fd) (hw : fd.writable = true)

include hs hc hA hfd hw

theorem mmapAllocatorDataCreate_run (off : Nat) {len : Nat} (hlen : 0 < len) :
    mmapAllocatorDataCreate env a off len h
      = .ok (some (h.next + 1), h.withMapping a A ⟨fd.file, off, len⟩) := by
  rcases mmapAllocatorDataCreate_cases hs.system hc.allocs hA hfd off len with
    ⟨h₁, -, hfails, -⟩ | hrun
  · exfalso
    rcases hfails with hz | hr | hr
    · omega
    · rw [hw] at hr
      cases hr
    · exact hs.not_refused hr
  · exact hrun

theorem mmapAllocatorMapBlock_run (start : Nat) (hlen : 0 < mmapLenOf size off) :
    BlockLookup env h a off start size A fd (mmapAllocatorMapBlock env a off start size h) := by
  obtain ⟨r, hfind, hr⟩ := dataTreeFind_run (h := h) off A.dataTree (hc.allocs.tree hA).2
  have hcreate := mmapAllocatorDataCreate_run hs hc hA hfd hw off hlen
  have hA₁ : (h.withMapping a A ⟨fd.file, off, mmapLenOf size off⟩).mmapAllocators a
      = some { A with useCount := u16Inc A.useCount } := update_self _ _ _
  cases r with
  | none =>
      have hrun : mmapAllocatorMapBlock env a off start size h
          = .ok (some (h.next + 1, mmapLenOf size off),
            h.mapNew a A ⟨fd.file, off, mmapLenOf size off⟩) := by
        unfold mmapAllocatorMapBlock
        refine (bind_run (getMmapAllocator_run hA)).trans ((bind_run hfind).trans ?_)
        refine (bind_run hcreate).trans ((bind_run (modifyMmapAllocator_run hA₁ _)).trans rfl)
      rw [hrun]
      exact .created _ hr (Mapped.new hA)
  | some d =>
      obtain ⟨hd, s, hsd, hop⟩ := hr
      obtain ⟨D, hD⟩ := Heap.exists_data (h := h) (d := d) (by rw [hsd]; rfl)
      rw [Heap.shapeOf_eq hD] at hsd
      cases hsd
      have hfrom : mmapAllocatorMapBlock env a off start size h
          = (do
              if off + D.dataVec.len ≥ start + mmapBaseSize then do
                dataGet d
                pure (some (d, D.dataVec.len))
              else if D.dataVec.len < mmapBaseSize ∧ off + D.dataVec.len < size then do
                match ← mmapAllocatorDataCreate env a off (mmapLenOf size off) with
                | none => pure none
                | some newData => do
                    dataTreeDel a d
                    markObsolete d
                    dataTreeAdd a newData
                    pure (some (newData, mmapLenOf size off))
              else pure (some (d, D.dataVec.len)) : PbM (Option (Nat × Nat))) h := by
        unfold mmapAllocatorMapBlock
        refine (bind_run (getMmapAllocator_run hA)).trans ((bind_run hfind).trans ?_)
        exact (bind_run (getData_run hD)).trans rfl
      rw [hfrom]
      by_cases hlong : off + D.dataVec.len ≥ start + mmapBaseSize
      · rw [if_pos hlong]
        rw [show (do dataGet d; pure (some (d, D.dataVec.len)) : PbM (Option (Nat × Nat))) h = _ from
          (bind_run (modifyData_run hD _)).trans rfl]
        exact .held d D hd hD hop hlong
      · rw [if_neg hlong]
        by_cases hgrow : D.dataVec.len < mmapBaseSize ∧ off + D.dataVec.len < size
        · have hne : d ≠ h.next + 1 := by
            have hlt := hc.objs.freshData (d := d) (by rw [Heap.shapeOf_eq hD]; rfl)
            omega
          have hD₁ : (h.withMapping a A ⟨fd.file, off, mmapLenOf size off⟩).datas d = some D :=
            (update_of_ne hne _ _).trans hD
          rw [if_pos hgrow, replaceMapping_run hcreate hd hD₁ hop]
          exact .extended _ d D hd hD hop hgrow.1 hgrow.2 (Mapped.longer hA hd hD hne)
        · rw [if_neg hgrow]
          exact .kept d D hd hD hop (by omega) hgrow

end MapBlock

end Pb
