import PageBuf.Invariant.WindowReads

/-!
# WindowTrim — cutting the file

`pb_mmap_allocator_trim` looks for a mapping of the last block of the file. Where
there is none the file is cut, unless it ends with a block. A mapping that is
longer than what is to be cut off is replaced, by mistake with itself, and its
entry stays in the data tree when the page is gone. A shorter mapping is put
while its page still refers to it.
-/

namespace Pb

open StateRun Function Ring

variable {env : Env} {h h' g : Heap} {R : Nat → List Nat} {Z X T : List Nat}
  {a b d e head k len n size x fuel : Nat} {fd : Fd} {c : Block} {ks l : List Block}
  {A : MmapAllocator} {D : Data} {s : MmapTrimLoop}

/-! ## Looking for the last block -/

/-- The lookup finds the block at an offset that is not obsolete. -/
theorem Teardown.find (t : Teardown h b a fd head ks Z X [] n) (hA : h.mmapAllocators a = some A)
    (key : Nat) : ∃ r, dataTreeFind key A.dataTree h = .ok (r, h) ∧
      match r with
      | some d => ∃ c ∈ ks, c.data = d ∧ c.obsolete = false ∧ c.offset = key
      | none => ∀ c ∈ ks, c.obsolete = false → c.offset ≠ key := by
  obtain ⟨A', hA', -, -, -, -, htree⟩ := t.allocator
  rw [hA] at hA'
  cases hA'
  have hblock : ∀ d ∈ A.dataTree, ∃ c ∈ ks, c.data = d ∧ c.obsolete = false ∧
      ∀ s, h.shapeOf d = some s → s.operations = .mmap a c.offset false := by
    intro d hd
    rcases (htree d).mp hd with ⟨c, hc, rfl, hlive⟩ | hnil
    · obtain ⟨-, D, hD, -, -, hop⟩ := t.owns c hc
      refine ⟨c, hc, rfl, hlive, fun s hs => ?_⟩
      rw [Heap.shapeOf_eq hD] at hs
      cases hs
      rw [← hlive]
      exact hop
    · cases hnil
  obtain ⟨r, hrun, hr⟩ := dataTreeFind_run (a := a) (h := h) key A.dataTree fun d hd => by
    obtain ⟨c, hc, rfl, -, hshape⟩ := hblock d hd
    obtain ⟨-, D, hD, -⟩ := t.owns c hc
    exact ⟨_, c.offset, Heap.shapeOf_eq hD, hshape _ (Heap.shapeOf_eq hD)⟩
  refine ⟨r, hrun, ?_⟩
  cases r with
  | some d =>
      obtain ⟨hd, s, hs, hop⟩ := hr
      obtain ⟨c, hc, hdata, hlive, hshape⟩ := hblock d hd
      have hsame := (hshape s hs).symm.trans hop
      exact ⟨c, hc, hdata, hlive, (DataClass.mmap.inj hsame).2.1⟩
  | none =>
      intro c hc hlive hoff
      obtain ⟨-, D, hD, -, -, hop⟩ := t.owns c hc
      refine hr c.data ((htree _).mpr (.inl ⟨c, hc, rfl, hlive⟩)) _ (Heap.shapeOf_eq hD) ?_
      show D.operations = _
      rw [hop, hlive, hoff]

/-! ## Rounds that find nothing -/

section Unmapped

variable (hA : h.mmapAllocators a = some A)
  (hfind : dataTreeFind (mmapOffsetOf size) A.dataTree h = .ok (none, h))

include hA hfind

theorem mmapTrimRound_unmapped (hl : s.len ≠ 0) : mmapTrimRound env a size s h
    = .ok (.inl ⟨s.len - min (size - mmapOffsetOf size) s.len,
      s.trimmed + min (size - mmapOffsetOf size) s.len⟩, h) := by
  have hmin : (if size - mmapOffsetOf size < s.len then size - mmapOffsetOf size else s.len)
      = min (size - mmapOffsetOf size) s.len := by
    split <;> omega
  unfold mmapTrimRound
  rw [if_neg hl]
  refine (bind_run (getMmapAllocator_run hA)).trans ((bind_run hfind).trans ?_)
  simp only [hmin]
  rfl

/-- In a last block that is not full, the loop comes to an end. -/
theorem mmapTrimLoop_unmapped (hpart : mmapOffsetOf size < size) (hf : s.len < fuel) :
    loopM .diverges (mmapTrimRound env a size) fuel s h = .ok (s.trimmed + s.len, h) := by
  induction fuel generalizing s with
  | zero => omega
  | succ fuel ih =>
      unfold loopM
      by_cases hl : s.len = 0
      · have hdone : mmapTrimRound env a size s h = .ok (.inr s.trimmed, h) := by
          unfold mmapTrimRound
          rw [if_pos hl]
          rfl
        rw [hl]
        exact (bind_run hdone).trans rfl
      · refine (bind_run (mmapTrimRound_unmapped hA hfind hl)).trans ?_
        obtain ⟨x, hx⟩ : ∃ x, x = min (size - mmapOffsetOf size) s.len := ⟨_, rfl⟩
        rw [← hx]
        refine (ih (s := ⟨s.len - x, s.trimmed + x⟩) (by simp only; omega)).trans ?_
        show Except.ok (s.trimmed + x + (s.len - x), h) = _
        rw [show s.trimmed + x + (s.len - x) = s.trimmed + s.len by omega]

/-- Where the file ends with a block, nothing is ever trimmed. -/
theorem mmapTrimLoop_diverges (hfull : mmapOffsetOf size = size) (hl : s.len ≠ 0) :
    loopM .diverges (mmapTrimRound env a size) fuel s h = .error .diverges := by
  induction fuel with
  | zero => rfl
  | succ fuel ih =>
      have hround := (@mmapTrimRound_unmapped env) hA hfind hl
      rw [hfull, Nat.sub_self, Nat.zero_min] at hround
      unfold loopM
      exact (bind_run hround).trans ih

end Unmapped

/-! ## A mapping longer than what is cut off -/

/-- The heap where the data `d` is obsolete and in the tree again, and the mapping that was to take
its place is in nobody's hands. -/
def Heap.withCut (h : Heap) (a : Nat) (A : MmapAllocator) (M : Mapping) (d : Nat) (D : Data) :
    Heap :=
  ((h.withMapping a A M).setData d (some D.outdated)).setMmapAllocator a (some { A with
    useCount := u16Inc A.useCount, dataTree := d :: A.dataTree.erase d })

theorem mmapTrimRound_cut (hnext : d < h.next) (hA : h.mmapAllocators a = some A)
    (hcreate : mmapAllocatorDataCreate env a (mmapOffsetOf size) (D.dataVec.len - s.len) h
      = .ok (some (h.next + 1),
        h.withMapping a A ⟨fd.file, mmapOffsetOf size, D.dataVec.len - s.len⟩))
    (hfind : dataTreeFind (mmapOffsetOf size) A.dataTree h = .ok (some d, h))
    (hd : d ∈ A.dataTree) (hD : h.datas d = some D) (hone : D.useCount = 1)
    (hop : D.operations = .mmap a (mmapOffsetOf size) false) (hl : s.len ≠ 0)
    (hlt : s.len < D.dataVec.len) : mmapTrimRound env a size s h
      = .ok (.inl ⟨0, s.trimmed + s.len⟩,
        h.withCut a A ⟨fd.file, mmapOffsetOf size, D.dataVec.len - s.len⟩ d D) := by
  obtain ⟨M, hM⟩ : ∃ M : Mapping, M = ⟨fd.file, mmapOffsetOf size, D.dataVec.len - s.len⟩ := ⟨_, rfl⟩
  rw [← hM] at hcreate ⊢
  have hne : d ≠ h.next + 1 := by omega
  have hA₁ : (h.withMapping a A M).mmapAllocators a
      = some { A with useCount := u16Inc A.useCount } := update_self _ _ _
  have hD₁ : ((h.withMapping a A M).setMmapAllocator a (some { A with
      useCount := u16Inc A.useCount, dataTree := A.dataTree.erase d })).datas d = some D :=
    (update_of_ne hne _ _).trans hD
  have hadd : dataTreeAdd a d (((h.withMapping a A M).setMmapAllocator a (some { A with
      useCount := u16Inc A.useCount, dataTree := A.dataTree.erase d })).setData d
        (some D.outdated)) = .ok ((), h.withCut a A M d D) := by
    refine (modifyMmapAllocator_run (update_self _ _ _) _).trans ?_
    simp only [Heap.withCut, Heap.setMmapAllocator, Heap.setData, update_idem]
  have hold : (h.withCut a A M d D).datas d = some D.outdated := update_self _ _ _
  have hget : dataGet d (h.withCut a A M d D) = .ok ((),
      (h.withCut a A M d D).setData d (some { D.outdated with useCount := 2 })) := by
    refine (modifyData_run hold _).trans ?_
    rw [show u16Inc D.outdated.useCount = 2 by
      rw [show D.outdated.useCount = D.useCount from rfl, hone]
      rfl]
  have hback : ((h.withCut a A M d D).setData d (some { D.outdated with useCount := 2 })).setData d
      (some { D.outdated with useCount := 1 }) = h.withCut a A M d D := by
    have hsame : ({ D.outdated with useCount := 1 } : Data) = D.outdated := by
      rw [← hone]
      rfl
    rw [hsame]
    simp only [Heap.withCut, Heap.setMmapAllocator, Heap.setData, update_idem]
  have hput : dataPut d ((h.withCut a A M d D).setData d (some { D.outdated with useCount := 2 }))
      = .ok ((), h.withCut a A M d D) := by
    refine (dataPut_kept (update_self _ _ _) (show u16Dec 2 ≠ 0 by decide)).trans ?_
    exact congrArg (fun g => Except.ok ((), g)) hback
  have hmin : (if D.dataVec.len < s.len then D.dataVec.len else s.len) = s.len :=
    if_neg (by omega)
  unfold mmapTrimRound
  rw [if_neg hl]
  refine (bind_run (getMmapAllocator_run hA)).trans ((bind_run hfind).trans ?_)
  refine (bind_run (getData_run hD)).trans ?_
  simp only [hmin]
  rw [if_pos hlt]
  refine (bind_run hcreate).trans ((bind_run (dataTreeDel_run hA₁ hd)).trans ?_)
  refine (bind_run (markObsolete_run hD₁ hop)).trans ((bind_run hadd).trans ?_)
  refine (bind_run hget).trans ((bind_run hput).trans ?_)
  rw [Nat.sub_self]
  rfl

/-- **What is left to be taken down**: a window with an obsolete block, a stale entry for it, and a
mapping without a page. -/
theorem Maps.withCut (m : Maps h R b a fd head ks) (hA : h.mmapAllocators a = some A)
    (hc : c ∈ ks) (hlive : c.obsolete = false) (hD : h.datas c.data = some D) (M : Mapping) :
    Teardown (h.withCut a A M c.data D) b a fd head (ks.map (Block.replaced (some c.data))) []
      [h.next + 1] [c.data] (ks.length + 2) := by
  have t := m.teardown
  have hpages : (ks.map (Block.replaced (some c.data))).map Block.page = ks.map Block.page := by
    rw [List.map_map]
    exact List.map_congr_left fun c' _ => Block.page_replaced
  have hdatas : (ks.map (Block.replaced (some c.data))).map Block.data = ks.map Block.data := by
    rw [List.map_map]
    exact List.map_congr_left fun c' _ => Block.data_replaced
  have hfresh : ∀ c' ∈ ks, c'.data ≠ h.next + 1 := by
    intro c' hc' he
    have hlt := m.inv.core.objs.freshData (d := c'.data) (by rw [(m.shows c' hc').shape]; rfl)
    omega
  have hother : ∀ {e}, e ≠ c.data → e ≠ h.next + 1 →
      (h.withCut a A M c.data D).datas e = h.datas e := fun he hne =>
    (update_of_ne he _ _).trans (update_of_ne hne _ _)
  have hold : (h.withCut a A M c.data D).datas c.data = some D.outdated := update_self _ _ _
  have hinj : ∀ c' ∈ ks, c'.data = c.data → c' = c := fun c' hc' he =>
    List.inj_on_of_nodup_map m.once hc' hc he
  obtain ⟨-, D', hD', hone, hbase, hop⟩ := t.owns c hc
  rw [hD] at hD'
  cases hD'
  refine ⟨⟨?_, ?_, ?_, by simp, by rw [hdatas]; exact m.once⟩, t.sentinel, ?_, ?_, ?_⟩
  · rw [hpages]
    exact t.ring
  · intro p
    rw [hpages]
    exact t.pages p
  · intro c₁ hc₁
    obtain ⟨c', hc', rfl⟩ := List.mem_map.mp hc₁
    by_cases he : c'.data = c.data
    · -- the block that has become obsolete
      obtain rfl := hinj c' hc' he
      refine ⟨?_, D.outdated, by rw [Block.data_replaced]; exact hold, hone, ?_, ?_⟩
      · rw [Block.page_replaced, Block.data_replaced]
        exact (t.owns c' hc').data
      · rw [show (c'.replaced (some c'.data)).mapping = c'.mapping by
          unfold Block.replaced
          split <;> rfl]
        exact hbase
      · rw [Data.outdated, hop, Block.offset_replaced, Block.replaced, if_pos rfl]
        rfl
    · have hsame : c'.replaced (some c.data) = c' := if_neg fun hs => he (Option.some.inj hs).symm
      rw [hsame]
      refine ⟨(t.owns c' hc').data, ?_⟩
      rw [hother he (hfresh c' hc')]
      exact (t.owns c' hc').owned
  · intro e he
    rw [hdatas]
    by_cases hnew : e = h.next + 1
    · exact .inr (by simp [hnew])
    · left
      by_cases hec : e = c.data
      · rw [hec]
        exact List.mem_map_of_mem hc
      · rw [hother hec hnew] at he
        simpa using t.datas e he
  · intro c₁ hc₁ hlive₁
    obtain ⟨c', hc', rfl⟩ := List.mem_map.mp hc₁
    rw [Block.data_replaced, List.mem_singleton]
    intro he
    rw [Block.replaced, if_pos (by rw [he])] at hlive₁
    cases hlive₁
  · obtain ⟨A', hA', hfd, hhead, huse, hnd, htree⟩ := t.allocator
    rw [hA] at hA'
    cases hA'
    refine ⟨_, update_self _ _ _, hfd, hhead, ?_, ?_, ?_⟩
    · show u16Inc A.useCount = _
      rw [huse, u16Inc_mod]
    · exact List.nodup_cons.mpr ⟨hnd.not_mem_erase, hnd.erase _⟩
    · intro e
      show e ∈ c.data :: A.dataTree.erase c.data ↔ _
      rw [List.mem_cons, hnd.mem_erase_iff, htree, List.mem_singleton]
      constructor
      · rintro (rfl | ⟨hne, ⟨c', hc', rfl, hlive'⟩ | hnil⟩)
        · exact .inr rfl
        · refine .inl ⟨c', List.mem_map.mpr ⟨c', hc', ?_⟩, rfl, hlive'⟩
          exact if_neg fun hs => hne (Option.some.inj hs).symm
        · cases hnil
      · rintro (⟨c₁, hc₁, rfl, hlive₁⟩ | rfl)
        · obtain ⟨c', hc', rfl⟩ := List.mem_map.mp hc₁
          rw [Block.data_replaced]
          by_cases he : c'.data = c.data
          · exact .inl he
          · have hsame : c'.replaced (some c.data) = c' :=
              if_neg fun hs => he (Option.some.inj hs).symm
            rw [hsame] at hlive₁
            exact .inr ⟨he, .inl ⟨c', hc', rfl, hlive₁⟩⟩
        · exact .inl rfl

/-- **A buffer that a trim has left behind**: no pages, but in the data tree an entry whose data is
gone. Whatever looks a block up runs into it. -/
structure Broken (h : Heap) (b a : Nat) (fd : Fd) (head : Nat) : Prop where
  opened : Opened h b a fd head
  writable : fd.writable = true
  torn : ∃ X d, Teardown h b a fd head [] [] X [d] 2 ∧ d ∉ X

/-! ## `pb_buffer_trim` -/

/-- `ftruncate` to a size that is not greater. -/
theorem ftruncate_cut (hs : env.Succeeds) (hn : n ≤ (h.files fd.file).length) :
    ftruncate env fd n h = .ok (fd.writable,
      if fd.writable then h.granted.setFile fd.file ((h.files fd.file).take n) else h.granted) := by
  have hbytes : (h.granted.files fd.file).take n
      ++ List.replicate (n - (h.granted.files fd.file).length) 0 = (h.files fd.file).take n := by
    rw [show h.granted.files fd.file = h.files fd.file from rfl, Nat.sub_eq_zero_of_le hn]
    exact List.append_nil _
  unfold ftruncate
  refine (bind_run (osRequest_granted hs.system)).trans ?_
  by_cases hw : fd.writable = true
  · simp only [hw, if_true]
    refine (bind_run (modify_run _)).trans ?_
    rw [hbytes]
    rfl
  · simp only [hw, Bool.false_eq_true, if_false]
    rfl

/-- What follows the loop of `pb_mmap_allocator_trim`. -/
def cutFile (env : Env) (fd : Fd) (size trimmed : Nat) : PbM Nat := do
  if ← ftruncate env fd (wrapSub size trimmed) then pure trimmed else pure 0

theorem Opened.bufferTrim_eq (ho : Opened h b a fd head) (hs : env.Succeeds)
    (hk : k = min len ((h.files fd.file).length - head)) : bufferTrim env b len h
      = (if k = 0 then (do trivialPureBufferClear b; pure 0)
        else do
          let trimmed ← loopM .diverges (mmapTrimRound env a (h.files fd.file).length) (k + 1) ⟨k, 0⟩
          let n ← cutFile env fd (h.files fd.file).length trimmed
          trivialPureBufferClear b
          pure n : PbM Nat) h.granted := by
  obtain ⟨B, hB, hop⟩ := ho.getBuffer
  obtain ⟨A, hA, hfd, hhead⟩ := ho.allocator
  have hmin : (if len > (h.files fd.file).length - head then (h.files fd.file).length - head
      else len) = k := by
    split <;> omega
  have hbody : bufferTrim env b len h = mmapBufferTrim env b a len h := by
    refine (bind_run (getBuffer_run hB)).trans ?_
    rw [hop]
  have hsize : (mmapAllocatorTrim env a len >>= fun trimmed => do
      trivialPureBufferClear b
      pure trimmed : PbM Nat) h
        = ((if k = 0 then pure 0 else do
            let trimmed ← loopM .diverges (mmapTrimRound env a (h.files fd.file).length) (k + 1)
              ⟨k, 0⟩
            cutFile env fd (h.files fd.file).length trimmed) >>= fun trimmed => do
              trivialPureBufferClear b
              pure trimmed : PbM Nat) h.granted := by
    have hrun : mmapAllocatorTrim env a len h
        = (if k = 0 then pure 0 else do
            let trimmed ← loopM .diverges (mmapTrimRound env a (h.files fd.file).length) (k + 1)
              ⟨k, 0⟩
            cutFile env fd (h.files fd.file).length trimmed : PbM Nat) h.granted := by
      unfold mmapAllocatorTrim
      refine (bind_run (getMmapAllocator_run hA)).trans ?_
      simp only [hfd]
      refine (bind_run (mmapAllocatorGetFileSize_run hs.system hA hfd)).trans ?_
      rw [hhead, wrapSub_of_le ho.head]
      simp only [hmin]
      rfl
    show (do let (x, s) ← mmapAllocatorTrim env a len h; _) = _
    rw [hrun]
    rfl
  rw [hbody]
  refine hsize.trans ?_
  by_cases hzero : k = 0
  · rw [if_pos hzero, if_pos hzero]
    rfl
  · rw [if_neg hzero, if_neg hzero]
    simp only [bind_assoc]

theorem cutFile_run (hs : env.Succeeds) (hsize : size = (h.files fd.file).length) (hn : n ≤ size) :
    cutFile env fd size n h = .ok (if fd.writable then n else 0,
      if fd.writable then h.granted.setFile fd.file ((h.files fd.file).take (size - n))
        else h.granted) := by
  unfold cutFile
  rw [wrapSub_of_le hn]
  refine (bind_run (ftruncate_cut hs (by omega))).trans ?_
  by_cases hw : fd.writable = true
  · simp only [hw, if_true]
    rfl
  · simp only [hw, Bool.false_eq_true, if_false]
    rfl

/-- A change of a file leaves what is to be taken down. -/
theorem Bare.setFile (s : Bare h b a) (file : Nat) (bytes : List UInt8) :
    Bare (h.setFile file bytes) b a := { s with }

namespace Window

variable (w : Window h b a fd head ks) (hs : env.Succeeds)

include w hs

/-- Nothing is to be trimmed. -/
theorem trim_nothing (hk : min len ((h.files fd.file).length - head) = 0) :
    Settles (ks.length ≤ 65535) (bufferTrim env b len) h (fun n h' =>
      n = 0 ∧ Stands h h' b a fd (h.files fd.file) head 1 []) := by
  obtain ⟨R, m⟩ := w.granted.maps
  refine Settles.of_eq (w.opened.bufferTrim_eq hs hk.symm) ?_
  rw [if_pos rfl]
  refine Settles.bind (m.teardown.giveUp m.bare m.length_le m.opened.head) fun _ h' hst => ?_
  exact yields_pure.mpr ⟨rfl, hst.window, hst.file, hst.revision⟩

/-- **Where the last block of the file is not mapped** and not full, the file is cut. -/
theorem trim_unmapped (hk : k = min len ((h.files fd.file).length - head)) (hpos : k ≠ 0)
    (hfree : ∀ c ∈ ks, c.obsolete = false → c.offset ≠ mmapOffsetOf (h.files fd.file).length)
    (hpart : mmapOffsetOf (h.files fd.file).length < (h.files fd.file).length) :
    Settles (ks.length ≤ 65535) (bufferTrim env b len) h (fun n h' =>
      n = (if fd.writable then k else 0) ∧
      Stands h h' b a fd ((h.files fd.file).take ((h.files fd.file).length - n)) head 1 []) := by
  obtain ⟨R, m⟩ := w.granted.maps
  have t := m.teardown
  obtain ⟨A, hA, -⟩ := m.opened.allocator
  have hfind : dataTreeFind (mmapOffsetOf (h.files fd.file).length) A.dataTree h.granted
      = .ok (none, h.granted) := by
    obtain ⟨r, hrun, hr⟩ := t.find hA (mmapOffsetOf (h.files fd.file).length)
    cases r with
    | none => exact hrun
    | some d =>
        obtain ⟨c, hc, -, hlive, hoff⟩ := hr
        exact absurd hoff (hfree c hc hlive)
  have hle : k ≤ (h.files fd.file).length := by omega
  have hhead : head ≤ (h.files fd.file).length := w.opened.head
  refine Settles.of_eq (w.opened.bufferTrim_eq hs hk) ?_
  rw [if_neg hpos]
  refine Settles.step (mmapTrimLoop_unmapped (s := ⟨k, 0⟩) hA hfind hpart (Nat.lt_succ_self k)) ?_
  show Settles _ (cutFile env fd (h.files fd.file).length (0 + k) >>= _) h.granted _
  rw [Nat.zero_add]
  refine Settles.step (cutFile_run (h := h.granted) hs rfl hle) ?_
  by_cases hw : fd.writable = true
  · simp only [hw, if_true]
    have t' : Teardown (h.granted.granted.setFile fd.file ((h.files fd.file).take
        ((h.files fd.file).length - k))) b a fd head ks [] [] [] (ks.length + 1) :=
      t.congr rfl rfl rfl
    have hfile : (h.granted.granted.setFile fd.file ((h.files fd.file).take
        ((h.files fd.file).length - k))).files fd.file
          = (h.files fd.file).take ((h.files fd.file).length - k) := update_self _ _ _
    have hclear := t'.giveUp (m.granted.bare.setFile _ _) m.granted.length_le (by
      rw [hfile, List.length_take]
      omega)
    refine Settles.bind hclear fun _ h' hst => ?_
    exact yields_pure.mpr ⟨rfl, hst.window, hst.file.trans hfile, hst.revision⟩
  · simp only [hw, Bool.false_eq_true, if_false]
    have m' := m.granted
    have hclear := m'.teardown.giveUp m'.bare m'.length_le m'.opened.head
    refine Settles.bind hclear fun _ h' hst => yields_pure.mpr ⟨rfl, hst.window, ?_, hst.revision⟩
    rw [hst.file, Nat.sub_zero, List.take_length]
    rfl

/-- **Where the file ends with a block**, the call never returns. -/
theorem trim_full (hk : k = min len ((h.files fd.file).length - head)) (hpos : k ≠ 0)
    (hfull : mmapOffsetOf (h.files fd.file).length = (h.files fd.file).length) :
    bufferTrim env b len h = .error .diverges := by
  obtain ⟨R, m⟩ := w.granted.maps
  obtain ⟨A, hA, -⟩ := m.opened.allocator
  have hfind : dataTreeFind (mmapOffsetOf (h.files fd.file).length) A.dataTree h.granted
      = .ok (none, h.granted) := by
    obtain ⟨r, hrun, hr⟩ := m.teardown.find hA (mmapOffsetOf (h.files fd.file).length)
    cases r with
    | none => exact hrun
    | some d =>
        -- no block begins where the file ends
        obtain ⟨c, hc, -, -, hoff⟩ := hr
        have hfit := m.stretch.fits c hc
        have hoff' := m.offset_le hc
        have hstart := hfit.start
        have hstop : c.stop ≤ (h.files fd.file).length := hfit.stop
        omega
  refine (w.opened.bufferTrim_eq hs hk).trans ?_
  rw [if_neg hpos]
  exact bind_fails (mmapTrimLoop_diverges hA hfind hfull hpos)

end Window

/-! ## Where the last block of the file is mapped -/

/-- Offsets of one block. -/
theorem mmapOffsetOf_between {x y : Nat} (hlt : mmapOffsetOf y < x) (hle : x ≤ y) :
    mmapOffsetOf y = mmapOffsetOf x := by
  simp only [mmapOffsetOf, mmapBaseSize] at hlt ⊢
  omega

namespace Maps

variable (m : Maps h R b a fd head ks) (hc : c ∈ ks) (hlive : c.obsolete = false)
  (hoff : c.offset = mmapOffsetOf (h.files fd.file).length)

include m hc hlive hoff

/-- Its page is the last one. -/
theorem last_of_end : ∃ l, ks = l ++ [c] := by
  refine (@Stretch.last_of_offset head _ _ _ m.stretch) hc hlive ?_
  have hfit := m.stretch.fits c hc
  have hle := m.offset_le hc
  have hstart := hfit.start
  have hstop := m.stretch.stop_le hc head
  have hsize := m.stretch.stop_le_size m.opened.head
  exact hoff.trans (mmapOffsetOf_between (by omega) hsize)

/-- The lookup finds it. -/
theorem find_end (hA : h.mmapAllocators a = some A) :
    dataTreeFind (mmapOffsetOf (h.files fd.file).length) A.dataTree h = .ok (some c.data, h) := by
  obtain ⟨r, hrun, hr⟩ := m.teardown.find hA (mmapOffsetOf (h.files fd.file).length)
  cases r with
  | none => exact absurd hoff (hr c hc hlive)
  | some d =>
      obtain ⟨c', hc', rfl, hlive', hoff'⟩ := hr
      -- there is one last page
      obtain ⟨l, hl⟩ := m.last_of_end hc hlive hoff
      obtain ⟨l', hl'⟩ := m.last_of_end hc' hlive' hoff'
      have hsame : c' = c := by
        have := hl'.symm.trans hl
        simpa using (List.append_inj' this rfl).2
      rwa [hsame] at hrun

/-- The mapping is not empty. -/
theorem data_end : ∃ D, h.datas c.data = some D ∧ D.useCount = 1 ∧ D.dataVec.len = c.len ∧
    D.dataVec.base = ⟨.mapped c.mapping, 0⟩ ∧
    D.operations = .mmap a (mmapOffsetOf (h.files fd.file).length) false := by
  obtain ⟨-, D, hD, hone, hbase, hop⟩ := m.teardown.owns c hc
  have hshape := (m.shows c hc).shape
  rw [Heap.shapeOf_eq hD] at hshape
  have hlen : D.dataVec.len = c.len := congrArg (fun s => s.dataVec.len) (Option.some.inj hshape)
  refine ⟨D, hD, hone, hlen, hbase, ?_⟩
  rw [← hoff, ← hlive]
  exact hop

end Maps

theorem Cleared.opened (cl : Cleared g h' b a) (ho : Opened g b a fd head)
    (hA : ∃ A, h'.mmapAllocators a = some A ∧ A.fileFd = some fd ∧ A.fileHeadOffset = head) :
    Opened h' b a fd head where
  kind := by
    obtain ⟨B, hB, hB'⟩ := cl.buffer
    have hkind := ho.kind
    rw [Heap.kindOf, hB] at hkind
    rw [Heap.kindOf, hB']
    exact hkind
  allocator := hA
  head := by
    rw [cl.files]
    exact ho.head

namespace Window

variable (w : Window h b a fd head ks) (hs : env.Succeeds) (hc : c ∈ ks)
  (hlive : c.obsolete = false) (hoff : c.offset = mmapOffsetOf (h.files fd.file).length)
  (hk : k = min len ((h.files fd.file).length - head)) (hpos : k ≠ 0)

include w hs hc hlive hoff hk hpos

/-- **Where its mapping is longer than what is cut off**, the file is cut, and a stale entry stays
in the data tree. -/
theorem trim_cut (hlt : k < c.len) :
    Settles (ks.length ≤ 65534) (bufferTrim env b len) h (fun n h' =>
      n = k ∧ Broken h' b a fd head ∧
      h'.files fd.file = (h.files fd.file).take ((h.files fd.file).length - k) ∧
      h'.revOf b = h.revOf b + 1) := by
  obtain ⟨R, m⟩ := w.granted.maps
  have hw := w.writable (List.ne_nil_of_mem hc)
  obtain ⟨A, hA, hfd, hhead⟩ := m.opened.allocator
  obtain ⟨D, hD, hone, hlen, -, hop⟩ := m.data_end hc hlive hoff
  obtain ⟨size, hsize⟩ : ∃ size, size = (h.files fd.file).length := ⟨_, rfl⟩
  have hfind := m.find_end hc hlive hoff hA
  have hcreate := mmapAllocatorDataCreate_run hs m.inv.core hA hfd hw (mmapOffsetOf size)
    (show 0 < D.dataVec.len - k by omega)
  have hnext : c.data < h.granted.next :=
    m.inv.core.objs.freshData (by rw [(m.shows c hc).shape]; rfl)
  obtain ⟨M, hM⟩ : ∃ M : Mapping, M = ⟨fd.file, mmapOffsetOf size, D.dataVec.len - k⟩ := ⟨_, rfl⟩
  have hround : mmapTrimRound env a size ⟨k, 0⟩ h.granted
      = .ok (.inl ⟨0, k⟩, h.granted.withCut a A M c.data D) := by
    rw [hM, hsize] at *
    have hrun := mmapTrimRound_cut (s := ⟨k, 0⟩) hnext hA hcreate hfind
      (m.found_of_block hA hc hlive) hD hone hop hpos (hlen ▸ hlt)
    rwa [show (0 : Nat) + k = k from Nat.zero_add k] at hrun
  have hloop : loopM .diverges (mmapTrimRound env a size) (k + 1) ⟨k, 0⟩ h.granted
      = .ok (k, h.granted.withCut a A M c.data D) := by
    obtain ⟨f, hf⟩ := Nat.exists_eq_succ_of_ne_zero hpos
    refine (bind_run hround).trans ?_
    show loopM .diverges (mmapTrimRound env a size) k ⟨0, k⟩ _ = _
    rw [show loopM Fault.diverges (mmapTrimRound env a size) k
      = loopM .diverges (mmapTrimRound env a size) (f + 1) by rw [hf]]
    rfl
  have hle : k ≤ (h.files fd.file).length := by omega
  obtain ⟨g, hg⟩ : ∃ g, g = (h.granted.withCut a A M c.data D).granted.setFile fd.file
    ((h.files fd.file).take ((h.files fd.file).length - k)) := ⟨_, rfl⟩
  have hcut : cutFile env fd size k (h.granted.withCut a A M c.data D) = .ok (k, g) := by
    rw [hg]
    have hrun := cutFile_run (h := h.granted.withCut a A M c.data D) hs hsize (hsize ▸ hle)
    simp only [hw, if_true] at hrun
    rw [hsize] at hrun ⊢
    exact hrun
  have t : Teardown g b a fd head (ks.map (Block.replaced (some c.data))) [] [h.granted.next + 1]
      [c.data] (ks.length + 2) := by
    rw [hg]
    exact (m.withCut hA hc hlive hD M).congr rfl rfl rfl
  have hfiles : g.files fd.file = (h.files fd.file).take ((h.files fd.file).length - k) := by
    rw [hg]
    exact update_self _ _ _
  have ho : Opened g b a fd head :=
    { kind := by
        rw [hg]
        exact m.opened.kind
      allocator := by
        obtain ⟨A', hA', hfd', hhead', -⟩ := t.allocator
        exact ⟨A', hA', hfd', hhead'⟩
      head := by
        rw [hfiles, List.length_take]
        have := w.opened.head
        omega }
  have hclear := t.pureClear ho.isSome (by simp) (by simp) (by
    rw [List.length_map, hg]
    exact Nat.le_trans m.length_le (Nat.le_add_right _ 3))
  rw [List.length_map, Nat.add_sub_cancel_left] at hclear
  refine Settles.of_eq (w.opened.bufferTrim_eq hs hk) ?_
  rw [if_neg hpos, ← hsize]
  refine Settles.step hloop (Settles.step hcut ?_)
  refine Settles.bind (hclear.iff (by omega)) fun _ h' hpost => yields_pure.mpr ⟨rfl, ?_⟩
  obtain ⟨t', cl⟩ := hpost
  refine ⟨⟨cl.opened ho ?_, hw, [h.granted.next + 1], c.data, t', ?_⟩, ?_, ?_⟩
  · obtain ⟨A', hA', hfd', hhead', -⟩ := t'.allocator
    exact ⟨A', hA', hfd', hhead'⟩
  · rw [List.mem_singleton]
    omega
  · rw [cl.files, hfiles, hsize]
  · rw [cl.revision, hg]
    rfl

end Window

/-- The mapping of the last block is gone, and its page refers to it still. -/
structure Lost (h h' : Heap) (b a : Nat) (fd : Fd) (head : Nat) (l : List Block) (c : Block) :
    Prop where
  ruins : Ruins h' b a l [c.page]
  buffers : h'.buffers = h.buffers
  left : h'.mmapAllocators a = none ∧ l ≠ [] ∨
    Teardown h' b a fd head l [c.page] [] [] (l.length + 1)

/-- Putting the data of the last page while the page refers to it. -/
theorem Maps.loseEnd (m : Maps h R b a fd head ks) (hl : ks = l ++ [c])
    (hA : h.mmapAllocators a = some A) (hD : h.datas c.data = some D) :
    Yields (dataPut c.data) ((h.setMmapAllocator a (some { A with
      dataTree := A.dataTree.erase c.data })).setData c.data (some D.outdated))
      (fun _ h' => Lost h h' b a fd head l c) := by
  have t := m.teardown
  have hc : c ∈ ks := by simp [hl]
  obtain ⟨A', hA', hfd, hhead, huse, hnd, htree⟩ := t.allocator
  rw [hA] at hA'
  cases hA'
  obtain ⟨hdata, D', hD', hone, hbase, hop⟩ := t.owns c hc
  rw [hD] at hD'
  cases hD'
  have hout : D.outdated.operations = .mmap a c.offset true := by
    rw [Data.outdated, hop]
    rfl
  refine (dataPut_mapped (D := D.outdated) (update_self _ _ _) hone hout hbase (update_self _ _ _)
    (by simp)).mono fun _ h' u => ?_
  have hpages : h'.pages = h.pages := u.pages
  have hdatas : h'.datas = update h.datas c.data none := by
    rw [u.datas]
    exact update_idem _ _ _
  have hallocs : h'.mmapAllocators = update h.mmapAllocators a
      (MmapAllocator.without { A with dataTree := A.dataTree.erase c.data } c.data true) := by
    rw [u.mmapAllocators]
    exact update_idem _ _ _
  have honce : (l.map Block.data).Nodup ∧ c.data ∉ l.map Block.data := by
    have hnodup := m.once
    rw [hl, List.map_append, List.map_singleton, List.nodup_append] at hnodup
    exact ⟨hnodup.1, fun hin => hnodup.2.2 _ hin _ (List.mem_singleton_self _) rfl⟩
  have hne : ∀ c' ∈ l, c'.data ≠ c.data := fun c' hc' he => honce.2 (by
    rw [← he]
    exact List.mem_map_of_mem hc')
  have hmem : ∀ c' ∈ l, c' ∈ ks := fun c' hc' => by simp [hl, hc']
  have hring : ks.map Block.page ++ [] = l.map Block.page ++ [c.page] := by
    rw [hl, List.map_append, List.append_nil]
    rfl
  have hruins : Ruins h' b a l [c.page] := by
    refine ⟨?_, ?_, ?_, ?_, honce.1⟩
    · rw [← hring]
      exact t.ring.congr (fun y _ => by rw [Heap.nextOf_congr hpages])
        (fun y _ => by rw [Heap.prevOf_congr hpages])
    · intro p
      rw [hpages, t.pages, hring]
    · intro c' hc'
      refine ⟨?_, ?_⟩
      · rw [Heap.dataOf_congr hpages]
        exact (t.owns c' (hmem c' hc')).data
      · rw [hdatas, update_of_ne (hne c' hc')]
        exact (t.owns c' (hmem c' hc')).owned
    · intro z hz
      rw [List.mem_singleton.mp hz]
      refine ⟨c.data, ?_, ?_⟩
      · rw [Heap.dataOf_congr hpages, hdata]
      · rw [hdatas, update_self]
  have hcount : ks.length = l.length + 1 := by rw [hl, List.length_append]; rfl
  have hdec : u16Dec A.useCount = (l.length + 1) % 65536 := by
    rw [huse, u16Dec_mod (by omega), hcount]
    rfl
  refine ⟨hruins, u.buffers, ?_⟩
  by_cases hzero : u16Dec A.useCount = 0
  · -- the counter has come to zero, with more pages than it can count
    left
    refine ⟨?_, fun hnil => ?_⟩
    · rw [hallocs, update_self, MmapAllocator.without]
      exact if_pos hzero
    · rw [hnil] at hdec
      simp only [List.length_nil] at hdec
      omega
  · right
    refine ⟨hruins, ?_, ?_, by simp, ?_⟩
    · rw [Heap.dataOf_congr hpages, Heap.lenOf_congr hpages]
      exact t.sentinel
    · intro e he
      rw [hdatas] at he
      by_cases hec : e = c.data
      · simp [hec] at he
      · rw [update_of_ne hec] at he
        have hin := t.datas e he
        rw [hl] at hin
        simpa [hec] using hin
    · refine ⟨{ A with useCount := u16Dec A.useCount, dataTree := A.dataTree.erase c.data }, ?_, hfd,
        hhead, hdec, hnd.erase _, fun e => ?_⟩
      · rw [hallocs, update_self, MmapAllocator.without]
        exact if_neg hzero
      · show e ∈ A.dataTree.erase c.data ↔ _
        rw [hnd.mem_erase_iff, htree]
        constructor
        · rintro ⟨hec, ⟨c', hc', rfl, hlive'⟩ | hnil⟩
          · rw [hl] at hc'
            rcases List.mem_append.mp hc' with hin | hin
            · exact .inl ⟨c', hin, rfl, hlive'⟩
            · exact absurd (by rw [List.mem_singleton.mp hin]) hec
          · cases hnil
        · rintro (⟨c', hc', rfl, hlive'⟩ | hnil)
          · exact ⟨hne c' hc', .inl ⟨c', hmem c' hc', rfl, hlive'⟩⟩
          · cases hnil

theorem returns_cutFile (hs : env.Succeeds) :
    Returns (cutFile env fd size n) h (fun _ h' => h'.pages = h.pages ∧ h'.datas = h.datas ∧
      h'.mmapAllocators = h.mmapAllocators ∧ h'.buffers = h.buffers) := by
  unfold cutFile ftruncate
  refine Returns.bind (P := fun _ h' => h'.pages = h.pages ∧ h'.datas = h.datas ∧
      h'.mmapAllocators = h.mmapAllocators ∧ h'.buffers = h.buffers) ?_ fun ok h' hpost => ?_
  · refine Returns.step (osRequest_granted hs.system) ?_
    by_cases hw : fd.writable = true
    · simp only [hw, if_true]
      exact Returns.step (modify_run _) (Returns.pure ⟨rfl, rfl, rfl, rfl⟩)
    · simp only [hw, Bool.false_eq_true, if_false]
      exact Returns.pure ⟨rfl, rfl, rfl, rfl⟩
  · by_cases hok : ok
    · rw [if_pos hok]
      exact Returns.pure hpost
    · rw [if_neg hok]
      exact Returns.pure hpost

/-- The page without data is in the way of everything that is given up. -/
theorem Lost.pureClear (lost : Lost h g b a fd head l c) (hb : (h.buffers b).isSome)
    (hp : h'.pages = g.pages) (hd : h'.datas = g.datas)
    (hA : h'.mmapAllocators = g.mmapAllocators) (hbuf : h'.buffers = g.buffers) :
    Returns (trivialPureBufferClear b) h' (fun _ _ => False) := by
  have hb' : (h'.buffers b).isSome := by rwa [hbuf, lost.buffers]
  rcases lost.left with ⟨hnone, hne⟩ | t
  · obtain ⟨c', l', rfl⟩ := List.exists_cons_of_ne_nil hne
    exact (lost.ruins.congr hp hd).pureClear_torn hb' (by rw [hA]; exact hnone)
  · exact (t.congr hp hd hA).pureClear_dead hb' (Nat.lt_succ_self _) (by simp)

/-- Later rounds find nothing more. -/
theorem Lost.loop (lost : Lost h g b a fd head l c)
    (hnone : ∀ c' ∈ l, c'.obsolete = false → c'.offset ≠ mmapOffsetOf size) :
    Returns (loopM .diverges (mmapTrimRound env a size) fuel s) g (fun _ g' => g' = g) := by
  refine Returns.loop (I := fun _ g' => g' = g) ?_ fuel s g rfl
  rintro s g' rfl
  by_cases hl : s.len = 0
  · unfold mmapTrimRound
    rw [if_pos hl]
    exact Returns.pure rfl
  · rcases lost.left with ⟨hgone, -⟩ | t
    · unfold mmapTrimRound
      rw [if_neg hl]
      refine returns_getMmapAllocator fun A hA => ?_
      rw [hgone] at hA
      cases hA
    · obtain ⟨A, hA, -⟩ := t.allocator
      obtain ⟨r, hrun, hr⟩ := t.find hA (mmapOffsetOf size)
      cases r with
      | some d =>
          obtain ⟨c', hc', -, hlive, hoff⟩ := hr
          exact absurd hoff (hnone c' hc' hlive)
      | none => exact Returns.of_run (mmapTrimRound_unmapped hA hrun hl) rfl

/-- **Where its mapping is no longer than what is cut off**, the call does not return. -/
theorem Window.trim_lost (w : Window h b a fd head ks) (hs : env.Succeeds) (hc : c ∈ ks)
    (hlive : c.obsolete = false) (hoff : c.offset = mmapOffsetOf (h.files fd.file).length)
    (hk : k = min len ((h.files fd.file).length - head)) (hle : c.len ≤ k) :
    Returns (bufferTrim env b len) h (fun _ _ => False) := by
  obtain ⟨R, m⟩ := w.granted.maps
  obtain ⟨A, hA, -⟩ := m.opened.allocator
  obtain ⟨D, hD, -, hlen, -, hop⟩ := m.data_end hc hlive hoff
  obtain ⟨l, hl⟩ := m.last_of_end hc hlive hoff
  have hfind := m.find_end hc hlive hoff hA
  have hpos : k ≠ 0 := by
    have hfit := (m.stretch.fits c hc).start
    have hle' := m.offset_le hc
    have hstop : c.stop = c.offset + c.len := rfl
    omega
  have hmin : (if c.len < k then c.len else k) = c.len := by
    split <;> omega
  -- the block is not among the others
  have hnone : ∀ c' ∈ l, c'.obsolete = false →
      c'.offset ≠ mmapOffsetOf (h.files fd.file).length := by
    intro c' hc' hlive' hoff'
    obtain ⟨l', hl'⟩ := m.last_of_end (c := c') (by simp [hl, hc']) hlive' hoff'
    have hsame : c' = c := by
      have := hl'.symm.trans hl
      simpa using (List.append_inj' this rfl).2
    have hnodup := m.once
    rw [hl, List.map_append, List.map_singleton, List.nodup_append] at hnodup
    exact hnodup.2.2 c'.data (List.mem_map_of_mem hc') _ (List.mem_singleton_self _) (by rw [hsame])
  refine Returns.of_eq (w.opened.bufferTrim_eq hs hk) ?_
  rw [if_neg hpos]
  refine Returns.bind (P := fun _ g => Lost h.granted g b a fd head l c) ?_ fun n g lost => ?_
  · -- the first round loses the mapping
    refine Returns.bind (P := fun r g => ∃ s, r = .inl s ∧ Lost h.granted g b a fd head l c) ?_ ?_
    · unfold mmapTrimRound
      rw [if_neg hpos]
      refine Returns.step (getMmapAllocator_run hA) (Returns.step hfind ?_)
      refine Returns.step (getData_run hD) ?_
      simp only [hlen, hmin]
      rw [if_neg (Nat.lt_irrefl _)]
      refine Returns.step (dataTreeDel_run hA (m.found_of_block hA hc hlive)) ?_
      refine Returns.step (markObsolete_run (h := h.granted.setMmapAllocator a _) hD hop) ?_
      refine Returns.bind (m.loseEnd hl hA hD).returns fun _ g lost => ?_
      exact Returns.pure ⟨_, rfl, lost⟩
    · intro r g hpost
      obtain ⟨s, rfl, lost⟩ := hpost
      refine (lost.loop hnone).mono fun _ g' he => ?_
      rw [he]
      exact lost
  · refine Returns.bind (returns_cutFile hs) fun n g' hpost => ?_
    obtain ⟨hp, hd, hallocs, hbuf⟩ := hpost
    refine Returns.bind (lost.pureClear m.opened.isSome hp hd hallocs hbuf) fun _ _ hf => hf.elim

end Pb
