import PageBuf.Client.Iteration

/-!
# Trimming — taking bytes off the end of the file

Whether `pb_mmap_buffer_trim` does what it is for is decided by the data tree,
by where the file ends and by what is mapped there. A trim of nothing only gives
the pages up.
-/

namespace Pb

open StateRun Function Ring

variable {env : Env} {h h' : Heap} {openAction : MmapOpenAction} {a b d head k len n : Nat}
  {fd : Fd} {c : Block} {ks : List Block}

namespace Heap

/-- `data_tree`. -/
def dataTreeOf (h : Heap) (b : Nat) : List Nat :=
  ((h.mmapAllocatorOf b).map MmapAllocator.dataTree).getD []

/-- How much of the file a data maps. -/
def mapLenOf (h : Heap) (d : Nat) : Nat := ((h.datas d).map fun D => D.dataVec.len).getD 0

/-- How many bytes a trim of `len` is to take. -/
def trimLen (h : Heap) (b len : Nat) : Nat := min len ((h.fileOf b).length - h.fileHead b)

/-- The data is in the tree for the block at the end of the file. -/
def IsEntryOfEnd (h : Heap) (b d : Nat) : Prop :=
  d ∈ h.dataTreeOf b ∧
    (h.mmapFieldsOf d).map Prod.snd = some (mmapOffsetOf (h.fileOf b).length, false)

/-- What a trim relies on to take `k` bytes off. -/
structure CanCut (h : Heap) (b k : Nat) : Prop where
  live : ∀ d ∈ h.dataTreeOf b, (h.datas d).isSome
  inside : mmapOffsetOf (h.fileOf b).length < (h.fileOf b).length
  longer : ∀ d, h.IsEntryOfEnd b d → k < h.mapLenOf d
  count : (h.pagesOf b).length ≤ 65535
  spare : ∀ d, h.IsEntryOfEnd b d → (h.pagesOf b).length ≤ 65534

end Heap

/-- `k` bytes have been taken off. -/
structure Trimmed (env : Env) (b k : Nat) (h : Heap) (n : Nat) (h' : Heap) : Prop where
  answer : n = k
  file : h'.fileOf b = (h.fileOf b).take ((h.fileOf b).length - k)
  head : h'.fileHead b = h.fileHead b
  dataSize : Yields (bufferGetDataSize env b) h' (fun m _ =>
    m = (h.fileOf b).length - h.fileHead b - k)

/-- A trim comes to an end and takes off what it is to take. -/
def Trims (env : Env) (b len : Nat) (h : Heap) : Prop :=
  Yields (bufferTrim env b len) h (Trimmed env b (h.trimLen b len) h)

theorem Opened.trimLen (ho : Opened h b a fd head) (len : Nat) :
    h.trimLen b len = min len ((h.files fd.file).length - head) := by
  rw [Heap.trimLen, ho.fileOf, ho.fileHead]

/-- Where the buffer stands decides what is seen. -/
theorem Opened.trimmed (ho : Opened h b a fd head) (hs : env.Succeeds)
    (ho' : Opened h' b a fd head) (hn : n = k)
    (hfile : h'.files fd.file = (h.files fd.file).take ((h.files fd.file).length - k)) :
    Trimmed env b k h n h' where
  answer := hn
  file := by rw [ho'.fileOf, ho.fileOf, hfile]
  head := by rw [ho'.fileHead, ho.fileHead]
  dataSize := by
    refine Yields.intro (bufferGetDataSize_mmap hs.system ho') ?_
    have hhead := ho.head
    rw [ho.fileOf, ho.fileHead, hfile, List.length_take]
    omega

theorem Opened.dataTreeOf (ho : Opened h b a fd head) {A : MmapAllocator}
    (hA : h.mmapAllocators a = some A) : h.dataTreeOf b = A.dataTree := by
  obtain ⟨B, hB, hop⟩ := ho.getBuffer
  have hof : h.mmapAllocatorOf b = some A := by
    obtain ⟨σ, cls, rev, size⟩ := B
    subst hop
    rw [Heap.mmapAllocatorOf, hB]
    exact hA
  rw [Heap.dataTreeOf, hof]
  rfl

/-- The entries are the mappings that are not obsolete. -/
theorem Maps.mem_dataTreeOf {R : Nat → List Nat} (m : Maps h R b a fd head ks) :
    d ∈ h.dataTreeOf b ↔ ∃ c ∈ ks, c.data = d ∧ c.obsolete = false := by
  have t := m.teardown
  obtain ⟨A, hA, -, -, -, -, htree⟩ := t.allocator
  rw [m.opened.dataTreeOf hA, htree]
  simp

theorem Maps.isEntryOfEnd_iff {R : Nat → List Nat} (m : Maps h R b a fd head ks) :
    h.IsEntryOfEnd b d ↔ ∃ c ∈ ks, c.data = d ∧ c.obsolete = false ∧
      c.offset = mmapOffsetOf (h.files fd.file).length := by
  rw [Heap.IsEntryOfEnd, m.mem_dataTreeOf, m.opened.fileOf]
  constructor
  · rintro ⟨⟨c, hc, rfl, hlive⟩, hoff⟩
    rw [m.mmapFieldsOf hc] at hoff
    exact ⟨c, hc, rfl, hlive, congrArg Prod.fst (Option.some.inj hoff)⟩
  · rintro ⟨c, hc, rfl, hlive, hoff⟩
    refine ⟨⟨c, hc, rfl, hlive⟩, ?_⟩
    rw [m.mmapFieldsOf hc, hlive, hoff]
    rfl

theorem Maps.mapLenOf {R : Nat → List Nat} (m : Maps h R b a fd head ks) (hc : c ∈ ks) :
    h.mapLenOf c.data = c.len := by
  obtain ⟨-, D, hD, -⟩ := m.teardown.owns c hc
  have hshape := (m.shows c hc).shape
  rw [Heap.shapeOf_eq hD] at hshape
  rw [Heap.mapLenOf, hD]
  exact congrArg (fun s => s.dataVec.len) (Option.some.inj hshape)

/-- There is one entry for the block at the end. -/
theorem Maps.end_unique {R : Nat → List Nat} (m : Maps h R b a fd head ks) (hc : c ∈ ks)
    (hcur : c.obsolete = false) (hoff : c.offset = mmapOffsetOf (h.files fd.file).length)
    (hd : h.IsEntryOfEnd b d) : d = c.data := by
  obtain ⟨c', hc', rfl, hcur', hoff'⟩ := m.isEntryOfEnd_iff.mp hd
  obtain ⟨l, hl⟩ := m.last_of_end hc hcur hoff
  obtain ⟨l', hl'⟩ := m.last_of_end hc' hcur' hoff'
  have hsame := (List.append_inj' (hl'.symm.trans hl) rfl).2
  rw [List.cons.inj hsame |>.1]

theorem Maps.tree_live {R : Nat → List Nat} (m : Maps h R b a fd head ks) :
    ∀ d ∈ h.dataTreeOf b, (h.datas d).isSome := by
  intro d hd
  obtain ⟨c, hc, rfl, -⟩ := m.mem_dataTreeOf.mp hd
  obtain ⟨-, D, hD, -⟩ := m.teardown.owns c hc
  rw [hD]
  rfl

namespace Window

variable (w : Window h b a fd head ks) (hs : env.Succeeds)

include w hs

/-- Nothing to take: it matters only whether the pages can be given up. -/
theorem trims_nothing (hzero : h.trimLen b len = 0) :
    Trims env b len h ↔ (h.pagesOf b).length ≤ 65535 := by
  obtain ⟨R, m⟩ := w.maps
  have ho := m.opened
  rw [Trims, hzero, m.pagesOf, List.length_map]
  rw [ho.trimLen] at hzero
  refine (w.trim_nothing hs hzero).yields_iff fun n h' hpost => ?_
  obtain ⟨hn, hst⟩ := hpost
  refine ho.trimmed hs hst.window.opened hn ?_
  rw [hst.file, Nat.sub_zero, List.take_length]

/-- The block at the end is mapped. -/
theorem trims_mapped (hpos : h.trimLen b len ≠ 0) (hc : c ∈ ks) (hcur : c.obsolete = false)
    (hoff : c.offset = mmapOffsetOf (h.files fd.file).length) :
    Trims env b len h ↔ h.CanCut b (h.trimLen b len) := by
  obtain ⟨R, m⟩ := w.maps
  have ho := m.opened
  have hentry : h.IsEntryOfEnd b c.data := m.isEntryOfEnd_iff.mpr ⟨c, hc, rfl, hcur, hoff⟩
  have hlen : (h.pagesOf b).length = ks.length := by rw [m.pagesOf, List.length_map]
  obtain ⟨k, hk⟩ : ∃ k, k = h.trimLen b len := ⟨_, rfl⟩
  rw [Trims, ← hk]
  rw [← hk] at hpos
  rw [ho.trimLen] at hk
  by_cases hlt : k < c.len
  · refine ((w.trim_cut hs hc hcur hoff hk hpos hlt).yields_iff fun n h' hpost => ?_).trans ?_
    · obtain ⟨hn, br, hfile, -⟩ := hpost
      exact ho.trimmed hs br.opened hn hfile
    · constructor
      · intro hfew
        have hfit := m.stretch.fits c hc
        have hstart := hfit.start
        have hstop := hfit.stop
        have hle := m.offset_le hc
        refine ⟨m.tree_live, ?_, fun d hd => ?_, by omega, fun _ _ => by omega⟩
        · rw [ho.fileOf]
          omega
        · rw [m.end_unique hc hcur hoff hd, m.mapLenOf hc]
          exact hlt
      · intro hcut
        rw [← hlen]
        exact hcut.spare _ hentry
  · have hle := Nat.le_of_not_lt hlt
    refine iff_of_false (w.trim_lost hs hc hcur hoff hk hle).not_yields fun hcut => ?_
    have hlonger := hcut.longer _ hentry
    rw [m.mapLenOf hc] at hlonger
    exact hlt hlonger

/-- The block at the end is not mapped. -/
theorem trims_unmapped (hw : fd.writable = true) (hpos : h.trimLen b len ≠ 0)
    (hfree : ∀ c ∈ ks, c.obsolete = false → c.offset ≠ mmapOffsetOf (h.files fd.file).length) :
    Trims env b len h ↔ h.CanCut b (h.trimLen b len) := by
  obtain ⟨R, m⟩ := w.maps
  have ho := m.opened
  have hlen : (h.pagesOf b).length = ks.length := by rw [m.pagesOf, List.length_map]
  have hnone : ∀ d, ¬h.IsEntryOfEnd b d := by
    intro d hd
    obtain ⟨c, hc, -, hcur, hoff⟩ := m.isEntryOfEnd_iff.mp hd
    exact hfree c hc hcur hoff
  obtain ⟨k, hk⟩ : ∃ k, k = h.trimLen b len := ⟨_, rfl⟩
  rw [Trims, ← hk]
  rw [← hk] at hpos
  rw [ho.trimLen] at hk
  have hle : mmapOffsetOf (h.files fd.file).length ≤ (h.files fd.file).length :=
    Nat.div_mul_le_self _ _
  rcases Nat.lt_or_eq_of_le hle with hpart | hfull
  · refine ((w.trim_unmapped hs hk hpos hfree hpart).yields_iff fun n h' hpost => ?_).trans ?_
    · obtain ⟨hn, hst⟩ := hpost
      rw [if_pos hw] at hn
      refine ho.trimmed hs hst.window.opened hn ?_
      rw [hst.file, hn]
    · rw [← hlen]
      constructor
      · intro hfew
        refine ⟨m.tree_live, ?_, fun d hd => absurd hd (hnone d), hfew,
          fun d hd => absurd hd (hnone d)⟩
        rw [ho.fileOf]
        exact hpart
      · intro hcut
        exact hcut.count
  · -- the loop never comes to an end
    have hfail : Returns (bufferTrim env b len) h fun _ _ => False :=
      Returns.of_fault (w.trim_full hs hk hpos hfull)
    refine iff_of_false hfail.not_yields fun hcut => ?_
    have hinside := hcut.inside
    rw [ho.fileOf, hfull] at hinside
    exact Nat.lt_irrefl _ hinside

theorem trims_iff_canCut (hw : fd.writable = true) :
    Trims env b len h ↔ if h.trimLen b len = 0 then (h.pagesOf b).length ≤ 65535
      else h.CanCut b (h.trimLen b len) := by
  by_cases hzero : h.trimLen b len = 0
  · rw [if_pos hzero]
    exact w.trims_nothing hs hzero
  · rw [if_neg hzero]
    by_cases hmapped : ∃ c ∈ ks, c.obsolete = false ∧ c.offset = mmapOffsetOf (h.files fd.file).length
    · obtain ⟨c, hc, hcur, hoff⟩ := hmapped
      exact w.trims_mapped hs hzero hc hcur hoff
    · exact w.trims_unmapped hs hw hzero fun c hc hcur hoff => hmapped ⟨c, hc, hcur, hoff⟩

end Window

theorem Broken.trims_iff_canCut (br : Broken h b a fd head) (hs : env.Succeeds) :
    Trims env b len h ↔ if h.trimLen b len = 0 then (h.pagesOf b).length ≤ 65535
      else h.CanCut b (h.trimLen b len) := by
  have ho := br.opened
  have hsettle := br.trim hs len
  rw [← ho.trimLen len] at hsettle
  by_cases hzero : h.trimLen b len = 0
  · rw [if_pos hzero, br.pagesOf, Trims, hzero]
    refine iff_of_true ((hsettle.yields hzero).mono fun n h' hpost => ?_) (Nat.zero_le _)
    obtain ⟨hn, br', hfiles, -⟩ := hpost
    refine ho.trimmed hs br'.opened hn ?_
    rw [hfiles, Nat.sub_zero, List.take_length]
  · rw [if_neg hzero]
    refine iff_of_false (hsettle.fails hzero).not_yields fun hcut => ?_
    obtain ⟨A, hA, -⟩ := ho.allocator
    obtain ⟨⟨d, hd⟩, hgone⟩ := br.stale hA
    have hlive := hcut.live d (by rwa [ho.dataTreeOf hA])
    rw [hgone d hd] at hlive
    cases hlive

/-- An mmap buffer over a file of one block. -/
def Heap.oneBlock : Heap :=
  (Heap.initial (fun _ _ => 0) (fun _ => 0) (fun _ => List.replicate 4096 0)).withMmap 0 .append
    .retain

theorem reachable_oneBlock {M : Heap → MmapOp → Prop} :
    MmapReachable .generous .append M 3 .oneBlock :=
  ⟨_, _, _, 0, .retain, _, mmapBufferCreate_run succeeds_generous, .refl⟩

end Pb
