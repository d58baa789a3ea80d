import PageBuf.Invariant.Objects

/-!
# Release — giving up data and pages

`pb_data_put` gives up a reference, and with the last one everything the data
owns: its block, or its mapping and its share of the mmap allocator. The
counters are 16 bits wide, so the invariant survives a `put` as long as they
can count; that it does not fault needs no such bound.
-/

namespace Pb

open StateRun Function Ring RefCount

variable {env : Env} {h h' : Heap} {R : Nat → List Nat} {F X : List Nat} {d x : Nat}
  {D : Data}

/-! ## Releasing data -/

/-- What giving up a reference to `d` leaves alone. -/
structure Dropped (h h' : Heap) (d : Nat) : Prop where
  world : World h h'
  pages : h'.pages = h.pages
  buffers : h'.buffers = h.buffers
  next : h'.next = h.next
  mem : h'.mem = h.mem
  other : ∀ {e}, e ≠ d → h'.shapeOf e = h.shapeOf e
  survivor : ∀ {e s}, h'.shapeOf e = some s → h.shapeOf e = some s
  bytes : ∀ {e s}, h'.shapeOf e = some s →
    ∀ i, h'.byteAt s.dataVec.base.region i = h.byteAt s.dataVec.base.region i

/-- The count one lower. -/
def dec (c : Nat → Nat) (d : Nat) : Nat → Nat := update c d (c d - 1)

/-- The invariant of the objects when the last reference to `d` is gone, and
its block with it. -/
theorem Objs.drop {c : Nat → Nat} {s : Shape} (ho : Objs h c) (hd : h.shapeOf d = some s)
    (hone : c d = 1) (hdatas : h'.datas = update h.datas d none)
    (hb : (∃ n, s.dataVec.base.region = .heap n ∧ h'.blocks = update h.blocks n none) ∨
      (∀ n, s.dataVec.base.region ≠ .heap n) ∧ h'.blocks = h.blocks)
    (hx : h'.next = h.next) : Objs h' (dec c d) := by
  have hs : ∀ {e t}, h'.shapeOf e = some t → e ≠ d ∧ h.shapeOf e = some t := by
    intro e t he
    simp only [Heap.shapeOf, hdatas] at he
    rcases eq_or_ne e d with rfl | hne
    · simp at he
    · rw [update_of_ne hne] at he
      exact ⟨hne, he⟩
  have hs' : ∀ {e}, e ≠ d → h'.shapeOf e = h.shapeOf e := by
    intro e he
    simp only [Heap.shapeOf, hdatas, update_of_ne he]
  have hblock : ∀ {e t n}, h'.shapeOf e = some t → t.dataVec.base.region = .heap n →
      h'.blocks n = h.blocks n := by
    intro e t n he hr
    rcases hb with ⟨m, hm, hbl⟩ | ⟨-, hbl⟩
    · rw [hbl, update_of_ne]
      rintro rfl
      rcases ho.excl (hs he).2 hd (hr.trans hm.symm) with ⟨k, hk⟩ | heq
      · rw [hr] at hk
        simp at hk
      · exact (hs he).1 heq
    · rw [hbl]
  have hsub : ∀ {n}, (h'.blocks n).isSome →
      (h.blocks n).isSome ∧ s.dataVec.base.region ≠ .heap n := by
    intro n hn
    rcases hb with ⟨m, hm, hbl⟩ | ⟨hne, hbl⟩
    · rw [hbl] at hn
      rcases eq_or_ne n m with rfl | hnm
      · simp at hn
      · rw [update_of_ne hnm] at hn
        exact ⟨hn, by simpa [hm] using hnm.symm⟩
    · rw [hbl] at hn
      exact ⟨hn, hne n⟩
  exact
    { live := fun e => by
        rcases eq_or_ne e d with rfl | he
        · simp [Heap.shapeOf, hdatas, dec, hone]
        · rw [hs' he, dec, update_of_ne he]
          exact ho.live e
      count := fun {e E} hE => by
        rw [hdatas] at hE
        rcases eq_or_ne e d with rfl | he
        · simp at hE
        · rw [update_of_ne he] at hE
          rw [dec, update_of_ne he]
          exact ho.count hE
      owned := fun {e t} he hop hr => by
        obtain ⟨n, hn, hbl⟩ := ho.owned (hs he).2 hop hr
        exact ⟨n, hn, by rw [hblock he (by rw [hn]), hbl]⟩
      referenced := fun he => ho.referenced (hs he).2
      owner := fun {n} hn => by
        obtain ⟨hn', hne⟩ := hsub hn
        obtain ⟨e, t, he, hop, hr⟩ := ho.owner hn'
        refine ⟨e, t, ?_, hop, hr⟩
        rw [hs', he]
        rintro rfl
        rw [hd] at he
        cases he
        exact hne hr
      excl := fun he he' => ho.excl (hs he).2 (hs he').2
      freshData := fun {e} he => by
        obtain ⟨t, ht⟩ := Option.isSome_iff_exists.mp he
        rw [hx]
        exact ho.freshData (by rw [(hs ht).2]; rfl)
      freshBlock := fun {n} hn => by
        rw [hx]
        exact ho.freshBlock (hsub hn).1 }

/-- A heap without the `pb_data` at `d`, whose block may be gone as well. -/
structure Freed (h h' : Heap) (d : Nat) : Prop where
  datas : h'.datas = update h.datas d none
  blocks : ∀ {n k}, h'.blocks n = some k → h.blocks n = some k
  pages : h'.pages = h.pages
  buffers : h'.buffers = h.buffers
  next : h'.next = h.next
  mem : h'.mem = h.mem
  callerLen : h'.callerLen = h.callerLen
  files : h'.files = h.files
  mmapAllocators : h'.mmapAllocators = h.mmapAllocators
  mappings : h'.mappings = h.mappings

theorem Freed.shape (f : Freed h h' d) : h'.shapeOf = update h.shapeOf d none := by
  funext e
  rcases eq_or_ne e d with rfl | he <;> simp [Heap.shapeOf, f.datas, *]

theorem Freed.shape_some (f : Freed h h' d) {e : Nat} {s : Shape}
    (hs : h'.shapeOf e = some s) : h.shapeOf e = some s := by
  rw [f.shape] at hs
  rcases eq_or_ne e d with rfl | he
  · simp at hs
  · rwa [update_of_ne he] at hs

theorem Freed.dropped (f : Freed h h' d) : Dropped h h' d where
  world :=
    { caller := fun k => by rw [f.mem]
      callerLen := f.callerLen
      files := f.files
      next := Nat.le_of_eq f.next.symm
      page := fun hp _ => by rwa [f.pages] at hp
      data := fun hs _ => f.shape_some hs
      block := fun hn _ => f.blocks hn
      mapped := fun hs _ => f.shape_some hs
      mapping := fun hM => by rwa [f.mappings] at hM
      allocator := fun hA => by
        rw [f.mmapAllocators] at hA
        exact ⟨_, hA, rfl, rfl⟩ }
  pages := f.pages
  buffers := f.buffers
  next := f.next
  mem := f.mem
  other := fun he => by rw [f.shape, update_of_ne he]
  survivor := f.shape_some
  bytes := fun _ => Heap.byteAt_congr (by rw [f.mem]) f.mappings f.files

theorem Freed.allocs (f : Freed h h' d) {s : Shape} (ha : Allocs h) (hd : h.shapeOf d = some s)
    (hop : s.operations = .trivial) (hfd : ∀ {d}, (h.shapeOf d).isSome → d < h.next)
    (hfb : ∀ {b}, (h.buffers b).isSome → b < h.next) : Allocs h' := by
  have hm : Heap.MapsSame h h' := by
    intro e t hne
    rw [f.shape]
    rcases eq_or_ne e d with rfl | he
    · rw [update_self, hd]
      constructor
      · simp
      · rintro ⟨⟩
        exact absurd hop hne
    · rw [update_of_ne he]
  have hk : h'.kindOf = h.kindOf := by
    funext b
    simp [Heap.kindOf, f.buffers]
  exact ha.congr hm f.mmapAllocators f.mappings
    (Heap.allocRefs_congr hm hk (Nat.le_of_eq f.next.symm) hfd hfb) (Nat.le_of_eq f.next.symm)

/-- The count of the allocator that `d` holds, if it holds one, comes to zero only with
its last reference. -/
def Heap.CanRelease (h : Heap) (d : Nat) : Prop :=
  ∀ a, h.allocatorOf d = some a → h.allocRefs a % 65536 = 1 → h.allocRefs a = 1

/-- The invariants that `put` keeps, as far as the counters can count. -/
structure Counted (h : Heap) (c : Nat → Nat) : Prop where
  objs : Objs h c
  allocs : Allocs h
  buffers : ∀ {b}, (h.buffers b).isSome → b < h.next

theorem freeData_run (hD : (h.datas d).isSome) :
    freeData d h = .ok ((), h.setData d none) := if_pos hD

/-- The end of `pb_trivial_data_put`. -/
theorem dataRelease_trivial {c : Nat → Nat} (hc : Counted h c)
    (hs : h.shapeOf d = some D.shape) (hop : D.operations = .trivial) :
    Yields (dataRelease d D) (h.setData d (some D))
      (fun _ h' => Dropped h h' d ∧ (c d = 1 → Counted h' (dec c d))) := by
  have hcounted : ∀ {h'}, Freed h h' d → Objs h' (dec c d) → Counted h' (dec c d) := by
    intro h' f ho
    refine ⟨ho, f.allocs hc.allocs hs hop hc.objs.freshData hc.buffers, ?_⟩
    rw [f.buffers, f.next]
    exact hc.buffers
  unfold dataRelease
  simp only [hop]
  cases hr : D.responsibility with
  | owned =>
      obtain ⟨n, hbase, hblock⟩ := hc.objs.owned hs hop hr
      have hbase' : D.dataVec.base = ⟨.heap n, 0⟩ := hbase
      rw [if_pos rfl, hbase']
      refine Yields.step (allocatorFree_run (n := n) ?_) ?_
      · show (h.blocks n).isSome
        simp [hblock]
      · refine Yields.intro (freeData_run ?_) ?_
        · simp [Heap.setBlock, Heap.setData]
        · have f : Freed h (((h.setData d (some D)).setBlock n
              none).setData d none) d :=
            ⟨by simp [Heap.setData, Heap.setBlock], fun {m k} hm => by
              rcases eq_or_ne m n with rfl | hne
              · simp [Heap.setData, Heap.setBlock] at hm
              · have hb : update h.blocks n none m = some k := hm
                rwa [update_of_ne hne] at hb,
              rfl, rfl, rfl, rfl, rfl, rfl, rfl, rfl⟩
          refine ⟨f.dropped, fun hone => hcounted f ?_⟩
          exact hc.objs.drop hs hone f.datas (.inl ⟨n, congrArg Ptr.region hbase, rfl⟩) rfl
  | referenced =>
      obtain ⟨m, hm⟩ := hc.objs.referenced hs hop hr
      rw [if_neg (by simp)]
      refine Yields.intro (freeData_run (d := d) ?_) ?_
      · simp [Heap.setData]
      · have f : Freed h ((h.setData d (some D)).setData d none) d :=
          ⟨by simp [Heap.setData], fun hm => hm, rfl, rfl, rfl, rfl, rfl, rfl, rfl, rfl⟩
        refine ⟨f.dropped, fun hone => hcounted f ?_⟩
        refine hc.objs.drop hs hone f.datas (.inr ⟨fun n hn => ?_, rfl⟩) rfl
        rw [hm] at hn
        simp at hn

/-! ## Releasing mapped data -/

/-- A heap without the `pb_mmap_data` at `d` and its mapping; its allocator
is `o` now. -/
structure Unmapped (h h' : Heap) (d m a : Nat) (o : Option MmapAllocator) : Prop where
  datas : h'.datas = update h.datas d none
  mappings : h'.mappings = update h.mappings m none
  mmapAllocators : h'.mmapAllocators = update h.mmapAllocators a o
  pages : h'.pages = h.pages
  buffers : h'.buffers = h.buffers
  blocks : h'.blocks = h.blocks
  next : h'.next = h.next
  mem : h'.mem = h.mem
  callerLen : h'.callerLen = h.callerLen
  files : h'.files = h.files

/-- The allocator that has lost one of its data. -/
def MmapAllocator.without (A : MmapAllocator) (d : Nat) (obsolete : Bool) :
    Option MmapAllocator :=
  if u16Dec A.useCount = 0 then none
  else some { A with
    useCount := u16Dec A.useCount
    dataTree := if obsolete then A.dataTree else A.dataTree.erase d }

theorem munmap_run (m i : Nat) :
    munmap ⟨.mapped m, i⟩ h = .ok ((), h.setMapping m none) := rfl

/-- `pb_mmap_allocator_put`. -/
theorem mmapAllocatorPut_spec {a : Nat} {A : MmapAllocator}
    (hA : h.mmapAllocators a = some A) :
    Yields (mmapAllocatorPut a) h (fun _ h' => ∃ u, h' = { h with
      mmapAllocators := update h.mmapAllocators a
        (if u16Dec A.useCount = 0 then none
          else some { A with useCount := u16Dec A.useCount })
      unlinked := u }) := by
  unfold mmapAllocatorPut
  refine Yields.step (getMmapAllocator_run hA) (Yields.step (modify_run _) ?_)
  by_cases hz : u16Dec A.useCount = 0
  · rw [if_neg (by simpa using hz), if_pos hz]
    dsimp only
    split
    · next fd _ _ =>
        refine Yields.step (modify_run _) (Yields.intro (modify_run _)
          ⟨update h.unlinked fd.file true, ?_⟩)
        simp only [Heap.setMmapAllocator, update_idem]
    · refine Yields.intro (modify_run _) ⟨h.unlinked, ?_⟩
      simp only [Heap.setMmapAllocator, update_idem]
  · rw [if_pos (by simpa using hz), if_neg hz]
    exact yields_pure.mpr ⟨h.unlinked, rfl⟩

/-- `pb_mmap_allocator_data_destroy`. -/
theorem mmapAllocatorDataDestroy_spec {a m : Nat} {A : MmapAllocator} {obsolete : Bool}
    (hD : h.datas d = some D) (hA : h.mmapAllocators a = some A)
    (hbase : D.dataVec.base = ⟨.mapped m, 0⟩) (htree : obsolete = false → d ∈ A.dataTree) :
    Yields (mmapAllocatorDataDestroy a d obsolete) h
      (fun _ h' => Unmapped h h' d m a (A.without d obsolete)) := by
  -- all that follows the removal from the tree
  have rest : ∀ tree,
      Yields (do let D ← getData d; munmap D.dataVec.base; freeData d; mmapAllocatorPut a)
        (h.setMmapAllocator a (some { A with dataTree := tree }))
        (fun _ h' => Unmapped h h' d m a (if u16Dec A.useCount = 0 then none
          else some { A with useCount := u16Dec A.useCount, dataTree := tree })) := by
    intro tree
    refine Yields.step (getData_run (D := D) hD) ?_
    rw [hbase]
    refine Yields.step (munmap_run m 0) (Yields.step (freeData_run ?_) ?_)
    · simp [Heap.setMapping, Heap.setMmapAllocator, hD]
    · refine (mmapAllocatorPut_spec (A := { A with dataTree := tree }) ?_).mono ?_
      · simp [Heap.setData, Heap.setMapping, Heap.setMmapAllocator]
      · rintro _ _ ⟨u, rfl⟩
        exact ⟨rfl, rfl, by simp [Heap.setData, Heap.setMapping, Heap.setMmapAllocator],
          rfl, rfl, rfl, rfl, rfl, rfl, rfl⟩
  unfold mmapAllocatorDataDestroy
  cases obsolete with
  | true =>
      have hid : h.setMmapAllocator a (some { A with dataTree := A.dataTree }) = h := by
        simp [Heap.setMmapAllocator, ← hA]
      have := rest A.dataTree
      rw [hid] at this
      simpa [MmapAllocator.without] using this
  | false =>
      have hrun : dataTreeDel a d h = .ok ((),
          h.setMmapAllocator a (some { A with dataTree := A.dataTree.erase d })) := by
        refine (bind_run (getMmapAllocator_run hA)).trans ?_
        rw [if_pos (htree rfl)]
        rfl
      simp only [Bool.false_eq_true, if_false]
      exact Yields.step hrun (rest _)

namespace Unmapped

variable {m a : Nat} {o : Option MmapAllocator} (u : Unmapped h h' d m a o)

include u

theorem shape : h'.shapeOf = update h.shapeOf d none := by
  funext e
  rcases eq_or_ne e d with rfl | he <;> simp [Heap.shapeOf, u.datas, *]

theorem shape_some {e : Nat} {s : Shape} (hs : h'.shapeOf e = some s) :
    e ≠ d ∧ h.shapeOf e = some s := by
  rw [u.shape] at hs
  rcases eq_or_ne e d with rfl | he
  · simp at hs
  · exact ⟨he, by rwa [update_of_ne he] at hs⟩

/-- No other data lies in the mapping that is gone. -/
theorem region_ne {c : Nat → Nat} {s t : Shape} {e : Nat} (ho : Objs h c)
    (hd : h.shapeOf d = some s) (hm : s.dataVec.base.region = .mapped m)
    (he : h'.shapeOf e = some t) : t.dataVec.base.region ≠ .mapped m := by
  intro hr
  obtain ⟨hne, ht⟩ := u.shape_some he
  rcases ho.excl ht hd (hr.trans hm.symm) with ⟨k, hk⟩ | heq
  · rw [hr] at hk
    simp at hk
  · exact hne heq

theorem dropped {c : Nat → Nat} {s : Shape} {A : MmapAllocator} (ho : Objs h c)
    (hd : h.shapeOf d = some s) (hm : s.dataVec.base.region = .mapped m)
    (hA : h.mmapAllocators a = some A)
    (hkeep : ∀ {A'}, o = some A' → A'.fileFd = A.fileFd ∧
      A'.fileHeadOffset = A.fileHeadOffset) : Dropped h h' d where
  world :=
    { caller := fun k => by rw [u.mem]
      callerLen := u.callerLen
      files := u.files
      next := Nat.le_of_eq u.next.symm
      page := fun hp _ => by rwa [u.pages] at hp
      data := fun hs _ => (u.shape_some hs).2
      block := fun hn _ => by rwa [u.blocks] at hn
      mapped := fun hs _ => (u.shape_some hs).2
      mapping := fun {m' M} hM => by
        rw [u.mappings] at hM
        rcases eq_or_ne m' m with rfl | hne
        · simp at hM
        · rwa [update_of_ne hne] at hM
      allocator := fun {a' A'} hA' => by
        rw [u.mmapAllocators] at hA'
        rcases eq_or_ne a' a with rfl | hne
        · rw [update_self] at hA'
          exact ⟨A, hA, hkeep hA'⟩
        · rw [update_of_ne hne] at hA'
          exact ⟨A', hA', rfl, rfl⟩ }
  pages := u.pages
  buffers := u.buffers
  next := u.next
  mem := u.mem
  other := fun he => by rw [u.shape, update_of_ne he]
  survivor := fun hs => (u.shape_some hs).2
  bytes := fun {e t} he i => by
    have hne := u.region_ne ho hd hm he
    cases hr : t.dataVec.base.region with
    | mapped m' =>
        have hm' : m' ≠ m := fun heq => hne (by rw [hr, heq])
        simp only [Heap.byteAt, u.mappings, update_of_ne hm', u.files, u.mem]
    | _ => simp only [Heap.byteAt, u.mem]

theorem allocRefs (hfd : d < h.next) (hd : h.allocatorOf d = some a) (a' : Nat) :
    h'.allocRefs a' + (if a = a' then 1 else 0) = h.allocRefs a' := by
  have hal : h'.allocatorOf = update h.allocatorOf d none := by
    funext e
    rcases eq_or_ne e d with rfl | he <;> simp [Heap.allocatorOf, u.shape, *]
  have hbuf : h'.bufferAllocatorOf = h.bufferAllocatorOf := by
    funext b
    simp [Heap.bufferAllocatorOf, Heap.kindOf, u.buffers]
  have := holders_update (d := a') (f := h.allocatorOf) (v := none) hfd
  rw [hd] at this
  simp only [Option.some.injEq, reduceCtorEq, if_false] at this
  rw [Heap.allocRefs, Heap.allocRefs, hal, hbuf, u.next]
  omega

theorem allocs {c : Nat → Nat} {s : Shape} {A : MmapAllocator} {off : Nat} {obsolete : Bool}
    (ho : Objs h c) (ha : Allocs h) (hd : h.shapeOf d = some s)
    (hm : s.dataVec.base.region = .mapped m) (hop : s.operations = .mmap a off obsolete)
    (hA : h.mmapAllocators a = some A) (heq : o = A.without d obsolete)
    (hcr : h.CanRelease d) : Allocs h' := by
  subst heq
  have hda := Heap.allocatorOf_eq_some.mpr ⟨s, off, obsolete, hd, hop⟩
  have hcount := hcr a hda
  have hfd : d < h.next := ho.freshData (by rw [hd]; rfl)
  have hrefs := u.allocRefs hfd hda
  have hrefsa := hrefs a
  simp only [if_true] at hrefsa
  have huse := ha.count hA
  -- the allocator is gone exactly with its last reference
  have hlast : u16Dec A.useCount = 0 ↔ h'.allocRefs a = 0 := by
    rw [huse, u16Dec_mod (by omega)]
    omega
  have hsome : 0 < h'.allocRefs a → ∃ A', h'.mmapAllocators a = some A' ∧
      A'.useCount = u16Dec A.useCount ∧
      A'.dataTree = if obsolete then A.dataTree else A.dataTree.erase d := by
    intro hpos
    refine ⟨{ A with
      useCount := u16Dec A.useCount
      dataTree := if obsolete then A.dataTree else A.dataTree.erase d }, ?_, rfl, rfl⟩
    rw [u.mmapAllocators, update_self, MmapAllocator.without, if_neg (by omega)]
  have htree : ∀ {A'}, h'.mmapAllocators a = some A' → A'.useCount = u16Dec A.useCount ∧
      A'.dataTree = if obsolete then A.dataTree else A.dataTree.erase d := by
    intro A' hA'
    rw [u.mmapAllocators, update_self, MmapAllocator.without] at hA'
    split at hA'
    · simp at hA'
    · cases hA'
      exact ⟨rfl, rfl⟩
  have hmem : ∀ e, e ∈ (if obsolete then A.dataTree else A.dataTree.erase d) →
      e ≠ d ∧ e ∈ A.dataTree := by
    intro e he
    cases obsolete with
    | true =>
        refine ⟨?_, he⟩
        rintro rfl
        obtain ⟨t, off', ht, hop'⟩ := (ha.tree hA).2 e he
        rw [hd] at ht
        cases ht
        simp [hop] at hop'
    | false => exact ((ha.tree hA).1.mem_erase_iff).mp he
  exact
    { mapped := fun {e t a' off' ob'} he hop' => by
        obtain ⟨hne, ht⟩ := u.shape_some he
        obtain ⟨m', M, A', hbase, hM, hlen, hA', hin⟩ := ha.mapped ht hop'
        have hm' : m' ≠ m := by
          rintro rfl
          exact u.region_ne ho hd hm he (by rw [hbase])
        rcases eq_or_ne a' a with rfl | hne'
        · have hpos : 0 < h'.allocRefs a' := by
            have : h'.allocatorOf e = some a' :=
              Heap.allocatorOf_eq_some.mpr ⟨t, off', ob', he, hop'⟩
            have hlt : e < h'.next := by
              rw [u.next]
              exact ho.freshData (by rw [ht]; rfl)
            have := holders_pos_iff.mpr ⟨e, hlt, this⟩
            unfold Heap.allocRefs
            omega
          obtain ⟨A'', hA'', -, htr⟩ := hsome hpos
          refine ⟨m', M, A'', hbase, by rw [u.mappings, update_of_ne hm', hM], hlen, hA'', ?_⟩
          intro hob
          rw [hA] at hA'
          cases hA'
          rw [htr]
          cases obsolete with
          | true => exact hin hob
          | false => exact ((ha.tree hA).1.mem_erase_iff).mpr ⟨hne, hin hob⟩
        · exact ⟨m', M, A', hbase, by rw [u.mappings, update_of_ne hm', hM], hlen,
            by rw [u.mmapAllocators, update_of_ne hne', hA'], hin⟩
      tree := fun {a' A'} hA' => by
        rcases eq_or_ne a' a with rfl | hne
        · obtain ⟨-, htr⟩ := htree hA'
          rw [htr]
          refine ⟨?_, fun e he => ?_⟩
          · cases obsolete with
            | true => exact (ha.tree hA).1
            | false => exact (ha.tree hA).1.erase d
          · obtain ⟨hed, he⟩ := hmem e he
            obtain ⟨t, off', ht, hop'⟩ := (ha.tree hA).2 e he
            exact ⟨t, off', by rw [u.shape, update_of_ne hed, ht], hop'⟩
        · rw [u.mmapAllocators, update_of_ne hne] at hA'
          refine ⟨(ha.tree hA').1, fun e he => ?_⟩
          obtain ⟨t, off', ht, hop'⟩ := (ha.tree hA').2 e he
          have hed : e ≠ d := by
            rintro rfl
            rw [hd] at ht
            cases ht
            rw [hop] at hop'
            cases hop'
            exact hne rfl
          exact ⟨t, off', by rw [u.shape, update_of_ne hed, ht], hop'⟩
      count := fun {a' A'} hA' => by
        rcases eq_or_ne a' a with rfl | hne
        · rw [(htree hA').1, huse, u16Dec_mod (by omega)]
          congr 1
          omega
        · rw [u.mmapAllocators, update_of_ne hne] at hA'
          have := hrefs a'
          rw [if_neg hne.symm] at this
          rw [ha.count hA']
          omega
      live := fun a' => by
        rcases eq_or_ne a' a with rfl | hne
        · rw [u.mmapAllocators, update_self, MmapAllocator.without]
          split
          · simp only [Option.isSome_none, Bool.false_eq_true, false_iff]
            omega
          · simp only [Option.isSome_some, true_iff]
            omega
        · have := hrefs a'
          rw [if_neg hne.symm] at this
          rw [u.mmapAllocators, update_of_ne hne, ha.live a']
          omega
      freshMapping := fun {m'} hm' => by
        rw [u.mappings] at hm'
        rw [u.next]
        rcases eq_or_ne m' m with rfl | hne
        · simp at hm'
        · rw [update_of_ne hne] at hm'
          exact ha.freshMapping hm' }

end Unmapped

/-- The end of `pb_mmap_data_put`. -/
theorem dataRelease_mmap {c : Nat → Nat} {a off : Nat} {obsolete : Bool} (hc : Counted h c)
    (hs : h.shapeOf d = some D.shape) (hop : D.operations = .mmap a off obsolete) :
    Yields (dataRelease d D) (h.setData d (some D))
      (fun _ h' => Dropped h h' d ∧
        (c d = 1 → h.CanRelease d → Counted h' (dec c d))) := by
  obtain ⟨m, M, A, hbase, hM, -, hA, hin⟩ := hc.allocs.mapped hs hop
  have hm : D.shape.dataVec.base.region = .mapped m := congrArg Ptr.region hbase
  unfold dataRelease
  simp only [hop]
  refine (mmapAllocatorDataDestroy_spec (h := h.setData d (some D)) (D := D) (A := A)
    (m := m) ?_ hA hbase hin).mono ?_
  · simp [Heap.setData]
  · intro _ h' hu
    have u : Unmapped h h' d m a (A.without d obsolete) :=
      { hu with datas := by rw [hu.datas]; simp [Heap.setData] }
    refine ⟨u.dropped hc.objs hs hm hA ?_, fun hone hal => ⟨?_, ?_, ?_⟩⟩
    · intro A' hA'
      unfold MmapAllocator.without at hA'
      split at hA'
      · simp at hA'
      · cases hA'
        exact ⟨rfl, rfl⟩
    · refine hc.objs.drop hs hone u.datas (.inr ⟨fun n hn => ?_, u.blocks⟩) u.next
      rw [hm] at hn
      simp at hn
    · exact u.allocs hc.objs hc.allocs hs hm hop hA rfl hal
    · rw [u.buffers, u.next]
      exact hc.buffers

/-! ## `pb_data_put` and `pb_page_destroy` -/

theorem dataRelease_spec {c : Nat → Nat} (hc : Counted h c)
    (hs : h.shapeOf d = some D.shape) :
    Yields (dataRelease d D) (h.setData d (some D)) (fun _ h' => Dropped h h' d ∧
      (c d = 1 → h.CanRelease d → Counted h' (dec c d))) := by
  cases hop : D.operations with
  | trivial =>
      refine (dataRelease_trivial hc hs hop).mono ?_
      exact fun _ _ hd => ⟨hd.1, fun hone _ => hd.2 hone⟩
  | mmap a off ob => exact dataRelease_mmap hc hs hop

/-- `pb_data_put`: one reference less. -/
theorem dataPut_spec {c : Nat → Nat} (hc : Counted h c) (hpos : 0 < c d) :
    Yields (dataPut d) h (fun _ h' => Dropped h h' d ∧
      (c d ≤ 65536 → (c d = 1 → h.CanRelease d) → Counted h' (dec c d))) := by
  obtain ⟨D, hD⟩ := Heap.exists_data ((hc.objs.live d).mpr hpos)
  have hcount : u16Dec D.useCount = (c d - 1) % 65536 := by
    rw [hc.objs.count hD, u16Dec_mod hpos]
  have hs : h.shapeOf d = some (Data.shape { D with useCount := u16Dec D.useCount }) := by
    rw [Heap.shapeOf_eq hD]
    rfl
  unfold dataPut
  refine Yields.step (getData_run hD) (Yields.step (modify_run _) ?_)
  dsimp only
  split
  · next hne =>
      have hshape : (h.setData d (some { D with useCount := u16Dec D.useCount })).shapeOf
          = h.shapeOf := Heap.shape_recount hD rfl
      refine yields_pure.mpr ⟨?_, fun hle _ => ⟨?_, ?_, hc.buffers⟩⟩
      · exact
          { world := { World.refl h with
              data := fun hs _ => by rwa [hshape] at hs
              mapped := fun hs _ => by rwa [hshape] at hs }
            pages := rfl, buffers := rfl, next := rfl, mem := rfl
            other := fun _ => by rw [hshape]
            survivor := fun hs => by rwa [hshape] at hs
            bytes := fun _ => Heap.byteAt_congr rfl rfl rfl }
      · have : dec c d d = c d - 1 := update_self _ _ _
        refine hc.objs.recount hD rfl (by rw [this, hcount]) ?_
          (fun e he => update_of_ne he _ _) rfl (Nat.le_refl _)
        rw [this]
        omega
      · exact hc.allocs.congr (Heap.mapsSame_of_shape hshape) rfl rfl
          (Heap.allocRefs_congr (Heap.mapsSame_of_shape hshape) rfl (Nat.le_refl _)
            hc.objs.freshData hc.buffers) (Nat.le_refl _)
  · next hz =>
      have hone : c d ≤ 65536 → c d = 1 := by omega
      refine (dataRelease_spec hc hs).mono ?_
      exact fun _ _ hd => ⟨hd.1, fun hle hal => hd.2 (hone hle) (hal (hone hle))⟩

theorem Views.lenOf_none (hv : Views h) {p : Nat} (hd : h.dataOf p = none) :
    h.lenOf p = 0 := by
  by_contra hn
  have hlive : (h.pages p).isSome := by
    by_contra hno
    simp [Heap.lenOf, Heap.vecOf, Option.not_isSome_iff_eq_none.mp hno] at hn
  rcases hb : h.buffers p with _ | B
  · have := hv.data hlive hb
    simp [hd] at this
  · exact hn (hv.sentinel (by rw [hb]; rfl)).2

theorem Core.counted (hc : Core h R F X) : Counted h (h.count X) :=
  ⟨hc.objs, hc.allocs, hc.links.buffer_fresh⟩

/-- Data that is still referred to is as it was. -/
theorem Dropped.keeps {c : Nat → Nat} {e : Nat} {s : Shape} (dr : Dropped h h' d)
    (ho : Objs h' c) (hpos : 0 < c e) (hs : h.shapeOf e = some s) : h'.shapeOf e = some s := by
  obtain ⟨t, ht⟩ := Option.isSome_iff_exists.mp ((ho.live e).mpr hpos)
  have := dr.survivor ht
  rw [hs] at this
  rw [ht, this]

theorem Links.unflight (hl : Links h R (x :: F)) (hpages : h'.pages = update h.pages x none)
    (hb : h'.buffers = h.buffers) (hx : h'.next = h.next) : Links h' R F := by
  obtain ⟨hxF, hF⟩ := List.nodup_cons.mp hl.flight
  have hpx := hl.apart (p := x) (by simp)
  have hnx : h'.nextOf = update h.nextOf x none := by
    rw [Heap.nextOf_congr (h := h.setPage x none) hpages]
    exact Heap.nextOf_setPage
  have hpv : h'.prevOf = update h.prevOf x none := by
    rw [Heap.prevOf_congr (h := h.setPage x none) hpages]
    exact Heap.prevOf_setPage
  have hmem : ∀ b, (h.buffers b).isSome → ∀ y ∈ b :: R b, y ≠ x := by
    rintro b hb y hy rfl
    rcases List.mem_cons.mp hy with rfl | hy
    · simp [hpx.1] at hb
    · exact hpx.2 b hy
  exact
    { ring := fun {b} hb' => by
        rw [hb] at hb'
        rw [hnx, hpv]
        exact (hl.ring hb').congr (fun y hy => update_of_ne (hmem b hb' y hy) _ _)
          (fun y hy => update_of_ne (hmem b hb' y hy) _ _)
      dead := fun hb' => hl.dead (by rwa [hb] at hb')
      disj := hl.disj
      page := fun hp => by
        rw [hb]
        exact hl.page hp
      flight := hF
      apart := fun hp => by
        rw [hb]
        exact hl.apart (List.mem_cons_of_mem x hp)
      live := fun p => by
        rw [hpages, hb]
        rcases eq_or_ne p x with rfl | hne
        · simp [hpx, hxF]
        · rw [update_of_ne hne, hl.live p]
          simp [hne]
      fresh := fun {p} hp => by
        rw [hpages] at hp
        rw [hx]
        rcases eq_or_ne p x with rfl | hne
        · simp at hp
        · rw [update_of_ne hne] at hp
          exact hl.fresh hp }

theorem freePage_run (hx : (h.pages x).isSome) :
    freePage x h = .ok ((), h.setPage x none) := if_pos hx

/-- `pb_page_destroy` of a page that is not linked. -/
theorem pageDestroy_spec (hc : Core h R (x :: F) X) : ∃ d, h.dataOf x = some d ∧
    Yields (pageDestroy x) h (fun _ h' => ∃ h₁, Dropped h h₁ d ∧ h' = h₁.setPage x none ∧
      (h.count X d ≤ 65536 → (h.count X d = 1 → h.CanRelease d) →
        Core h' R F X ∧ Quiet (fun p => p ≠ x) h h')) := by
  have hlive : (h.pages x).isSome := (hc.links.live x).mpr (by simp)
  obtain ⟨P, hP⟩ := Option.isSome_iff_exists.mp hlive
  obtain ⟨d, hd⟩ := Option.isSome_iff_exists.mp
    (hc.views.data hlive (hc.links.apart (by simp)).1)
  have hxn := hc.page_fresh hd
  have hPd : P.data = some d := by rw [← Heap.dataOf_eq hP, hd]
  have hpos : 0 < h.count X d := by
    have := Heap.refs_pos hxn hd
    unfold Heap.count
    omega
  refine ⟨d, hd, ?_⟩
  unfold pageDestroy
  refine Yields.step (getPage_run hP) (Yields.step (deref_run hPd) ?_)
  refine Yields.bind (dataPut_spec hc.counted hpos) ?_
  rintro _ h₁ ⟨dr, hcount⟩
  refine Yields.intro (freePage_run (by rw [dr.pages, hP]; rfl)) ⟨h₁, dr, rfl, ?_⟩
  intro hle hal
  have hct := hcount hle hal
  have hdata : (h₁.setPage x none).dataOf = update h.dataOf x none := by
    rw [Heap.dataOf_setPage, Heap.dataOf_congr dr.pages]
    rfl
  have hvec : ∀ {p}, p ≠ x → (h₁.setPage x none).vecOf p = h.vecOf p := by
    intro p hp
    rw [Heap.vecOf_setPage, update_of_ne hp, Heap.vecOf_congr dr.pages]
  have hcnt : ∀ e, (h₁.setPage x none).count X e = dec (h.count X) d e := by
    intro e
    have := holders_update (d := e) (f := h.dataOf) (v := none) hxn
    simp only [reduceCtorEq, if_false, hd, Option.some.injEq] at this
    have hrefs : (h₁.setPage x none).refs e = holders h.next (update h.dataOf x none) e := by
      show holders h₁.next _ e = _
      rw [hdata, dr.next]
    rcases eq_or_ne e d with rfl | he
    · rw [dec, update_self, Heap.count, Heap.count, hrefs]
      simp only [if_true] at this
      unfold Heap.refs
      omega
    · rw [dec, update_of_ne he, Heap.count, Heap.count, hrefs]
      simp only [if_neg he.symm] at this
      unfold Heap.refs
      omega
  have hshape : ∀ {p e s}, p ≠ x → h.dataOf p = some e → h.shapeOf e = some s →
      h₁.shapeOf e = some s := by
    intro p e s hp he hs
    refine dr.keeps hct.objs ?_ hs
    rw [← hcnt, Heap.count]
    have := Heap.refs_pos (h := h₁.setPage x none) (p := p) (d := e)
      (by rw [show (h₁.setPage x none).next = h.next from dr.next]; exact hc.page_fresh he)
      (by rw [hdata, update_of_ne hp, he])
    omega
  constructor
  · exact
      { links := hc.links.unflight (by rw [← dr.pages]; rfl) dr.buffers dr.next
        views :=
          { data := fun {p} hp hb => by
              have hne : p ≠ x := by
                rintro rfl
                simp at hp
              rw [hdata, update_of_ne hne]
              rw [Heap.pages_setPage, update_of_ne hne, dr.pages] at hp
              exact hc.views.data hp (by rw [← dr.buffers]; exact hb)
            sentinel := fun {b} hb => by
              have hb' : (h.buffers b).isSome := by rw [← dr.buffers]; exact hb
              have hne : b ≠ x := by
                rintro rfl
                simp [(hc.links.apart (p := b) (by simp)).1] at hb'
              rw [hdata, Heap.lenOf, hvec hne, update_of_ne hne]
              exact hc.views.sentinel hb'
            region := fun {p e s} hp hs => by
              have hne : p ≠ x := by
                rintro rfl
                simp [hdata] at hp
              rw [hvec hne]
              rw [hdata, update_of_ne hne] at hp
              exact hc.views.region hp (dr.survivor hs) }
        objs := by
          have := hct.objs
          exact this.congr rfl (fun hD => ⟨_, hD, rfl⟩) rfl (Nat.le_refl _) hcnt
        allocs := hct.allocs.congr (Heap.mapsSame_of_shape rfl) rfl rfl (fun _ => rfl)
          (Nat.le_refl _)
        writable := fun b hb p hp => by
          have hne : p ≠ x := fun he => (hc.links.apart (by simp)).2 b (he ▸ hp)
          have hk : (h₁.setPage x none).kindOf b = h.kindOf b := by
            show (h₁.buffers b).map _ = _
            rw [dr.buffers]
            rfl
          refine (hc.writable b (hb.congr hk) p hp).congr ?_ (hvec hne) (hshape hne)
          rw [hdata, update_of_ne hne] }
  · exact
      { world := dr.world.trans { World.refl h₁ with
          page := fun {p} hp _ => by
            rcases eq_or_ne p x with rfl | hne
            · simp at hp
            · rwa [Heap.pages_setPage, update_of_ne hne] at hp }
        buffers := dr.buffers
        same := fun {p} hp =>
          { vec := hvec hp
            data := by rw [hdata, update_of_ne hp]
            bytes := by
              simp only [Heap.pageBytes, Heap.lenOf, hvec hp]
              by_cases hpd : (h.dataOf p).isSome
              · obtain ⟨e, he⟩ := Option.isSome_iff_exists.mp hpd
                obtain ⟨s, hs⟩ := hc.data_live he
                refine Heap.bytes_congr (fun i => ?_)
                rw [hc.views.region he hs]
                exact dr.bytes (hshape hp he hs) i
              · have hzero := hc.views.lenOf_none (Option.not_isSome_iff_eq_none.mp hpd)
                rw [show (h.vecOf p).len = 0 from hzero]
                rfl } }

/-- Where all data of pages is still referred to, the pages are as they were. -/
theorem Dropped.quiet {X' : List Nat} (dr : Dropped h h' d) (hc : Core h R F X)
    (hc' : Core h' R F X') (P : Nat → Prop) : Quiet P h h' where
  world := dr.world
  buffers := dr.buffers
  same := fun {p} _ =>
    { vec := congrFun (Heap.vecOf_congr dr.pages) p
      data := congrFun (Heap.dataOf_congr dr.pages) p
      bytes := by
        simp only [Heap.pageBytes, Heap.lenOf, Heap.vecOf_congr dr.pages]
        cases hd : h.dataOf p with
        | none =>
            rw [show (h.vecOf p).len = 0 from hc.views.lenOf_none hd]
            rfl
        | some e =>
            obtain ⟨s, hs⟩ := hc'.data_live (p := p) (d := e)
              (by rw [Heap.dataOf_congr dr.pages, hd])
            refine Heap.bytes_congr (fun i => ?_)
            rw [hc.views.region hd (dr.survivor hs)]
            exact dr.bytes hs i }

/-- `pb_data_put` of a reference held in hand. -/
theorem dataPut_hand (hc : Core h R F (d :: X)) :
    Yields (dataPut d) h (fun _ h' => Dropped h h' d ∧
      (h.count (d :: X) d ≤ 65536 → (h.count (d :: X) d = 1 → h.CanRelease d) →
        Core h' R F X)) := by
  have hpos : 0 < h.count (d :: X) d := by
    rw [Heap.count, List.count_cons_self]
    omega
  refine (dataPut_spec hc.counted hpos).mono ?_
  rintro _ h' ⟨dr, hcount⟩
  refine ⟨dr, fun hle hcr => ?_⟩
  have hct := hcount hle hcr
  have hcnt : ∀ e, h'.count X e = dec (h.count (d :: X)) d e := by
    intro e
    have hrefs : h'.refs e = h.refs e :=
      Heap.refs_congr (Heap.dataOf_congr dr.pages) (Nat.le_of_eq dr.next.symm) hc.links.fresh e
    rcases eq_or_ne e d with rfl | he
    · rw [dec, update_self, Heap.count, Heap.count, hrefs, List.count_cons_self]
      omega
    · rw [dec, update_of_ne he, Heap.count, Heap.count, hrefs, List.count_cons_of_ne he.symm]
  have hkeep : ∀ {p e s}, h.dataOf p = some e → h.shapeOf e = some s → h'.shapeOf e = some s := by
    intro p e s hp hs
    refine dr.keeps hct.objs ?_ hs
    rw [← hcnt, Heap.count, Heap.refs_congr (Heap.dataOf_congr dr.pages)
      (Nat.le_of_eq dr.next.symm) hc.links.fresh]
    have := Heap.refs_pos (hc.page_fresh hp) hp
    omega
  have hk : h'.kindOf = h.kindOf := by
    funext b
    simp [Heap.kindOf, dr.buffers]
  exact
    { links := hc.links.congr (Heap.nextOf_congr dr.pages) (Heap.prevOf_congr dr.pages)
        (fun b => by rw [dr.buffers]) (fun p => by rw [dr.pages]) (Nat.le_of_eq dr.next.symm)
      views := hc.views.congr (Heap.dataOf_congr dr.pages) (Heap.vecOf_congr dr.pages)
        (fun b => by rw [dr.buffers]) (fun p => by rw [dr.pages])
        (fun _ hs => dr.survivor hs)
      objs := hct.objs.congr rfl (fun hD => ⟨_, hD, rfl⟩) rfl (Nat.le_refl _) hcnt
      allocs := hct.allocs
      writable := hc.writable.congr (Heap.dataOf_congr dr.pages) (Heap.vecOf_congr dr.pages)
        hk hkeep }

end Pb
