import PageBuf.Invariant.Window

/-!
# WindowMap — the window grows by a page

A page for the bytes behind the window or before it: the lookup of its block
ends with a mapping of its own, as the blocks of the window are the only data
there is, and the page is linked at the end of the ring or at its head.
-/

namespace Pb

open StateRun Function Ring RefCount

variable {env : Env} {h h' h₁ g : Heap} {R : Nat → List Nat} {F X l₁ l₂ : List Nat}
  {a b d e x file head size off start : Nat} {A : MmapAllocator} {B : Buffer} {fd : Fd}
  {k : Block} {ks : List Block} {old : Option Nat}

/-! ## What keeps a block -/

/-- A block stays where its page and its data do. -/
theorem Heap.Shows.along (hk : h.Shows a file k) (w : World h h') (hc : Core h' R F X)
    (hs : Same h h' k.page) (hshape : h'.shapeOf k.data = h.shapeOf k.data) :
    h'.Shows a file k where
  data := by rw [hs.data, hk.data]
  shape := by rw [hshape, hk.shape]
  mapping := by
    have hd := hshape.trans hk.shape
    obtain ⟨m, M, A, hbase, hM, -⟩ := hc.allocs.mapped hd rfl
    simp only [Ptr.mk.injEq, Region.mapped.injEq, and_true] at hbase
    rw [← hbase] at hM
    rw [hM, ← hk.mapping]
    exact (w.mapping hM).symm
  vec := by rw [hs.vec, hk.vec]

/-- An mmap buffer keeps its allocator alive. -/
theorem Opened.along (ho : Opened h b a fd head) (w : World h h') (hc : Core h' R F X)
    (hk : h'.kindOf b = h.kindOf b) : Opened h' b a fd head where
  kind := hk.trans ho.kind
  allocator := by
    have hkind := hk.trans ho.kind
    have hb : (h'.buffers b).isSome := by
      rw [← h'.isSome_kindOf b, hkind]
      rfl
    have hholds : h'.bufferAllocatorOf b = some a := by
      rw [Heap.bufferAllocatorOf, hkind]
      rfl
    have hpos : 0 < h'.allocRefs a := by
      have := holders_pos_iff.mpr ⟨b, hc.links.buffer_fresh hb, hholds⟩
      unfold Heap.allocRefs
      omega
    obtain ⟨A', hA'⟩ := Option.isSome_iff_exists.mp ((hc.allocs.live a).mpr hpos)
    obtain ⟨A, hA, hfd, hhead⟩ := w.allocator hA'
    obtain ⟨A₀, hA₀, hfd₀, hhead₀⟩ := ho.allocator
    rw [hA] at hA₀
    cases hA₀
    exact ⟨A', hA', hfd.trans hfd₀, hhead.trans hhead₀⟩
  head := by
    rw [w.files]
    exact ho.head

theorem Heap.Shows.idle (hk : h.Shows a file k) (i : Idle h g) : g.Shows a file k where
  data := by rw [Heap.dataOf_congr i.pages, hk.data]
  shape := by rw [i.shape, hk.shape]
  mapping := by rw [i.mappings, hk.mapping]
  vec := by rw [Heap.vecOf_congr i.pages, hk.vec]

theorem Heap.kindOf_eq_none : h.kindOf b = none ↔ h.buffers b = none := by
  simp [Heap.kindOf]

/-- The window stays where only counters change. -/
theorem Maps.idle (m : Maps h R b a fd head ks) (i : Idle h g) (hi : Inv g R) :
    Maps g R b a fd head ks where
  inv := hi
  opened := m.opened.idle i
  alone := fun e he => by
    rw [← Heap.kindOf_eq_none, i.kind, Heap.kindOf_eq_none]
    exact m.alone e he
  ring := m.ring
  shows := fun k hk => (m.shows k hk).idle i
  once := m.once
  stretch := by
    rw [i.files]
    exact m.stretch
  first := m.first

/-! ## A page on a new mapping -/

/-- The page of the block `k` is there and not linked yet; its mapping may have
replaced another. -/
structure NewBlock (h h' : Heap) (R : Nat → List Nat) (b a : Nat) (fd : Fd) (head : Nat)
    (ks : List Block) (old : Option Nat) (k : Block) : Prop where
  core : Core h' R [k.page] []
  totals : Totals h' R
  buffers : h'.buffers = h.buffers
  files : h'.files = h.files
  opened : Opened h' b a fd head
  shows : ∀ k' ∈ ks, h'.Shows a fd.file (k'.replaced old)
  new : h'.Shows a fd.file k
  data : k.data ∉ ks.map Block.data

section NewPage

variable (h) (v : DataVec)

@[simp] theorem Heap.shapeOf_newPage : (h.newPage v d).shapeOf = h.shapeOf := rfl

@[simp] theorem Heap.dataOf_newPage :
    (h.newPage v d).dataOf = update h.dataOf h.next (some d) :=
  Heap.dataOf_setPage (h := h.granted)

@[simp] theorem Heap.vecOf_newPage : (h.newPage v d).vecOf = update h.vecOf h.next v :=
  Heap.vecOf_setPage (h := h.granted)

end NewPage

theorem Maps.newBlock (m : Maps h R b a fd head ks) (mp : Mapped h h₁ a off size A fd old)
    (start : Nat) :
    NewBlock h (h₁.newPage ⟨⟨.mapped h.next, start - off⟩, off + mmapLenOf size off - start⟩
      (h.next + 1)) R b a fd head ks old
      ⟨h.next + 2, h.next + 1, h.next, off, mmapLenOf size off, start, false⟩ := by
  have hc := m.inv.core
  have nm := mp.mapping
  have hc₁ := nm.core hc
  have hpages := nm.pages
  -- pages, data and mappings of the window are older
  have hpage : ∀ {c p}, p ∈ R c → p ≠ h₁.next := by
    intro c p hp
    have hlive := (hc.links.live p).mpr (.inr (.inl ⟨c, hp⟩))
    have := hc.links.fresh hlive
    have := mp.next
    omega
  have hdata : ∀ k ∈ ks, k.data ≠ h.next + 1 := by
    intro k hk
    have := hc.objs.freshData (d := k.data) (by rw [(m.shows k hk).shape]; rfl)
    omega
  have hmapping : ∀ k ∈ ks, k.mapping ≠ h.next := by
    intro k hk
    have := hc.allocs.freshMapping (m := k.mapping) (by rw [(m.shows k hk).mapping]; rfl)
    omega
  have hring : ∀ k ∈ ks, k.page ∈ R b := by
    intro k hk
    rw [m.ring]
    exact List.mem_map_of_mem hk
  have hone : h₁.count [h.next + 1] (h.next + 1) = 1 := by
    have hzero : ¬0 < h.count [] (h.next + 1) := by
      rw [← hc.objs.live, nm.data_fresh hc.objs]
      simp
    have hrefs : h₁.refs (h.next + 1) = h.refs (h.next + 1) :=
      Heap.refs_congr (Heap.dataOf_congr hpages) nm.le hc.links.fresh _
    simp only [Heap.count, List.count_nil, Nat.add_zero] at hzero
    simp only [Heap.count, List.count_cons_self, List.count_nil, hrefs]
    omega
  refine ⟨?_, ?_, nm.buffers, nm.files, ⟨?_, ?_, ?_⟩, ?_, ⟨?_, ?_, ?_, ?_⟩, ?_⟩
  · have hcore := hc₁.newPage (v := ⟨⟨.mapped h.next, start - off⟩,
      off + mmapLenOf size off - start⟩) nm.new (by simp) rfl (by omega)
    rwa [mp.next] at hcore
  · intro c C hC
    have hC' : h.buffers c = some C := by rw [← nm.buffers]; exact hC
    rw [m.inv.totals c C hC']
    refine congrArg List.sum (List.map_congr_left fun p hp => ?_)
    rw [Heap.lenOf, Heap.lenOf, Heap.vecOf_newPage, update_of_ne (hpage hp),
      Heap.vecOf_congr hpages]
  · exact (congrFun nm.kind b).trans m.opened.kind
  · obtain ⟨A₀, hA₀, hfd, hhead⟩ := m.opened.allocator
    rw [nm.allocator] at hA₀
    cases hA₀
    refine ⟨{ A with
      useCount := u16Inc A.useCount
      dataTree := (h.next + 1) :: treeWithout A.dataTree old }, ?_, hfd, hhead⟩
    exact (congrFun nm.mmapAllocators a).trans (update_self _ _ _)
  · show head ≤ (h₁.files fd.file).length
    rw [nm.files]
    exact m.opened.head
  · intro k hk
    have hshow := m.shows k hk
    refine ⟨?_, ?_, ?_, ?_⟩
    · rw [Block.page_replaced, Block.data_replaced, Heap.dataOf_newPage,
        update_of_ne (hpage (hring k hk)), Heap.dataOf_congr hpages, hshow.data]
    · rw [Block.data_replaced, Heap.shapeOf_newPage, nm.shape_other (hdata k hk), hshow.shape]
      unfold Block.replaced
      by_cases ho : old = some k.data
      · simp [ho, Shape.outdated, DataClass.outdated]
      · simp [ho]
    · show h₁.mappings _ = _
      rw [nm.mappings]
      unfold Block.replaced
      split
      · rw [update_of_ne (hmapping k hk), hshow.mapping]
      · rw [update_of_ne (hmapping k hk), hshow.mapping]
    · rw [Block.page_replaced, Block.start_replaced, Block.stop_replaced, Block.offset_replaced,
        Heap.vecOf_newPage, update_of_ne (hpage (hring k hk)), Heap.vecOf_congr hpages, hshow.vec]
      unfold Block.replaced
      split <;> rfl
  · rw [Heap.dataOf_newPage, mp.next, update_self]
  · exact nm.shape_new
  · exact (congrFun nm.mappings h.next).trans (update_self _ _ _)
  · rw [Heap.vecOf_newPage, mp.next, update_self]
    rfl
  · intro hd
    obtain ⟨k, hk, he⟩ := List.mem_map.mp hd
    exact hdata k hk he

/-- The page is made. -/
theorem Mapped.page_run (mp : Mapped h h₁ a off size A fd old) (hs : env.Succeeds)
    (distance len : Nat) : mmapAllocatorMapPage env (h.next + 1) distance len h₁
      = .ok (some (h.next + 2), h₁.newPage ⟨⟨.mapped h.next, distance⟩, len⟩ (h.next + 1)) := by
  rw [mmapAllocatorMapPage_run mp.mapping.new (by simp) (hs.memory _) (by simp), mp.next]
  simp [Ptr.add]

/-! ## Linking it -/

/-- `pb_trivial_buffer_insert` at the beginning of a page or at the end, after the
revision. -/
theorem trivialBufferInsert_link {it : Nat} (hbump : trivialBufferInsertBump env b it h = .ok ((), h₁))
    (hc : Core h₁ R (x :: F) X) (ht : Totals h₁ R) (hB : h₁.buffers b = some B)
    (hR : R b = l₁ ++ l₂) (hit : it = l₂.headD b) (hw : ¬h₁.WritesInPlace b) :
    Yields (trivialBufferInsert env b it 0 x) h
      (fun n h' => n = h₁.lenOf x ∧ Linked h₁ h' R F X b x l₁ l₂) := by
  have hb : (h₁.buffers b).isSome := by rw [hB]; rfl
  have hitmem : it ∈ b :: R b := by
    rw [hR, hit]
    exact List.cons_subset_cons b (List.subset_append_right l₁ l₂) (headD_mem b l₂)
  have hitlive := hc.links.node_live hb hitmem
  obtain ⟨N, hN⟩ := Option.isSome_iff_exists.mp hitlive
  have hring := hc.links.ring hb
  rw [hR] at hring
  have hNprev : N.prev = some (l₁.getLastD b) := by
    rw [← Heap.prevOf_eq hN, hit, hring.prev_cut]
  have hzero : (if 0 > h₁.lenOf it then h₁.lenOf it else 0) = 0 := by
    split <;> omega
  unfold trivialBufferInsert
  refine Yields.step hbump (Yields.step (pageGetLen_run hitlive) ?_)
  simp only [hzero, ne_eq, not_true_eq_false, if_false]
  refine Yields.step (getPage_run hN) ?_
  rw [hNprev, hit]
  exact linkPage_spec hc ht hB hR (fun hwp => absurd hwp hw)

theorem Opened.not_writesInPlace (ho : Opened h b a fd head) : ¬h.WritesInPlace b := by
  rintro ⟨σ, hσ, -⟩
  rw [ho.kind] at hσ
  cases hσ

/-- The window with one more block, which may have replaced the mapping of
another. -/
theorem NewBlock.linked {ks' : List Block} (m : Maps h R b a fd head ks)
    (n : NewBlock h h₁ R b a fd head ks old k) (i : Idle h₁ g)
    (hk : Linked g h' R [] [] b k.page l₁ l₂)
    (hB : g.buffers b = some B)
    (hpages : l₁ ++ k.page :: l₂ = ks'.map Block.page)
    (hblocks : ks'.Perm (k :: ks.map (Block.replaced old)))
    (hs : Stretch ks' (h.files fd.file).length)
    (hfirst : startOf ks' head = head ∨ head < startOf ks' head ∧ mmapBaseSize ∣ startOf ks' head) :
    Maps h' (update R b (l₁ ++ k.page :: l₂)) b a fd head ks' where
  inv := ⟨hk.core, hk.totals⟩
  opened := (n.opened.idle i).along hk.world hk.core (congrFun (hk.frame hB).kind b)
  alone := fun e he => by
    have hf := hk.frame hB
    rw [hf.buffer he, ← Heap.kindOf_eq_none, i.kind, Heap.kindOf_eq_none, n.buffers]
    exact m.alone e he
  ring := by rw [update_self, hpages]
  shows := fun k' hk' => by
    have hshow : h₁.Shows a fd.file k' := by
      rcases List.mem_cons.mp (hblocks.mem_iff.mp hk') with rfl | hk'
      · exact n.new
      · obtain ⟨k₀, hk₀, rfl⟩ := List.mem_map.mp hk'
        exact n.shows k₀ hk₀
    exact (hshow.idle i).along hk.world hk.core (hk.same _) (congrFun hk.shape _)
  once := by
    have hdata : (ks.map (Block.replaced old)).map Block.data = ks.map Block.data := by
      simp [Function.comp_def]
    rw [(hblocks.map Block.data).nodup_iff, List.map_cons, hdata]
    exact List.nodup_cons.mpr ⟨n.data, m.once⟩
  stretch := by
    have hfiles : h'.files = h.files := by rw [hk.world.files, i.files, n.files]
    rw [hfiles]
    exact hs
  first := hfirst

/-! ## Where a page lies in the file -/

theorem mmapPageFileOffset_block (hk : h.Shows a file k) (hle : k.offset ≤ k.start) :
    mmapPageFileOffset k.page h = .ok (some k.start, h) := by
  obtain ⟨P, hP, hdata⟩ := Option.bind_eq_some_iff.mp hk.data
  obtain ⟨D, hD, hshape⟩ := Option.map_eq_some_iff.mp hk.shape
  have hvec : P.dataVec = h.vecOf k.page := (Heap.vecOf_eq hP).symm
  have hop : D.operations = .mmap a k.offset k.obsolete := congrArg Shape.operations hshape
  have hbase : D.dataVec.base.offset = 0 := congrArg (fun s => s.dataVec.base.offset) hshape
  unfold mmapPageFileOffset
  refine (bind_run (getPage_run hP)).trans ?_
  rw [hdata]
  refine (bind_run (getData_run hD)).trans ?_
  rw [mmapFields, hop, hvec, hk.vec, hbase]
  show Except.ok (some (k.offset + wrapSub (k.start - k.offset) 0), h) = _
  rw [wrapSub_of_le (Nat.zero_le _), Nat.sub_zero, Nat.add_sub_cancel' hle]

theorem mmapPageFileOffset_end (hc : Core h R F X) (hb : (h.buffers b).isSome) :
    mmapPageFileOffset b h = .ok (none, h) := by
  obtain ⟨P, hP⟩ := Option.isSome_iff_exists.mp ((hc.links.live b).mpr (.inl hb))
  have hdata : P.data = none := by
    rw [← Heap.dataOf_eq hP]
    exact (hc.views.sentinel hb).1
  unfold mmapPageFileOffset
  refine (bind_run (getPage_run hP)).trans ?_
  rw [hdata]
  rfl

/-! ## What the lookup finds -/

theorem mmapLenOf_eq (hle : off ≤ size) : mmapLenOf size off = min mmapBaseSize (size - off) := by
  unfold mmapLenOf
  rw [wrapSub_of_le hle]
  split <;> omega

/-- A page from `start` on, on a mapping of its block up to the end of the file. -/
theorem Block.fits_mapped {page data mapping : Nat} {obsolete : Bool} (hlt : start < size)
    (hoff : off = mmapOffsetOf start) :
    Block.Fits ⟨page, data, mapping, off, mmapLenOf size off, start, obsolete⟩ size := by
  have hle : off ≤ start := by
    rw [hoff]
    exact Nat.div_mul_le_self _ _
  have hblock : start < off + mmapBaseSize := by
    simp only [hoff, mmapOffsetOf, mmapBaseSize]
    omega
  have hlen := mmapLenOf_eq (show off ≤ size by omega)
  refine ⟨hoff, ?_, ?_, ?_⟩
  · exact hlen ▸ Nat.min_le_left _ _
  · show start < off + mmapLenOf size off
    omega
  · show off + mmapLenOf size off ≤ size
    omega

namespace Maps

variable (m : Maps h R b a fd head ks)

include m

/-- Data in the tree is that of a block which is not obsolete. -/
theorem block_of_found {D : Data} (hD : h.datas d = some D) (hop : D.operations = .mmap a off false) :
    ∃ k ∈ ks, k.data = d ∧ k.offset = off ∧ k.obsolete = false ∧ k.len = D.dataVec.len := by
  obtain ⟨k, hk, rfl⟩ := m.block_of_data (Heap.shapeOf_eq hD)
  have hshape := (m.shows k hk).shape
  rw [Heap.shapeOf_eq hD] at hshape
  have hshape' := Option.some.inj hshape
  have hop' : D.operations = .mmap a k.offset k.obsolete := congrArg Shape.operations hshape'
  have hlen : D.dataVec.len = k.len := congrArg (fun s => s.dataVec.len) hshape'
  rw [hop] at hop'
  obtain ⟨-, hoff, hlive⟩ := DataClass.mmap.inj hop'
  exact ⟨k, hk, rfl, hoff.symm, hlive.symm, hlen.symm⟩

/-- A block that is not obsolete is in the tree. -/
theorem found_of_block (hA : h.mmapAllocators a = some A) (hk : k ∈ ks) (hlive : k.obsolete = false) :
    k.data ∈ A.dataTree := by
  have hshape := (m.shows k hk).shape
  obtain ⟨_, _, A', -, -, -, hA', hin⟩ := m.inv.core.allocs.mapped hshape rfl
  rw [hA] at hA'
  cases hA'
  exact hin hlive

theorem offset_le (hk : k ∈ ks) : k.offset ≤ k.start := by
  rw [(m.stretch.fits k hk).offset]
  exact Nat.div_mul_le_self _ _

/-- The page behind the window has a mapping of its own: a new one, or a longer
one than that of the last page. -/
theorem lookup_forward (hs : env.Succeeds) (hw : fd.writable = true)
    (hA : h.mmapAllocators a = some A) (hfd : A.fileFd = some fd)
    (hlt : stopOf ks head < (h.files fd.file).length) :
    ∃ h₁ old, mmapAllocatorMapBlock env a (mmapOffsetOf (stopOf ks head)) (stopOf ks head)
        (h.files fd.file).length h = .ok (some (h.next + 1,
          mmapLenOf (h.files fd.file).length (mmapOffsetOf (stopOf ks head))), h₁) ∧
      Mapped h h₁ a (mmapOffsetOf (stopOf ks head)) (h.files fd.file).length A fd old ∧
      ∀ l k', ks = l ++ [k'] → mmapOffsetOf (stopOf ks head) = k'.offset →
        (k'.replaced old).obsolete = true := by
  have hoff : mmapOffsetOf (stopOf ks head) ≤ stopOf ks head := Nat.div_mul_le_self _ _
  have hlen : 0 < mmapLenOf (h.files fd.file).length (mmapOffsetOf (stopOf ks head)) := by
    rw [mmapLenOf_eq (by omega)]
    simp only [mmapBaseSize]
    omega
  have hlookup := mmapAllocatorMapBlock_run hs m.inv.core hA hfd hw (stopOf ks head) hlen
  -- what is found is the last block, and its mapping ends where the window does
  have hfound : ∀ {d D}, h.datas d = some D →
      D.operations = .mmap a (mmapOffsetOf (stopOf ks head)) false →
      ∃ l k', ks = l ++ [k'] ∧ k'.data = d ∧
        mmapOffsetOf (stopOf ks head) + D.dataVec.len = stopOf ks head := by
    intro d D hD hop
    obtain ⟨k', hk', hd, hoff', hlive, hlen'⟩ := m.block_of_found hD hop
    obtain ⟨l, hl⟩ := m.stretch.last_of_offset hk' hlive hoff'
    refine ⟨l, k', hl, hd, ?_⟩
    have hstop : stopOf ks head = k'.stop := by rw [hl, stopOf_concat]
    rw [← hoff', ← hlen']
    exact hstop.symm
  generalize mmapAllocatorMapBlock env a _ _ _ h = r at hlookup
  cases hlookup with
  | created h₁ absent mapped =>
      refine ⟨h₁, none, rfl, mapped, fun l k' hl he => ?_⟩
      by_contra hlive
      have hk' : k' ∈ ks := by simp [hl]
      have hlive' : k'.obsolete = false := by simpa [Block.replaced] using hlive
      have hin := m.found_of_block hA hk' hlive'
      refine absent k'.data hin _ (m.shows k' hk').shape ?_
      rw [he, hlive']
  | held d D found data operations long =>
      obtain ⟨l, k', -, -, hstop⟩ := hfound data operations
      simp only [mmapBaseSize] at long
      omega
  | extended h₁ d D found data operations short grown mapped =>
      refine ⟨h₁, some d, rfl, mapped, fun l k' hl he => ?_⟩
      obtain ⟨l', k₂, hl', hd, -⟩ := hfound data operations
      have hsame : l = l' ∧ k' = k₂ := by
        have := hl.symm.trans hl'
        simpa using this
      rw [hsame.2, Block.replaced, hd, if_pos rfl]
  | kept d D found data operations short same =>
      obtain ⟨l, k', -, -, hstop⟩ := hfound data operations
      refine absurd ⟨?_, ?_⟩ same
      · simp only [mmapOffsetOf, mmapBaseSize] at hstop ⊢
        omega
      · omega

/-- Where the bytes behind the window lie, from what the code reads off the last page. -/
theorem forwardOffset_run (hos : env.SystemGrants) {β : Type} (f : Nat → Nat → PbM β) :
    (do
      let pageOffset ← mmapPageFileOffset ((R b).getLastD b)
      let fileSize ← mmapAllocatorGetFileSize env a
      let fileOffset ← match pageOffset with
        | some off => do
            let pageLen ← pageGetLen ((R b).getLastD b)
            pure (off + pageLen)
        | none => pure head
      f fileOffset fileSize : PbM β) h = f (stopOf ks head) (h.files fd.file).length h.granted := by
  obtain ⟨A, hA, hfd, -⟩ := m.opened.allocator
  have hc := m.inv.core
  have hsize := mmapAllocatorGetFileSize_run hos hA hfd
  rcases List.eq_nil_or_concat' ks with hnil | ⟨l, k, hl⟩
  · have hend : (R b).getLastD b = b := by rw [m.ring, hnil]; rfl
    rw [hend]
    refine (bind_run (mmapPageFileOffset_end hc m.opened.isSome)).trans ?_
    refine (bind_run hsize).trans ((bind_run rfl).trans ?_)
    rw [hnil]
    rfl
  · have hlast : (R b).getLastD b = k.page := by
      rw [m.ring, hl, List.map_append]
      exact getLastD_concat b _ _
    have hk : k ∈ ks := by simp [hl]
    have hfit := m.stretch.fits k hk
    have hlive : (h.granted.pages k.page).isSome :=
      hc.links.node_live m.opened.isSome (List.mem_cons_of_mem b (by
        rw [m.ring]
        exact List.mem_map_of_mem hk))
    rw [hlast]
    refine (bind_run (mmapPageFileOffset_block (m.shows k hk) (m.offset_le hk))).trans ?_
    refine (bind_run hsize).trans ?_
    refine (bind_run (pageGetLen_run hlive)).trans ((bind_run rfl).trans ?_)
    have hstop : k.start + h.granted.lenOf k.page = stopOf ks head := by
      have hlen : h.granted.lenOf k.page = h.lenOf k.page := rfl
      have := hfit.start
      rw [hlen, (m.shows k hk).lenOf, hl, stopOf_concat]
      omega
    rw [hstop]

/-- At the end of the file there is nothing behind the window. -/
theorem mapForward_end (hos : env.SystemGrants) (he : stopOf ks head = (h.files fd.file).length) :
    mmapAllocatorPageMapForward env a ((R b).getLastD b) h = .ok (none, h.granted) := by
  obtain ⟨A, hA, hfd, hhead⟩ := m.opened.allocator
  unfold mmapAllocatorPageMapForward
  refine (bind_run (getMmapAllocator_run hA)).trans ?_
  simp only [hfd, hhead]
  refine (m.forwardOffset_run hos _).trans ?_
  rw [if_pos he]
  rfl

/-- The window with the block behind it. -/
theorem stretch_forward (hlt : stopOf ks head < (h.files fd.file).length) (hfit : k.Fits (h.files fd.file).length)
    (hstart : k.start = stopOf ks head)
    (hlast : ∀ l k', ks = l ++ [k'] → k.offset = k'.offset → (k'.replaced old).obsolete = true) :
    Stretch (ks.map (Block.replaced old) ++ [k]) (h.files fd.file).length := by
  refine (@Stretch.append head _ _ _ (m.stretch.replaced old)) hfit (by rw [hstart, stopOf_replaced]) ?_
  intro l k' hl he
  obtain ⟨l₁, l₂, rfl, -, hl₂⟩ := List.map_eq_append_iff.mp hl
  obtain ⟨k₂, rfl, rfl⟩ := List.map_eq_singleton_iff.mp hl₂
  exact hlast l₁ k₂ rfl (by simpa using he)

/-- **The page behind the window.** -/
theorem mapForward (hs : env.Succeeds) (hw : fd.writable = true)
    (hlt : stopOf ks head < (h.files fd.file).length) :
    ∃ h₁ old k, mmapAllocatorPageMapForward env a ((R b).getLastD b) h = .ok (some k.page, h₁) ∧
      NewBlock h h₁ R b a fd head ks old k ∧ k.start = stopOf ks head ∧
      Stretch (ks.map (Block.replaced old) ++ [k]) (h.files fd.file).length := by
  obtain ⟨A, hA, hfd, hhead⟩ := m.opened.allocator
  have i := Idle.granted h
  have m₁ : Maps h.granted R b a fd head ks := m.idle i ⟨m.inv.core.idle i, m.inv.totals⟩
  obtain ⟨h₁, old, hlookup, mp, hlast⟩ := m₁.lookup_forward hs hw hA hfd hlt
  have hoff : mmapOffsetOf (stopOf ks head) ≤ stopOf ks head := Nat.div_mul_le_self _ _
  have hfiles : h.granted.files = h.files := rfl
  have hfit : Block.Fits ⟨h.granted.next + 2, h.granted.next + 1, h.granted.next,
      mmapOffsetOf (stopOf ks head), mmapLenOf (h.files fd.file).length (mmapOffsetOf (stopOf ks head)),
      stopOf ks head, false⟩ (h.files fd.file).length := Block.fits_mapped hlt rfl
  have hstop : stopOf ks head < mmapOffsetOf (stopOf ks head)
      + mmapLenOf (h.files fd.file).length (mmapOffsetOf (stopOf ks head)) := hfit.start
  have n := m₁.newBlock mp (stopOf ks head)
  refine ⟨_, old, _, ?_, { n with buffers := n.buffers, files := n.files }, rfl,
    m.stretch_forward hlt hfit rfl hlast⟩
  unfold mmapAllocatorPageMapForward
  refine (bind_run (getMmapAllocator_run hA)).trans ?_
  simp only [hfd, hhead]
  refine (m.forwardOffset_run hs.system _).trans ?_
  rw [if_neg (Nat.ne_of_lt hlt)]
  refine (bind_run hlookup).trans ?_
  dsimp only
  rw [wrapSub_of_le hoff, hfiles, wrapSub_of_le (Nat.le_of_lt hstop)]
  exact mp.page_run hs _ _

end Maps

/-! ## The revision -/

/-- An insertion at the end of a buffer that has bytes leaves the revision. -/
theorem insertBump_end (hos : env.SystemGrants) (ho : Opened h b a fd head)
    (hlt : head < (h.files fd.file).length) :
    trivialBufferInsertBump env b b h = .ok ((), h.granted) := by
  unfold trivialBufferInsertBump bufferIsEndIterator trivialBufferIsEndIterator
  simp only [decide_true, if_true]
  refine (bind_run (bufferGetDataSize_mmap hos ho)).trans ?_
  rw [if_neg (by omega)]
  rfl

/-- An insertion before a page bumps it. -/
theorem insertBump_front {it : Nat} (hB : h.buffers b = some B) (hit : it ≠ b) :
    trivialBufferInsertBump env b it h = .ok ((), h.bump b B 1) := by
  unfold trivialBufferInsertBump bufferIsEndIterator trivialBufferIsEndIterator
  simp only [hit, decide_false, Bool.false_eq_true, if_false]
  exact modifyBuffer_run hB _

/-! ## The window after a page -/

/-- What mapping a page changes besides the window: the revision, by `r`. -/
structure Turned (h h' : Heap) (b r : Nat) : Prop where
  files : h'.files = h.files
  revision : h'.revOf b = h.revOf b + r

theorem Turned.refl (h : Heap) (b : Nat) : Turned h h b 0 := ⟨rfl, rfl⟩

theorem Turned.trans {h'' : Heap} {r r' : Nat} (t : Turned h h' b r) (t' : Turned h' h'' b r') :
    Turned h h'' b (r + r') :=
  ⟨t'.files.trans t.files, by rw [t'.revision, t.revision, Nat.add_assoc]⟩

/-- **The page behind the window** is linked at the end of the ring. -/
theorem Maps.linkBehind (m : Maps h R b a fd head ks) (hos : env.SystemGrants)
    (n : NewBlock h h₁ R b a fd head ks old k)
    (hs : Stretch (ks.map (Block.replaced old) ++ [k]) (h.files fd.file).length)
    (hhead : head < (h.files fd.file).length)
    (hfirst : ks = [] → startOf [k] head = head ∨
      head < startOf [k] head ∧ mmapBaseSize ∣ startOf [k] head) :
    Yields (trivialBufferInsert env b b 0 k.page) h₁ (fun len h' => len ≠ 0 ∧ Turned h h' b 0 ∧
      Maps h' (update R b (R b ++ [k.page])) b a fd head (ks.map (Block.replaced old) ++ [k])) := by
  obtain ⟨B, hB, -⟩ := Option.map_eq_some_iff.mp n.opened.kind
  have hbump := insertBump_end hos n.opened (by rw [n.files]; exact hhead)
  have i := Idle.granted h₁
  have hfit := hs.fits k (by simp)
  refine ((@trivialBufferInsert_link _ _ _ _ _ _ (R b) []) hbump (n.core.idle i) n.totals hB
    (List.append_nil _).symm rfl (n.opened.idle i).not_writesInPlace).mono ?_
  intro len h' hpost
  obtain ⟨rfl, hk⟩ := hpost
  have hlen : h₁.granted.lenOf k.page = k.stop - k.start := n.new.lenOf
  have hpos := hfit.start
  refine ⟨by omega, ⟨?_, ?_⟩, ?_⟩
  · rw [hk.world.files]
    exact n.files
  · rw [hk.revision hB]
    show h₁.revOf b = _
    rw [Heap.revOf, Heap.revOf, n.buffers]
    rfl
  · refine n.linked m i hk hB ?_ (List.perm_append_singleton _ _) hs ?_
    · rw [m.ring, List.map_append, List.map_map]
      simp [Function.comp_def]
    · cases ks with
      | nil => exact hfirst rfl
      | cons k₀ ks => simpa using m.first

/-- **The page before the window** is linked at the head of the ring, which bumps
the revision. -/
theorem Maps.linkBefore (m : Maps h R b a fd head ks)
    (n : NewBlock h h₁ R b a fd head ks none k) (hne : ks ≠ [])
    (hs : Stretch (k :: ks) (h.files fd.file).length)
    (hfirst : k.start = head ∨ head < k.start ∧ mmapBaseSize ∣ k.start) :
    Yields (trivialBufferInsert env b ((R b).headD b) 0 k.page) h₁ (fun len h' => len ≠ 0 ∧
      Turned h h' b 1 ∧ Maps h' (update R b (k.page :: R b)) b a fd head (k :: ks)) := by
  obtain ⟨B, hB, -⟩ := Option.map_eq_some_iff.mp n.opened.kind
  have hB₁ : (h₁.bump b B 1).buffers b = some { B with dataRevision := B.dataRevision + 1 } :=
    update_self _ _ _
  have hnonempty : R b ≠ [] := by
    rw [m.ring]
    simpa using hne
  have hit : (R b).headD b ≠ b := by
    rw [ne_eq, m.inv.core.links.headD_eq_self_iff m.opened.isSome]
    exact hnonempty
  have i : Idle h₁ (h₁.bump b B 1) := Idle.bump hB 1
  have hfit := hs.fits k List.mem_cons_self
  have hsame : ks.map (Block.replaced none) = ks := by simp
  refine ((@trivialBufferInsert_link _ _ _ _ _ _ [] (R b)) (insertBump_front hB hit)
    (n.core.idle i) (n.totals.bump hB 1) hB₁ rfl rfl (n.opened.idle i).not_writesInPlace).mono ?_
  intro len h' hpost
  obtain ⟨rfl, hk⟩ := hpost
  have hlen : (h₁.bump b B 1).lenOf k.page = k.stop - k.start := n.new.lenOf
  have hpos := hfit.start
  refine ⟨by omega, ⟨?_, ?_⟩, ?_⟩
  · rw [hk.world.files]
    exact n.files
  · rw [hk.revision hB₁, Heap.revOf_bump hB, Heap.revOf, Heap.revOf, n.buffers]
  · refine n.linked m i hk hB₁ ?_ ?_ hs hfirst
    · rw [m.ring]
      rfl
    · rw [hsame]

/-! ## The page before the window -/

namespace Maps

variable (m : Maps h R b a fd head ks)

include m

/-- Where the bytes before the window lie, from what the code reads off the first page. -/
theorem backwardOffset_run (hos : env.SystemGrants) {β : Type} (f : Option Nat → Nat → PbM β) :
    (do
      let pageOffset ← mmapPageFileOffset ((R b).headD b)
      let fileSize ← mmapAllocatorGetFileSize env a
      f pageOffset fileSize : PbM β) h
      = f (ks.head?.map Block.start) (h.files fd.file).length h.granted := by
  obtain ⟨A, hA, hfd, -⟩ := m.opened.allocator
  have hsize := mmapAllocatorGetFileSize_run hos hA hfd
  cases hks : ks with
  | nil =>
      have hend : (R b).headD b = b := by rw [m.ring, hks]; rfl
      rw [hend]
      refine (bind_run (mmapPageFileOffset_end m.inv.core m.opened.isSome)).trans ?_
      exact (bind_run hsize).trans rfl
  | cons k l =>
      have hk : k ∈ ks := by simp [hks]
      have hfirst : (R b).headD b = k.page := by rw [m.ring, hks]; rfl
      rw [hfirst]
      refine (bind_run (mmapPageFileOffset_block (m.shows k hk) (m.offset_le hk))).trans ?_
      exact (bind_run hsize).trans rfl

/-- The window, or the end of the file, is in the file. -/
theorem first_le : (ks.head?.map Block.start).getD (h.files fd.file).length
    ≤ (h.files fd.file).length := by
  cases hks : ks with
  | nil => exact Nat.le_refl _
  | cons k l =>
      have hfit := m.stretch.fits k (by simp [hks])
      have hstart := hfit.start
      have hstop := hfit.stop
      show k.start ≤ _
      omega

/-- The block that ends at `cur`, the beginning of the window or the end of the
file, is not mapped. -/
theorem lookup_backward {cur : Nat} (hs : env.Succeeds) (hw : fd.writable = true)
    (hA : h.mmapAllocators a = some A) (hfd : A.fileFd = some fd)
    (hcur : cur = (ks.head?.map Block.start).getD (h.files fd.file).length)
    (hdvd : mmapBaseSize ∣ off) (hlt : off < cur) (hle : cur ≤ off + mmapBaseSize)
    (hwhole : ks ≠ [] → cur = off + mmapBaseSize) :
    ∃ h₁, mmapAllocatorMapBlock env a off start (h.files fd.file).length h
        = .ok (some (h.next + 1, mmapLenOf (h.files fd.file).length off), h₁) ∧
      Mapped h h₁ a off (h.files fd.file).length A fd none ∧
      off + mmapLenOf (h.files fd.file).length off = cur := by
  have hle' : cur ≤ (h.files fd.file).length := hcur ▸ m.first_le
  have hlenOf := mmapLenOf_eq (show off ≤ (h.files fd.file).length by omega)
  have hlen : 0 < mmapLenOf (h.files fd.file).length off := by
    rw [hlenOf]
    simp only [mmapBaseSize]
    omega
  have hstop : off + mmapLenOf (h.files fd.file).length off = cur := by
    rw [hlenOf]
    by_cases hks : ks = []
    · rw [hks] at hcur
      simp only [List.head?_nil, Option.map_none, Option.getD_none] at hcur
      omega
    · have := hwhole hks
      omega
  -- every block of the window begins behind the one that is looked up
  have habsent : ∀ {d D}, h.datas d = some D → D.operations ≠ .mmap a off false := by
    intro d D hD hop
    obtain ⟨k, hk, -, hoff, -, -⟩ := m.block_of_found hD hop
    have hne : ks ≠ [] := List.ne_nil_of_mem hk
    have hstart := m.stretch.start_le hk head
    have hfirst : startOf ks head = cur := by
      obtain ⟨k', l, rfl⟩ := List.exists_cons_of_ne_nil hne
      rw [hcur]
      rfl
    have hfit := (m.stretch.fits k hk).offset
    have := hwhole hne
    simp only [mmapOffsetOf, mmapBaseSize] at *
    omega
  have hlookup := mmapAllocatorMapBlock_run hs m.inv.core hA hfd hw start hlen
  generalize mmapAllocatorMapBlock env a _ _ _ h = r at hlookup
  cases hlookup with
  | created h₁ absent mapped => exact ⟨h₁, rfl, mapped, hstop⟩
  | held d D found data operations long => exact absurd operations (habsent data)
  | extended h₁ d D found data operations short grown mapped =>
      exact absurd operations (habsent data)
  | kept d D found data operations short same => exact absurd operations (habsent data)

/-- At the head there is nothing before the window. -/
theorem mapBackward_head (hos : env.SystemGrants)
    (he : (ks.head?.map Block.start).getD (h.files fd.file).length ≤ head) :
    mmapAllocatorPageMapBackward env a ((R b).headD b) h = .ok (none, h.granted) := by
  obtain ⟨A, hA, hfd, hhead⟩ := m.opened.allocator
  unfold mmapAllocatorPageMapBackward
  refine (bind_run (getMmapAllocator_run hA)).trans ?_
  simp only [hfd, hhead]
  refine (m.backwardOffset_run hos _).trans ?_
  rw [if_pos he]
  rfl

/-- **The page before the window.** -/
theorem mapBackward (hs : env.Succeeds) (hw : fd.writable = true) {cur : Nat}
    (hcur : cur = (ks.head?.map Block.start).getD (h.files fd.file).length) (hlt : head < cur) :
    ∃ h₁ k, mmapAllocatorPageMapBackward env a ((R b).headD b) h = .ok (some k.page, h₁) ∧
      NewBlock h h₁ R b a fd head ks none k ∧ k.stop = cur ∧
      (k.start = head ∨ head < k.start ∧ mmapBaseSize ∣ k.start) ∧
      Stretch (k :: ks) (h.files fd.file).length := by
  obtain ⟨A, hA, hfd, hhead⟩ := m.opened.allocator
  have i := Idle.granted h
  have m₁ : Maps h.granted R b a fd head ks := m.idle i ⟨m.inv.core.idle i, m.inv.totals⟩
  -- the block that ends at `cur`
  obtain ⟨off, hoff⟩ : ∃ off, off = if cur = mmapOffsetOf cur
      then wrapSub (mmapOffsetOf cur) mmapBaseSize else mmapOffsetOf cur := ⟨_, rfl⟩
  have hbounds : mmapBaseSize ∣ off ∧ off < cur ∧ cur ≤ off + mmapBaseSize ∧
      (mmapBaseSize ∣ cur → cur = off + mmapBaseSize) := by
    by_cases hc : cur = mmapOffsetOf cur
    · rw [if_pos hc] at hoff
      simp only [mmapOffsetOf, mmapBaseSize] at hc hoff ⊢
      rw [wrapSub_of_le (by omega)] at hoff
      omega
    · rw [if_neg hc] at hoff
      simp only [mmapOffsetOf, mmapBaseSize] at hc hoff ⊢
      omega
  obtain ⟨hdvd, hoffcur, hcuroff, haligned⟩ := hbounds
  have hwhole : ks ≠ [] → cur = off + mmapBaseSize := by
    intro hne
    obtain ⟨k, l, rfl⟩ := List.exists_cons_of_ne_nil hne
    have hfirst := m.first
    rw [startOf_cons] at hfirst
    have hstart : cur = k.start := hcur
    rcases hfirst with he | ⟨-, hdvd'⟩
    · omega
    · exact haligned (hstart ▸ hdvd')
  obtain ⟨start, hstart⟩ : ∃ start, start = if off > head then off else head := ⟨_, rfl⟩
  have hinside : off ≤ start ∧ head ≤ start ∧ start < cur ∧ off = mmapOffsetOf start ∧
      (start = head ∨ head < start ∧ mmapBaseSize ∣ start) := by
    simp only [mmapOffsetOf, mmapBaseSize] at *
    split at hstart <;> omega
  obtain ⟨hle, -, hstartcur, hblock, hfirst⟩ := hinside
  obtain ⟨h₁, hlookup, mp, hstop⟩ := m₁.lookup_backward hs hw hA hfd hcur hdvd
    hoffcur hcuroff hwhole
  have hfiles : h.granted.files = h.files := rfl
  rw [hfiles] at hstop
  have hcursize : cur ≤ (h.files fd.file).length := hcur ▸ m.first_le
  have hsize : start < (h.files fd.file).length := by omega
  have hfit : Block.Fits ⟨h.granted.next + 2, h.granted.next + 1, h.granted.next, off,
      mmapLenOf (h.files fd.file).length off, start, false⟩ (h.files fd.file).length :=
    Block.fits_mapped hsize hblock
  have n := m₁.newBlock mp start
  refine ⟨_, _, ?_, { n with buffers := n.buffers, files := n.files }, hstop, hfirst, ?_⟩
  · unfold mmapAllocatorPageMapBackward
    refine (bind_run (getMmapAllocator_run hA)).trans ?_
    simp only [hfd, hhead]
    refine (m.backwardOffset_run hs.system _).trans ?_
    rw [← hcur, if_neg (by omega), ← hoff, ← hstart]
    refine (bind_run hlookup).trans ?_
    dsimp only
    rw [wrapSub_of_le hle, wrapSub_of_le (Nat.le_of_lt hstartcur), ← hstop]
    exact mp.page_run hs _ _
  · refine m.stretch.cons head hfit fun hne => ⟨?_, ?_⟩
    · obtain ⟨k, l, rfl⟩ := List.exists_cons_of_ne_nil hne
      exact hstop.trans hcur
    · have hcur' := hwhole hne
      show mmapLenOf (h.files fd.file).length off = mmapBaseSize
      omega

end Maps

end Pb
