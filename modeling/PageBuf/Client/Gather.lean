import PageBuf.Invariant.FileCalls
import PageBuf.Client.PageSizes
import PageBuf.Client.Transfers

/-!
# Gather — a buffer written to a file

`pb_mmap_buffer_write_buffer` collects the pages of its source in a vector that
one `writev` takes. The vector doubles as it fills up, until it has 1024 entries:
what lies on later pages is left out, and the returned count says so.
-/

namespace Pb

open StateRun Function Ring

variable {env : Env} {h h' g : Heap} {R : Nat → List Nat} {m₁ m₂ : List Nat}
  {b a src len head : Nat} {fd : Fd} {s : GatherLoop}

/-! ## The vector -/

/-- The bytes that the entries of a vector stand for. -/
def Heap.vectorBytes (h : Heap) (iov : List DataVec) : List UInt8 :=
  iov.flatMap fun v => h.bytes v.base v.len

theorem memReadVector_run (iov : List DataVec) (h : Heap) :
    ∃ o, memReadVector iov h = .ok (h.vectorBytes iov, { h with overread := o }) := by
  induction iov generalizing h with
  | nil => exact ⟨h.overread, rfl⟩
  | cons v iov ih =>
      obtain ⟨o, hrun⟩ := ih { h with overread := h.overread || !h.inBounds v.base v.len }
      refine ⟨o, ?_⟩
      unfold memReadVector
      exact (bind_run (memRead_run _ _)).trans ((bind_run hrun).trans rfl)

theorem Idle.vectorBytes (i : Idle h g) (hm : g.mem = h.mem) (iov : List DataVec) :
    g.vectorBytes iov = h.vectorBytes iov :=
  List.flatMap_congr fun v _ =>
    Heap.bytes_congr (Heap.byteAt_congr (by rw [hm]) i.mappings i.files)

/-- A vector of `n` entries with room for `iovlim`, a power of two from 2 to 1024. -/
structure VectorRoom (n iovlim : Nat) : Prop where
  entries : n ≤ iovlim
  limit : ∃ k, k ≤ 9 ∧ iovlim = 2 ^ (k + 1)

theorem VectorRoom.le {n iovlim : Nat} (r : VectorRoom n iovlim) : iovlim ≤ 1024 := by
  obtain ⟨k, hk, rfl⟩ := r.limit
  exact Nat.pow_le_pow_right (by omega) (show k + 1 ≤ 10 by omega)

/-- There is room for one more entry, unless there are 1024. -/
theorem growVector_run (hs : env.Succeeds) (room : VectorRoom s.iov.length s.iovlim) (h : Heap) :
    ∃ r g, growVector env s h = .ok (r, g) ∧ Idle h g ∧ g.mem = h.mem ∧
      match r with
      | none => s.iov.length = 1024
      | some iovlim => VectorRoom (s.iov.length + 1) iovlim := by
  have hentries := room.entries
  obtain ⟨k, hk, hlim⟩ := room.limit
  unfold growVector
  by_cases hfull : s.iov.length = s.iovlim
  · by_cases hmax : s.iovlim = 1024
    · refine ⟨none, h, ?_, Idle.refl h, rfl, hfull.trans hmax⟩
      rw [if_pos hfull, if_pos hmax]
      rfl
    · refine ⟨some (s.iovlim * 2), h.granted, ?_, Idle.granted h, rfl, ?_, k + 1, ?_, ?_⟩
      · rw [if_pos hfull, if_neg hmax]
        exact (bind_run (request_succeeds hs h)).trans rfl
      · have hpos : 0 < s.iovlim := by rw [hlim]; exact Nat.two_pow_pos _
        omega
      · have hne : k ≠ 9 := by
          rintro rfl
          exact hmax hlim
        omega
      · rw [hlim]
        exact (Nat.pow_succ 2 (k + 1)).symm
  · refine ⟨some s.iovlim, h, ?_, Idle.refl h, rfl, by omega, k, hk, hlim⟩
    rw [if_neg hfull]
    rfl

/-! ## The loop -/

/-- The loop after some rounds: the pages `m₁` of the source have their entries,
the last of which may be cut short. -/
structure Gathered (h : Heap) (R : Nat → List Nat) (src len : Nat) (s : GatherLoop)
    (m₁ m₂ : List Nat) : Prop where
  source : R src = m₁ ++ m₂
  srcIt : s.srcIt = m₂.headD src
  entries : s.iov.length = m₁.length
  room : VectorRoom s.iov.length s.iovlim
  bytes : h.vectorBytes s.iov = (h.flat m₁).take len
  left : s.len = len - (h.flat m₁).length

theorem Gathered.length_le (t : Gathered h R src len s m₁ m₂) : m₁.length ≤ 1024 := by
  have hle := t.room.le
  have hentries := t.room.entries
  rw [t.entries] at hentries
  omega

/-- Nothing more can be gathered: there is no length left, no page or no room. -/
theorem Gathered.done (t : Gathered h R src len s m₁ m₂)
    (hend : s.len = 0 ∨ m₂ = [] ∨ m₁.length = 1024) :
    h.vectorBytes s.iov = (h.flat ((R src).take 1024)).take len := by
  have hle := t.length_le
  have hleft := t.left
  have hcut : (R src).take 1024 = m₁ ++ m₂.take (1024 - m₁.length) := by
    rw [t.source, List.take_append, List.take_of_length_le hle]
  rw [t.bytes, hcut, Heap.flat_append]
  rcases hend with hz | rfl | hfull
  · rw [List.take_append_of_le_length (by omega)]
  · simp
  · rw [hfull]
    simp

/-- The next page has its entry, cut at what is left of the length. -/
theorem Gathered.next {p iovlim : Nat} {v : DataVec} (t : Gathered h R src len s m₁ (p :: m₂))
    (hbase : v.base = (h.vecOf p).base) (hlen : v.len = min (h.lenOf p) s.len)
    (room : VectorRoom (s.iov.length + 1) iovlim) :
    Gathered h R src len ⟨m₂.headD src, s.len - v.len, s.iov ++ [v], iovlim⟩ (m₁ ++ [p]) m₂ where
  source := by rw [t.source]; simp
  srcIt := rfl
  entries := by simp [t.entries]
  room := by simpa using room
  bytes := by
    have hentry : h.bytes v.base v.len = (h.pageBytes p).take s.len := by
      rw [hbase, hlen, Heap.pageBytes, ← Heap.bytes_take _ (Nat.min_le_left _ _)]
      exact List.take_eq_take_iff.mpr (by simp [Nat.min_comm])
    have hold := t.bytes
    simp only [Heap.vectorBytes, List.flatMap_append, List.flatMap_singleton] at hold ⊢
    rw [hold, hentry, Heap.flat_append, List.take_append, ← t.left]
    simp
  left := by
    have hleft := t.left
    simp only [Heap.flat_append, Heap.flat_cons, Heap.flat_nil, List.append_nil,
      List.length_append, Heap.length_pageBytes]
    omega

/-- **One round**: the next page has its entry, or the vector is done. -/
theorem gatherRound_spec (hs : env.Succeeds) (hi : Inv h R) (ht : h.IsTrivial src)
    (i : Idle h g) (hm : g.mem = h.mem) (t : Gathered h R src len s m₁ m₂) :
    Yields (gatherRound env src s) g (fun r g' => (Idle h g' ∧ g'.mem = h.mem) ∧
      match r with
      | .inl s' => ∃ p m₃, m₂ = p :: m₃ ∧ Gathered h R src len s' (m₁ ++ [p]) m₃
      | .inr iov => h.vectorBytes iov = (h.flat ((R src).take 1024)).take len) := by
  have hl := hi.core.links
  have hend : s.srcIt = src ↔ m₂ = [] := by
    rw [t.srcIt]
    exact hl.headD_eq_iff ht.isSome t.source
  unfold gatherRound bufferIsEndIterator trivialBufferIsEndIterator
  by_cases hz : s.len = 0 ∨ m₂ = []
  · rw [if_pos (by simpa [hend] using hz)]
    exact yields_pure.mpr ⟨⟨i, hm⟩, t.done (hz.imp id .inl)⟩
  · rw [if_neg (by simpa [hend] using hz)]
    rw [not_or] at hz
    obtain ⟨p, m₃, rfl⟩ := List.exists_cons_of_ne_nil hz.2
    obtain ⟨r, g₁, hrun, j, hm₁, hroom⟩ := growVector_run hs t.room g
    have i₁ := i.trans j
    refine Yields.step hrun ?_
    cases r with
    | none =>
        have hfull : m₁.length = 1024 := by rw [← t.entries, hroom]
        exact yields_pure.mpr ⟨⟨i₁, hm₁.trans hm⟩, t.done (.inr (.inr hfull))⟩
    | some iovlim =>
        have hit : s.srcIt = p := t.srcIt
        have hl₁ := hl.congr (Heap.nextOf_congr i₁.pages) (Heap.prevOf_congr i₁.pages)
          (Heap.buffers_isSome_congr i₁.kind) (fun p => by rw [i₁.pages]) i₁.next
        have ht₁ := ht.congr i₁.kind
        have hp : (g₁.pages p).isSome :=
          hl₁.node_live ht₁.isSome (List.mem_cons_of_mem src (by simp [t.source]))
        rw [hit]
        refine Yields.step (pageGetLen_run hp) (Yields.step (pageGetBase_run hp) ?_)
        refine Yields.step (bufferNextIterator_run ht₁ hl₁ t.source) (yields_pure.mpr ?_)
        have hbase : (g₁.vecOf p).base = (h.vecOf p).base := by rw [Heap.vecOf_congr i₁.pages]
        have hcut : (if g₁.lenOf p < s.len then g₁.lenOf p else s.len) = min (h.lenOf p) s.len := by
          rw [Heap.lenOf_congr i₁.pages]
          split <;> omega
        exact ⟨⟨i₁, hm₁.trans hm⟩, p, m₃, rfl,
          t.next (v := ⟨(g₁.vecOf p).base, _⟩) hbase hcut hroom⟩

/-- **The loop** gathers the bytes of the first 1024 pages. -/
theorem gatherLoop_spec (hs : env.Succeeds) (hi : Inv h R) (ht : h.IsTrivial src)
    (i : Idle h g) (hm : g.mem = h.mem) (len : Nat) :
    Yields (loopM .diverges (gatherRound env src) 1025 ⟨(R src).headD src, len, [], 2⟩) g
      (fun iov g' => (Idle h g' ∧ g'.mem = h.mem) ∧
        h.vectorBytes iov = (h.flat ((R src).take 1024)).take len) := by
  have hinit : Gathered h R src len ⟨(R src).headD src, len, [], 2⟩ [] (R src) :=
    { source := rfl, srcIt := rfl, entries := rfl, bytes := by simp [Heap.vectorBytes], left := rfl
      room := ⟨Nat.zero_le _, 0, by omega, rfl⟩ }
  refine Yields.loop (I := fun n s g' => (Idle h g' ∧ g'.mem = h.mem) ∧
    ∃ m₁ m₂, Gathered h R src len s m₁ m₂ ∧ n + m₁.length = 1024) ?_ _ 1024 _ _
    ⟨⟨i, hm⟩, [], R src, hinit, rfl⟩ (Nat.lt_succ_self _)
  intro n s g' hI
  obtain ⟨⟨i', hm'⟩, m₁, m₂, t, hn⟩ := hI
  refine (gatherRound_spec hs hi ht i' hm' t).mono ?_
  intro r g'' hr
  obtain ⟨hidle, hr⟩ := hr
  cases r with
  | inr iov => exact ⟨hidle, hr⟩
  | inl s' =>
      obtain ⟨p, m₃, -, t'⟩ := hr
      have hle := t'.length_le
      rw [List.length_append, List.length_singleton] at hle
      refine ⟨n - 1, by omega, hidle, m₁ ++ [p], m₃, t', ?_⟩
      rw [List.length_append, List.length_singleton]
      omega

/-! ## The write -/

/-- **Writing a buffer to a file**: what the first 1024 pages of the source have
of the first `len` bytes is appended to the file, if that may be written. -/
theorem mmapBufferWriteBuffer_appends (hs : env.Succeeds) (hi : Inv h R) (ht : h.IsTrivial src)
    (ho : Opened h b a fd head) (len : Nat) :
    Yields (bufferWriteBuffer env b src len) h (fun n h' =>
      n = (if fd.writable then min len (h.flat ((R src).take 1024)).length else 0) ∧
      Filed h h' fd.file (h.files fd.file ++
        if fd.writable then (h.flat ((R src).take 1024)).take len else [])) := by
  obtain ⟨B, hB, hk⟩ := Option.map_eq_some_iff.mp ho.kind
  obtain ⟨h₁, hrun, i, hm, -, -⟩ := bumpIfEmpty_run hs.system ho
    (mmapAllocatorWriteDataBuffer env a src len)
  obtain ⟨A, hA, hfd, -⟩ := (ho.idle i).allocator
  have hc₁ := hi.core.idle i
  have ht₁ := ht.congr i.kind
  have hcall : bufferWriteBuffer env b src len h = mmapBufferWriteBuffer env b a src len h := by
    refine (bind_run (getBuffer_run hB)).trans ?_
    rw [(Prod.mk.inj hk).2]
  refine Yields.of_eq (hcall.trans hrun) ?_
  unfold mmapAllocatorWriteDataBuffer
  refine Yields.step (getMmapAllocator_run hA) ?_
  rw [hfd]
  refine Yields.step (bufferGetIterator_run ht₁ hc₁.links) ?_
  unfold bufferIsEndIterator trivialBufferIsEndIterator
  simp only [decide_eq_true_eq, hc₁.links.headD_eq_self_iff ht₁.isSome]
  by_cases hnil : R src = []
  · rw [if_pos hnil]
    refine yields_pure.mpr ⟨by simp [hnil], ?_⟩
    simpa [hnil] using Filed.unchanged i hm fd.file
  · rw [if_neg hnil]
    refine Yields.step (request_succeeds hs h₁) ?_
    refine Yields.bind (gatherLoop_spec hs hi ht (i.trans (Idle.granted h₁)) hm len) ?_
    intro iov g hg
    obtain ⟨⟨j, hmg⟩, hbytes⟩ := hg
    obtain ⟨o, hread⟩ := memReadVector_run iov g
    obtain ⟨r, h', hwrite, hcount, -, f⟩ := writeFile_appends hs fd (g.vectorBytes iov)
      { g with overread := o }
    have hwritev : writevFile env fd iov g = .ok (r, h') := (bind_run hread).trans hwrite
    have f' := f.before (h := h) (g := { g with overread := o }) { j with } hmg
    have hfiles : g.files fd.file = h.files fd.file := congrFun j.files fd.file
    have hvector : g.vectorBytes iov = (h.flat ((R src).take 1024)).take len := by
      rw [j.vectorBytes hmg, hbytes]
    refine Yields.step hwritev (yields_pure.mpr ⟨?_, ?_⟩)
    · rw [hcount, hvector, List.length_take]
    · rw [← hvector, ← hfiles]
      exact f'

/-- All of it is appended to a file that may be written. -/
theorem mmapBufferWriteBuffer_spec (hs : env.Succeeds) (hi : Inv h R) (ht : h.IsTrivial src)
    (ho : Opened h b a fd head) (hw : fd.writable = true) (len : Nat) :
    Yields (bufferWriteBuffer env b src len) h (fun n h' =>
      n = min len (h.flat ((R src).take 1024)).length ∧
      Filed h h' fd.file (h.files fd.file ++ (h.flat ((R src).take 1024)).take len)) := by
  simpa only [hw, if_true] using mmapBufferWriteBuffer_appends hs hi ht ho len

/-! ## The two classes -/

namespace Heap

/-- What the page has of a mapping is in the file. -/
def InFile (h : Heap) (p : Nat) : Bool :=
  match (h.vecOf p).base.region with
  | .mapped m =>
      match h.mappings m with
      | some M => M.offset + (h.vecOf p).base.offset + h.lenOf p ≤ (h.files M.file).length
      | none => true
  | _ => true

/-- Every page of the buffer can be read. -/
def Readable (h : Heap) (b : Nat) : Prop := ∀ p ∈ h.pagesOf b, h.InFile p

/-- The bytes of the first 1024 pages of a buffer. -/
def firstPages (h : Heap) (b : Nat) : List UInt8 := h.flat ((h.pagesOf b).take 1024)

theorem firstPages_isPrefix (h : Heap) (b : Nat) : h.firstPages b <+: h.content b := by
  refine ⟨h.flat ((h.pagesOf b).drop 1024), ?_⟩
  rw [firstPages, ← flat_append, List.take_append_drop]
  rfl

end Heap

/-- A page that can be read is as it was when its file has grown. -/
theorem Filed.pageBytes {file p : Nat} {bs : List UInt8}
    (f : Filed h h' file (h.files file ++ bs)) (hp : h.InFile p) :
    h'.pageBytes p = h.pageBytes p := by
  have hpages : h'.pages = h.pages := f.idle.pages
  have hvec : h'.vecOf p = h.vecOf p := by rw [Heap.vecOf_congr hpages]
  have hmap : h'.mappings = h.mappings := f.idle.mappings
  have hfiles : h'.files = update h.files file (h.files file ++ bs) := f.idle.files
  rw [Heap.pageBytes, Heap.pageBytes, Heap.lenOf, Heap.lenOf, hvec]
  refine List.map_congr_left fun k hk => ?_
  rw [List.mem_range] at hk
  unfold Heap.InFile Heap.lenOf at hp
  cases hr : (h.vecOf p).base.region with
  | mapped m =>
      simp only [hr, Heap.byteAt, hmap] at hp ⊢
      cases hM : h.mappings m with
      | none => simp only [f.mem]
      | some M =>
          simp only [hM, decide_eq_true_eq] at hp
          simp only [hfiles]
          by_cases hfile : M.file = file
          · subst hfile
            rw [update_self, List.getD_eq_getElem?_getD, List.getD_eq_getElem?_getD,
              List.getElem?_append_left (by omega)]
          · rw [update_of_ne hfile]
  | _ => simp only [Heap.byteAt, f.mem]

/-- Pages of one byte. -/
def bytePages : Strategy := { trivialBufferStrategy with pageSize := 1 }

/-- A buffer with `buf` on pages of one byte. -/
def Heap.onePageEach (buf : List UInt8) : Heap :=
  (Heap.blank.withBuffer bytePages).after .generous (.writeData 1 buf)

theorem succeeds_generous : Env.generous.Succeeds where
  memory := fun _ => rfl
  system := fun _ => rfl
  writes := fun _ _ => rfl

theorem reachable_bytePages : Reachable .generous (Heap.blank.withBuffer bytePages) :=
  reachable_blank.withBuffer (fun _ => rfl) bytePages

theorem Core.footing {F X : List Nat} (hc : Core h R F X) : Footing h R F where
  links := hc.links
  sentinel := hc.views.sentinel
  born := fun hd => by
    obtain ⟨s, hs⟩ := hc.data_live hd
    exact hc.objs.freshData (by rw [hs]; rfl)

/-- The bytes are there, each on a page of its own. -/
theorem onePageEach_spec (buf : List UInt8) : ∃ R, Sound (.onePageEach buf) R ∧
    (Heap.onePageEach buf).IsTrivial 1 ∧ (Heap.onePageEach buf).flat (R 1) = buf ∧
    ∀ p ∈ R 1, (Heap.onePageEach buf).lenOf p ≤ 1 := by
  obtain ⟨R, s⟩ := reachable_bytePages.sound
  have hB : (Heap.blank.withBuffer bytePages).buffers 1 = some ⟨bytePages, .trivial, 0, 0⟩ := rfl
  have ht : (Heap.blank.withBuffer bytePages).IsTrivial 1 := ⟨_, hB, rfl⟩
  have hnil : R 1 = [] := (s.pagesOf ht.isSome).symm.trans rfl
  obtain ⟨n, h', hrun, -, hall, R', out, hout, g⟩ := (@trivialBufferWriteData_spec .generous)
    s.inv hB rfl buf
  have hexec : exec .generous (.writeData 1 buf) (Heap.blank.withBuffer bytePages)
      = .ok (.count n, h') := (bind_run hrun).trans rfl
  have hafter : Heap.onePageEach buf = h' := by
    unfold Heap.onePageEach Heap.after
    rw [hexec]
  have hn : n = buf.length := by
    by_contra hn
    rcases hall hn with hr | hr
    · exact succeeds_generous.not_refused hr
    · cases hr
  -- the limit of one byte holds of the buffer before, which has no page
  obtain ⟨R₀, s₀⟩ := (@reachable_blank .generous).sound
  have hlim : (Heap.blank.withBuffer bytePages).PageLimit :=
    AddBuffer.pageLimit ⟨Nat.le_succ _, Nat.lt_succ_self _, _, _, rfl⟩ s₀.inv.core.links
      (fun b B hB => by cases hB)
  have hlim' : h'.PageLimit :=
    (@returns_perform_limit .generous _ _ (.op (.writeData 1 buf))) s.inv.core.footing ht trivial
      hlim _ _ hexec
  have s' := s.grown g trivial
  have ht' := ht.congr g.frame.kind
  rw [hafter]
  refine ⟨R', s', ht', ?_, ?_⟩
  · rw [g.content, hout, hn, hnil]
    simp
  · rw [← s'.pagesOf ht'.isSome]
    have hkind : h'.kindOf 1 = some (bytePages, .trivial) := by rw [g.frame.kind]; rfl
    exact fun p hp => hlim'.le hkind Nat.one_pos hp

/-- No page is mapped where there is no allocator. -/
theorem Sound.inFile (s : Sound h R) {p : Nat} (hb : (h.buffers b).isSome) (hp : p ∈ R b) :
    h.InFile p := by
  have hc := s.inv.core
  have hlive := hc.links.node_live hb (List.mem_cons_of_mem b hp)
  obtain ⟨d, hd⟩ := Option.isSome_iff_exists.mp (hc.views.data hlive (hc.links.page hp))
  obtain ⟨t, ht⟩ := hc.data_live hd
  have hregion := hc.views.region hd ht
  unfold Heap.InFile
  rw [hregion]
  cases hop : t.operations with
  | trivial =>
      cases hresp : t.responsibility with
      | owned =>
          obtain ⟨n, hn, -⟩ := hc.objs.owned ht hop hresp
          rw [hn]
      | referenced =>
          obtain ⟨k, hk⟩ := hc.objs.referenced ht hop hresp
          rw [hk]
  | mmap a off obsolete =>
      obtain ⟨m, M, A, -, -, -, hA, -⟩ := hc.allocs.mapped ht hop
      rw [s.plain a] at hA
      cases hA

/-- A new mmap buffer beside the pages of one byte. -/
def Heap.pagesAndFile (buf : List UInt8) : Heap :=
  (Heap.onePageEach buf).withMmap 0 .append .retain

/-- The buffer over the file 0. -/
def Heap.fileBuffer (buf : List UInt8) : Nat := (Heap.onePageEach buf).next + 3

theorem opened_pagesAndFile (buf : List UInt8) :
    Opened (.pagesAndFile buf) (Heap.fileBuffer buf) (Heap.onePageEach buf).next ⟨0, true⟩ 0 :=
  opened_withMmap _ _ _ _

theorem pagesAndFile_spec (buf : List UInt8) : (Heap.pagesAndFile buf).WellFormed ∧
    (Heap.pagesAndFile buf).IsTrivial 1 ∧ (Heap.pagesAndFile buf).Readable 1 ∧
    (Heap.pagesAndFile buf).content 1 = buf ∧
    (∀ p ∈ (Heap.pagesAndFile buf).pagesOf 1, (Heap.pagesAndFile buf).lenOf p = 1) := by
  obtain ⟨R, s, ht, hflat, hlen⟩ := onePageEach_spec buf
  have hi : Inv (.pagesAndFile buf) R := s.inv.withMmap (s.plain _)
  have hl := s.inv.core.links
  have hone : 1 ≠ (Heap.onePageEach buf).next + 3 := by
    have := hl.buffer_fresh ht.isSome
    omega
  have ht' : (Heap.pagesAndFile buf).IsTrivial 1 := by
    obtain ⟨B, hB, hop⟩ := ht
    exact ⟨B, (buffers_withMmap hone).trans hB, hop⟩
  have hpages : (Heap.pagesAndFile buf).pagesOf 1 = R 1 := hi.core.links.pagesOf ht'.isSome
  have hne : ∀ p ∈ R 1, p ≠ (Heap.onePageEach buf).next + 3 := by
    intro p hp
    have := hl.fresh (hl.node_live ht.isSome (List.mem_cons_of_mem 1 hp))
    omega
  have hlenOf : ∀ p ∈ R 1, (Heap.pagesAndFile buf).lenOf p = 1 := by
    intro p hp
    have hle := hlen p hp
    have hpos := s.full 1 p hp
    have hvec : (Heap.pagesAndFile buf).vecOf p = (Heap.onePageEach buf).vecOf p :=
      vecOf_withMmap (hne p hp)
    rw [Heap.lenOf] at hle hpos ⊢
    rw [hvec]
    omega
  rw [Heap.Readable, Heap.content, hpages]
  refine ⟨⟨R, hi⟩, ht', fun p hp => ?_, ?_, hlenOf⟩
  · have hin := s.inFile ht.isSome hp
    unfold Heap.InFile Heap.lenOf at hin ⊢
    rw [show (Heap.pagesAndFile buf).vecOf p = _ from vecOf_withMmap (hne p hp)]
    exact hin
  · refine Eq.trans (Heap.flat_congr fun p hp => ?_) hflat
    exact pageBytes_withMmap (h := Heap.onePageEach buf) (hne p hp) (by decide)

/-- No more than 1024 of its bytes are written. -/
theorem length_firstPages_pagesAndFile (buf : List UInt8) :
    ((Heap.pagesAndFile buf).firstPages 1).length ≤ 1024 := by
  obtain ⟨-, -, -, -, hlen⟩ := pagesAndFile_spec buf
  have hones : (((Heap.pagesAndFile buf).pagesOf 1).take 1024).map (Heap.pagesAndFile buf).lenOf
      = (((Heap.pagesAndFile buf).pagesOf 1).take 1024).map fun _ => 1 :=
    List.map_congr_left fun p hp => hlen p (List.mem_of_mem_take hp)
  rw [Heap.firstPages, Heap.length_flat, hones]
  simpa using Nat.min_le_left 1024 _

theorem full_pagesAndFile (buf : List UInt8) :
    (Heap.pagesAndFile buf).Full ((Heap.pagesAndFile buf).pagesOf 1) := by
  obtain ⟨-, -, -, -, hlen⟩ := pagesAndFile_spec buf
  intro p hp
  rw [hlen p hp]
  exact Nat.one_pos

/-- A write of the buffer takes 1024 of its bytes at most. -/
theorem writeBuffer_pagesAndFile (buf : List UInt8) (len : Nat) : Yields
    (bufferWriteBuffer .generous (Heap.fileBuffer buf) 1 len) (.pagesAndFile buf)
    (fun n _ => n ≤ 1024) := by
  obtain ⟨⟨R, hi⟩, ht, -⟩ := pagesAndFile_spec buf
  refine (mmapBufferWriteBuffer_spec succeeds_generous hi ht (opened_pagesAndFile buf) rfl len).mono
    fun n h' hpost => ?_
  have hle := length_firstPages_pagesAndFile buf
  rw [Heap.firstPages, hi.core.links.pagesOf ht.isSome] at hle
  omega

end Pb
