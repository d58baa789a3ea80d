import PageBuf.Invariant.WindowCalls

/-!
# WindowData — reading and overwriting through the window

`read_data` and `overwrite_data` are those of the trivial class. They go from
page to page as far as there is something to do, and map what they come to.
-/

namespace Pb

open StateRun Function Ring

variable {env : Env} {h h' g : Heap} {R : Nat → List Nat} {a b head len n x file size it : Nat}
  {fd : Fd} {k : Block} {ks : List Block} {A : MmapAllocator} {buf : List UInt8}

/-! ## Reading -/

/-- The first bytes of a page are those of the file from its offset on. -/
theorem Heap.Shows.bytes (hk : h.Shows a file k) (hfit : k.Fits (h.files file).length)
    (hn : n ≤ k.stop - k.start) :
    h.bytes (h.vecOf k.page).base n = ((h.files file).drop k.start).take n := by
  have hle : n ≤ h.lenOf k.page := by rwa [hk.lenOf]
  rw [← Heap.bytes_take _ hle, ← Heap.pageBytes, hk.pageBytes hfit, List.drop_take, List.take_take,
    Nat.min_eq_left hn]

/-- Marking an access out of bounds changes nothing else. -/
theorem Window.marked (w : Window h b a fd head ks) (o : Bool) :
    Window { h with overread := o } b a fd head ks := by
  obtain ⟨R, m⟩ := w.maps
  have i : Idle h { h with overread := o } := { Idle.refl h with }
  exact ⟨⟨R, m.idle i ⟨m.inv.core.idle i, m.inv.totals⟩⟩, w.writable⟩

/-- Where the first iterator stands: where the window begins, or at the end of a file of which
nothing can be mapped. -/
def firstAt (fd : Fd) (ks : List Block) (head size : Nat) : Nat :=
  if fd.writable then startOf ks head else size

theorem Window.firstAt_le (w : Window h b a fd head ks) :
    firstAt fd ks head (h.files fd.file).length ≤ (h.files fd.file).length := by
  obtain ⟨R, m⟩ := w.maps
  unfold firstAt
  split
  · have hle := m.stretch.start_le_stop head
    have hstop := m.stretch.stop_le_size m.opened.head
    omega
  · exact Nat.le_refl _

/-- The loop of `pb_trivial_buffer_read_data` after `n` bytes. -/
structure Reading (h g : Heap) (b a : Nat) (fd : Fd) (head len : Nat) (ks ks' : List Block)
    (s : ReadLoop) : Prop where
  window : Window g b a fd head ks'
  turned : Turned h g b 0
  start : startOf ks' head = startOf ks head
  bound : s.len ≤ len
  out : s.out = ((h.files fd.file).drop (firstAt fd ks head (h.files fd.file).length)).take
    (len - s.len)
  place : s.len ≠ 0 → BeginsAt ks' b (h.files fd.file).length s.it
    (firstAt fd ks head (h.files fd.file).length + (len - s.len))

theorem Reading.done {ks' : List Block} {s : ReadLoop}
    (r : Reading h g b a fd head len ks ks' s) (hs : s.len = 0 ∨ s.it = b) :
    s.out = ((h.files fd.file).drop (firstAt fd ks head (h.files fd.file).length)).take len := by
  by_cases hzero : s.len = 0
  · rw [r.out, hzero, Nat.sub_zero]
  · have hit : s.it = b := hs.resolve_left hzero
    have hbound := r.bound
    obtain ⟨R', m'⟩ := r.window.maps
    -- all the bytes there are have been read
    have hsize : firstAt fd ks head (h.files fd.file).length + (len - s.len)
        = (h.files fd.file).length := by
      rcases beginsAt_iff.mp (r.place hzero) with ⟨k, hk, he, -⟩ | ⟨-, hx⟩
      · exact absurd (he.symm.trans hit) (m'.page_ne hk)
      · exact hx
    rw [r.out, List.take_of_length_le, List.take_of_length_le]
    · rw [List.length_drop]
      omega
    · rw [List.length_drop]
      omega

/-- One round reads a page, or as much of it as is left to read. -/
theorem Reading.round {ks' : List Block} {s : ReadLoop}
    (r : Reading h g b a fd head len ks ks' s) (hs : env.Succeeds) :
    Yields (readDataRound env b s) g (fun o g' =>
      match o with
      | .inl s' => s'.len < s.len ∧ ∃ ks'', Reading h g' b a fd head len ks ks'' s'
      | .inr out => ∃ ks'', Window g' b a fd head ks'' ∧ Turned h g' b 0 ∧
          startOf ks'' head = startOf ks head ∧
          out = ((h.files fd.file).drop
            (firstAt fd ks head (h.files fd.file).length)).take len) := by
  unfold readDataRound bufferIsEndIterator trivialBufferIsEndIterator
  by_cases hend : s.len = 0 ∨ s.it = b
  · rw [if_pos (by simpa using hend)]
    exact yields_pure.mpr ⟨ks', r.window, r.turned, r.start, r.done hend⟩
  · rw [if_neg (by simpa using hend)]
    obtain ⟨hzero, hit⟩ := not_or.mp hend
    obtain ⟨R', m'⟩ := r.window.maps
    obtain ⟨k, hk, hpage, hstart⟩ : ∃ k ∈ ks', s.it = k.page ∧
        firstAt fd ks head (h.files fd.file).length + (len - s.len) = k.start := by
      rcases beginsAt_iff.mp (r.place hzero) with ⟨k, hk, he, hx⟩ | ⟨he, -⟩
      · exact ⟨k, hk, he, hx⟩
      · exact absurd he hit
    have hfit := m'.stretch.fits k hk
    have hshow := m'.shows k hk
    have hbound := r.bound
    have hfiles : g.files fd.file = h.files fd.file := by rw [r.turned.files]
    have hlive : (g.pages k.page).isSome :=
      m'.inv.core.links.node_live m'.opened.isSome (List.mem_cons_of_mem b (m'.page_mem hk))
    obtain ⟨P, hP⟩ := Option.isSome_iff_exists.mp hlive
    have hvec : P.dataVec = g.vecOf k.page := (Heap.vecOf_eq hP).symm
    have hlen : P.dataVec.len = k.stop - k.start := by rw [hvec, hshow.vec]
    obtain ⟨n, hn⟩ : ∃ n, n = min (k.stop - k.start) s.len := ⟨_, rfl⟩
    have hmin : (if P.dataVec.len < s.len then P.dataVec.len else s.len) = n := by
      rw [hlen]
      split <;> omega
    have hpos := hfit.start
    have hread : g.bytes P.dataVec.base n = ((h.files fd.file).drop k.start).take n := by
      rw [hvec, hshow.bytes hfit (by omega), hfiles]
    rw [hpage]
    refine Yields.step (getPage_run hP) ?_
    simp only [hmin]
    refine Yields.step (memRead_run _ _) ?_
    refine Yields.bind ((r.window.marked _).nextIterator hs hk) fun it' g' hpost => ?_
    obtain ⟨ht, ks'', w'', hst, -, hplace⟩ := hpost
    have hturned : Turned h g' b 0 := r.turned.trans ⟨ht.files, ht.revision⟩
    refine yields_pure.mpr ⟨?_, ks'', w'', hturned, hst.trans r.start, ?_, ?_, ?_⟩
    · show s.len - n < s.len
      omega
    · show s.len - n ≤ len
      omega
    · -- what was read continues what had been
      show s.out ++ g.bytes P.dataVec.base n = _
      rw [r.out, hread, ← hstart, ← List.drop_drop,
        show len - (s.len - n) = (len - s.len) + n by omega, List.take_add]
    · intro hrest
      have hrest' : s.len - n ≠ 0 := hrest
      show BeginsAt ks'' b _ it' (firstAt fd ks head (h.files fd.file).length + (len - (s.len - n)))
      rw [show firstAt fd ks head (h.files fd.file).length + (len - (s.len - n)) = k.stop by omega,
        ← hfiles]
      exact hplace

namespace Window

variable (w : Window h b a fd head ks)

include w

/-- **`pb_buffer_read_data`** from where the window begins. -/
theorem readData (hs : env.Succeeds) (len : Nat) :
    Yields (trivialBufferReadData env b len) h (fun bs h' =>
      bs = ((h.files fd.file).drop (firstAt fd ks head (h.files fd.file).length)).take len ∧
      ∃ ks', Stands h h' b a fd (h.files fd.file) head 0 ks' ∧
        startOf ks' head = startOf ks head) := by
  unfold trivialBufferReadData
  refine Yields.bind (w.getIterator hs) fun it g hpost => ?_
  obtain ⟨ht, ks', w', hst, -, hplace⟩ := hpost
  refine Yields.step get_run ?_
  refine Yields.loop (I := fun n s g => n = s.len ∧ ∃ ks', Reading h g b a fd head len ks ks' s)
    ?_ _ len _ _ ⟨rfl, ks', w', ht, hst, Nat.le_refl _, ?_, fun _ => ?_⟩ (by omega)
  · intro n s g hI
    obtain ⟨rfl, ks', r⟩ := hI
    refine (r.round hs).mono fun o g' hpost => ?_
    cases o with
    | inl s' =>
        obtain ⟨hlt, ks'', r'⟩ := hpost
        exact ⟨s'.len, hlt, rfl, ks'', r'⟩
    | inr out =>
        obtain ⟨ks'', w'', ht, hst, rfl⟩ := hpost
        exact ⟨rfl, ks'', ⟨w'', by rw [ht.files], ht.revision⟩, hst⟩
  · simp
  · rw [Nat.sub_self, Nat.add_zero]
    exact hplace

end Window

/-! ## Overwriting -/

theorem patchFile_eq {f : List UInt8} {i : Nat} {t : List UInt8} (hle : i + t.length ≤ f.length) :
    patchFile f i t = Sequence.overwrite f i t := by
  have hlen : (Sequence.overwrite f i t).length = f.length := Sequence.length_overwrite hle
  refine List.ext_getElem ?_ fun j hj hj' => ?_
  · rw [hlen, patchFile, List.length_mapIdx]
  · have hjf : j < f.length := by rwa [patchFile, List.length_mapIdx] at hj
    have hpatch : (patchFile f i t)[j]
        = if i ≤ j ∧ j < i + t.length then t.getD (j - i) 0 else f[j] := List.getElem_mapIdx
    rw [hpatch]
    simp only [Sequence.overwrite, List.append_assoc]
    by_cases hlt : j < i
    · rw [if_neg (by omega), List.getElem_append_left (by simp; omega), List.getElem_take]
    · rw [List.getElem_append_right (by simp; omega)]
      simp only [List.length_take, Nat.min_eq_left (show i ≤ f.length by omega)]
      by_cases hin : j < i + t.length
      · rw [if_pos ⟨by omega, hin⟩, List.getElem_append_left (by omega),
          List.getD_eq_getElem?_getD, List.getElem?_eq_getElem (by omega)]
        rfl
      · rw [if_neg (by omega), List.getElem_append_right (by omega), List.getElem_drop]
        congr 1
        omega

/-- A page of the window can be written to: nothing else uses its data. -/
theorem Maps.ensureWritable_run (m : Maps h R b a fd head ks) (hk : k ∈ ks) :
    ensureWritable env b k.page h = .ok (true, h) := by
  obtain ⟨B, hB, hkind⟩ := Option.map_eq_some_iff.mp m.opened.kind
  obtain ⟨hdata, D, hD, hone, -, -⟩ := m.teardown.owns k hk
  obtain ⟨P, hP, hPdata⟩ := Option.bind_eq_some_iff.mp hdata
  have hshape := (m.shows k hk).shape
  rw [Heap.shapeOf_eq hD] at hshape
  have howned : D.responsibility = .owned := congrArg Shape.responsibility (Option.some.inj hshape)
  have hkeep : mustDupPageData B.strategy.cloneOnWrite D = false := by
    rw [mustDupPageData, (Prod.mk.inj hkind).1, hone, howned]
    rfl
  unfold ensureWritable
  refine (bind_run (getBuffer_run hB)).trans ((bind_run (getPage_run hP)).trans ?_)
  rw [hPdata]
  refine (bind_run rfl).trans ((bind_run (getData_run hD)).trans ?_)
  rw [if_neg (by simp [hkeep])]
  rfl

/-- The bytes of a page are written to the file. -/
theorem Maps.store_run (m : Maps h R b a fd head ks) (hk : k ∈ ks)
    (hn : buf.length ≤ k.stop - k.start) : ∃ h',
    memWrite (h.vecOf k.page).base buf h = .ok ((), h') ∧ h'.buffers = h.buffers ∧
      Filed h h' fd.file (Sequence.overwrite (h.files fd.file) k.start buf) := by
  have hshow := m.shows k hk
  have hfit := m.stretch.fits k hk
  have hstop := hfit.stop
  have hstart := hfit.start
  have hoff := m.offset_le hk
  have hbounds : h.inBounds (h.vecOf k.page).base buf.length = true := by
    rw [Heap.inBounds, hshow.vec]
    simp only [Heap.regionSize, hshow.mapping, Option.map_some, decide_eq_true_eq]
    have : k.stop = k.offset + k.len := rfl
    omega
  refine ⟨_, memWrite_run hbounds, ?_, ?_⟩
  · rw [Heap.store, hshow.vec]
    simp only [hshow.mapping]
    rfl
  · have hstore : h.store (h.vecOf k.page).base buf = h.setFile fd.file
        (Sequence.overwrite (h.files fd.file) k.start buf) := by
      rw [Heap.store, hshow.vec]
      simp only [hshow.mapping]
      rw [Nat.add_sub_cancel' hoff, patchFile_eq (by omega)]
    rw [hstore]
    exact ⟨Idle.refl _, rfl⟩

/-- The loop of `pb_trivial_buffer_overwrite_data`. -/
structure Overwriting (h g : Heap) (b a : Nat) (fd : Fd) (head : Nat) (buf : List UInt8)
    (ks ks' : List Block) (s : OverwriteLoop) : Prop where
  window : Window g b a fd head ks'
  start : startOf ks' head = startOf ks head
  file : g.files fd.file = Sequence.overwrite (h.files fd.file)
    (firstAt fd ks head (h.files fd.file).length) (buf.take s.written)
  revision : g.revOf b = h.revOf b
  bound : firstAt fd ks head (h.files fd.file).length + s.written ≤ (h.files fd.file).length
  len : s.len + s.written = buf.length
  place : s.len ≠ 0 → BeginsAt ks' b (h.files fd.file).length s.it
    (firstAt fd ks head (h.files fd.file).length + s.written)

theorem Overwriting.done {ks' : List Block} {s : OverwriteLoop}
    (o : Overwriting h g b a fd head buf ks ks' s) (hs : s.len = 0 ∨ s.it = b) :
    s.written = min buf.length
      ((h.files fd.file).length - firstAt fd ks head (h.files fd.file).length) := by
  have hlen := o.len
  have hbound := o.bound
  by_cases hzero : s.len = 0
  · omega
  · obtain ⟨R', m'⟩ := o.window.maps
    rcases beginsAt_iff.mp (o.place hzero) with ⟨k, hk, he, -⟩ | ⟨-, hx⟩
    · exact absurd (he.symm.trans (hs.resolve_left hzero)) (m'.page_ne hk)
    · omega

/-- One round writes to a page, or to as much of it as there are bytes for. -/
theorem Overwriting.round {ks' : List Block} {s : OverwriteLoop}
    (o : Overwriting h g b a fd head buf ks ks' s) (hs : env.Succeeds) :
    Yields (overwriteDataRound env b buf s) g (fun r g' =>
      match r with
      | .inl s' => s'.len < s.len ∧ ∃ ks'', Overwriting h g' b a fd head buf ks ks'' s'
      | .inr n => n = s.written ∧ g' = g ∧ (s.len = 0 ∨ s.it = b)) := by
  unfold overwriteDataRound bufferIsEndIterator trivialBufferIsEndIterator
  by_cases hend : s.len = 0 ∨ s.it = b
  · rw [if_pos (by simpa using hend)]
    exact yields_pure.mpr ⟨rfl, rfl, hend⟩
  · rw [if_neg (by simpa using hend)]
    obtain ⟨hzero, hit⟩ := not_or.mp hend
    obtain ⟨R', m'⟩ := o.window.maps
    obtain ⟨k, hk, hpage, hstart⟩ : ∃ k ∈ ks', s.it = k.page ∧
        firstAt fd ks head (h.files fd.file).length + s.written = k.start := by
      rcases beginsAt_iff.mp (o.place hzero) with ⟨k, hk, he, hx⟩ | ⟨he, -⟩
      · exact ⟨k, hk, he, hx⟩
      · exact absurd he hit
    have hbound := o.bound
    have hlen := o.len
    have hlive : (g.pages k.page).isSome :=
      m'.inv.core.links.node_live m'.opened.isSome (List.mem_cons_of_mem b (m'.page_mem hk))
    have hpageLen : g.lenOf k.page = k.stop - k.start := (m'.shows k hk).lenOf
    have hfit := m'.stretch.fits k hk
    have hpos := hfit.start
    have hstop := hfit.stop
    have hsize : (g.files fd.file).length = (h.files fd.file).length := by
      rw [o.file, Sequence.length_overwrite]
      rw [List.length_take]
      omega
    obtain ⟨n, hn⟩ : ∃ n, n = min (k.stop - k.start) s.len := ⟨_, rfl⟩
    have hmin : (if k.stop - k.start < s.len then k.stop - k.start else s.len) = n := by
      split <;> omega
    have hslice : ((buf.drop s.written).take n).length = n := by
      rw [List.length_take, List.length_drop]
      omega
    rw [hpage]
    refine Yields.step (m'.ensureWritable_run hk) ?_
    simp only [if_true]
    refine Yields.step (pageGetLen_run hlive) ?_
    simp only [hpageLen, hmin]
    rw [if_neg (by omega)]
    refine Yields.step (callerSlice_run (by omega)) ?_
    refine Yields.step (pageGetBase_run hlive) ?_
    obtain ⟨g₁, hwrite, hbuffers, f⟩ := (@Maps.store_run _ _ _ _ _ _ _ _ ((buf.drop s.written).take n) m') hk
      (by omega)
    refine Yields.step hwrite ?_
    have hlonger : (g.files fd.file).length ≤ (Sequence.overwrite (g.files fd.file) k.start
        ((buf.drop s.written).take n)).length := by
      rw [Sequence.length_overwrite]
      omega
    have w₁ : Window g₁ b a fd head ks' :=
      ⟨⟨R', m'.filed f (f.inv hbuffers m'.inv).totals hlonger⟩, o.window.writable⟩
    have hfile₁ : g₁.files fd.file = Sequence.overwrite (h.files fd.file)
        (firstAt fd ks head (h.files fd.file).length) (buf.take (s.written + n)) := by
      have htake : (buf.take s.written).length = s.written := by
        rw [List.length_take]
        omega
      have hfirst : k.start = firstAt fd ks head (h.files fd.file).length
          + (buf.take s.written).length := by omega
      rw [f.file, o.file, hfirst, Sequence.overwrite_further (by omega), ← List.take_add]
    refine Yields.bind (w₁.nextIterator hs hk) fun it' g' hpost => ?_
    obtain ⟨ht, ks'', w'', hst, -, hplace⟩ := hpost
    refine yields_pure.mpr ⟨?_, ks'', w'', hst.trans o.start, ?_, ?_, ?_, ?_, ?_⟩
    · show s.len - n < s.len
      omega
    · rw [ht.files]
      exact hfile₁
    · rw [ht.revision, Heap.revOf, hbuffers]
      exact o.revision
    · show firstAt fd ks head (h.files fd.file).length + (s.written + n) ≤ _
      omega
    · show s.len - n + (s.written + n) = buf.length
      omega
    · intro hrest
      have hrest' : s.len - n ≠ 0 := hrest
      have hsize₁ : (g₁.files fd.file).length = (h.files fd.file).length := by
        rw [hfile₁, Sequence.length_overwrite]
        rw [List.length_take]
        omega
      rw [hsize₁] at hplace
      have hx : firstAt fd ks head (h.files fd.file).length + (s.written + n) = k.stop := by omega
      show BeginsAt ks'' b _ it' (firstAt fd ks head (h.files fd.file).length + (s.written + n))
      rw [hx]
      exact hplace

/-- **`pb_buffer_overwrite_data`** from where the window begins. -/
theorem Window.overwriteData (w : Window h b a fd head ks) (hs : env.Succeeds)
    (buf : List UInt8) :
    Yields (trivialBufferOverwriteData env b buf) h (fun n h' =>
      n = min buf.length
        ((h.files fd.file).length - firstAt fd ks head (h.files fd.file).length) ∧
      ∃ ks', Stands h h' b a fd (Sequence.overwrite (h.files fd.file)
        (firstAt fd ks head (h.files fd.file).length) (buf.take n)) head
        (if 0 < n then 1 else 0) ks' ∧ startOf ks' head = startOf ks head) := by
  obtain ⟨B, hB, hkind⟩ := Option.map_eq_some_iff.mp w.opened.kind
  have hfirst := w.firstAt_le
  unfold trivialBufferOverwriteData
  refine Yields.step (getBuffer_run hB) ?_
  rw [(Prod.mk.inj hkind).1, if_neg (by decide)]
  refine Yields.bind (w.getIterator hs) fun it g hpost => ?_
  obtain ⟨ht, ks', w', hst, -, hplace⟩ := hpost
  refine Yields.bind (P := fun n g' => ∃ ks' s, Overwriting h g' b a fd head buf ks ks' s ∧
    n = s.written ∧ (s.len = 0 ∨ s.it = b)) ?_ fun n g' hpost => ?_
  · refine Yields.loop (I := fun n s g => n = s.len ∧ ∃ ks',
      Overwriting h g b a fd head buf ks ks' s) ?_ _ buf.length _ _ ⟨rfl, ks', ?_⟩
      (Nat.lt_succ_self _)
    · intro n s g hI
      obtain ⟨rfl, ks', o⟩ := hI
      refine (o.round hs).mono fun r g' hpost => ?_
      cases r with
      | inl s' =>
          obtain ⟨hlt, ks'', o'⟩ := hpost
          exact ⟨s'.len, hlt, rfl, ks'', o'⟩
      | inr n =>
          obtain ⟨rfl, rfl, hend⟩ := hpost
          exact ⟨ks', s, o, rfl, hend⟩
    · refine ⟨w', hst, ?_, ht.revision, hfirst, Nat.add_zero _, fun _ => hplace⟩
      rw [ht.files, List.take_zero, Sequence.overwrite_nil]
  · obtain ⟨ks', s, o, rfl, hend⟩ := hpost
    obtain ⟨B', hB', -⟩ := Option.map_eq_some_iff.mp o.window.opened.kind
    unfold bumpIfPositive
    by_cases hpos : s.written > 0
    · rw [if_pos hpos]
      refine Yields.step (modifyBuffer_run hB' _) (yields_pure.mpr ⟨o.done hend, ks', ?_, o.start⟩)
      obtain ⟨R', m'⟩ := o.window.maps
      have i : Idle g' (g'.bump b B' 1) := Idle.bump hB' 1
      have m'' : Maps (g'.bump b B' 1) R' b a fd head ks' :=
        m'.idle i ⟨m'.inv.core.idle i, m'.inv.totals.bump hB' 1⟩
      refine ⟨⟨⟨R', m''⟩, o.window.writable⟩, o.file, ?_⟩
      rw [if_pos hpos, ← o.revision]
      exact Heap.revOf_bump hB' 1
    · rw [if_neg hpos]
      refine Yields.pure_bind (yields_pure.mpr ⟨o.done hend, ks', ⟨o.window, o.file, ?_⟩, o.start⟩)
      rw [if_neg hpos]
      exact o.revision

end Pb
