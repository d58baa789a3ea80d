import PageBuf.Invariant.SharedIterators
import PageBuf.Invariant.WindowReads

/-!
# SharedReads — reading a buffer that lends its pages

What `pb_buffer_read_data` and the iterators do to the window, from any place
of the buffer. What is read are the bytes of the file, whoever holds the
mappings.
-/

namespace Pb

open StateRun Function Ring RefCount

variable {env : Env} {h h' g : Heap} {R R' : Nat → List Nat} {a b it head len n x : Nat}
  {fd : Fd} {k : Block} {ks ks' : List Block} {bi : ByteIterator} {op : MmapOp}

/-! ## Places -/

theorem Onward.after {h₁ h₂ : Heap} {R₁ : Nat → List Nat} (s : Beside h h₁ R R₁ b)
    (s' : Onward h₁ h₂ R₁ b a fd head n ks') : Onward h h₂ R b a fd head n ks' := by
  obtain ⟨R₂, s', m, hr⟩ := s'
  exact ⟨R₂, s.trans s', m, hr⟩

namespace Lends

variable (m : Lends h R b a fd head ks)

include m

theorem pagesOf : h.pagesOf b = ks.map Block.page := by
  rw [m.inv.core.links.pagesOf m.opened.isSome, m.ring]

theorem isPlaceOf : h.IsPlaceOf b it ↔ it = b ∨ ∃ k ∈ ks, k.page = it := by
  rw [Heap.IsPlaceOf, m.pagesOf, List.mem_map]

theorem isPlace_begins {size : Nat} (hp : BeginsAt ks b size it x) : h.IsPlaceOf b it := by
  rw [m.isPlaceOf]
  rcases beginsAt_iff.mp hp with ⟨k, hk, rfl, -⟩ | ⟨rfl, -⟩
  · exact .inr ⟨k, hk, rfl⟩
  · exact .inl rfl

theorem isPlace_ends (hp : EndsAt ks b head it x) : h.IsPlaceOf b it := by
  rw [m.isPlaceOf]
  rcases endsAt_iff.mp hp with ⟨k, hk, rfl, -⟩ | ⟨rfl, -⟩
  · exact .inr ⟨k, hk, rfl⟩
  · exact .inl rfl

theorem place_live (hit : h.IsPlaceOf b it) : (h.pages it).isSome := by
  refine m.inv.core.links.node_live m.opened.isSome ?_
  rcases m.isPlaceOf.mp hit with rfl | ⟨k, hk, rfl⟩
  · exact List.mem_cons_self
  · exact List.mem_cons_of_mem b (m.page_mem hk)

/-- The byte iterator at an offset of a place. -/
theorem byteAtPlace (hit : h.IsPlaceOf b it) (offset : Nat) : ∃ bi : ByteIterator,
    byteIteratorAt it offset h = .ok (bi, h) ∧ bi.bufferIterator = it :=
  ⟨_, (bind_run (pageGetBase_run (m.place_live hit))).trans rfl, rfl⟩

/-- What the byte iterators do with a page iterator: its first byte, or the end. -/
theorem headByte (hit : h.IsPlaceOf b it) : ∃ bi : ByteIterator,
    (if bufferIsEndIterator b it then pure ⟨it, 0, none⟩
      else byteIteratorAt it 0 : PbM ByteIterator) h = .ok (bi, h) ∧ bi.bufferIterator = it := by
  by_cases hend : bufferIsEndIterator b it
  · rw [if_pos hend]
    exact ⟨_, rfl, rfl⟩
  · rw [if_neg hend]
    exact m.byteAtPlace hit 0

variable (hs : env.Succeeds) (hr : h.Ready a fd head ks n)

include hs hr

theorem nextPlace (hit : h.IsPlaceOf b it) :
    Yields (bufferNextIterator env b it) h (fun it' h' => ∃ R' ks', Beside h h' R R' b ∧
      Lends h' R' b a fd head ks' ∧ h'.Ready a fd head ks' n ∧ h'.IsPlaceOf b it') := by
  rcases m.isPlaceOf.mp hit with rfl | ⟨k, hk, rfl⟩
  · refine (m.nextIterator_end hs hr).mono fun it' h' hpost => ?_
    obtain ⟨ks', ⟨R', hbeside, m', hr'⟩, -, hp⟩ := hpost
    exact ⟨R', ks', hbeside, m', hr', m'.isPlace_begins hp⟩
  · refine (m.nextIterator hs hr hk).mono fun it' h' hpost => ?_
    obtain ⟨ks', ⟨R', hbeside, m', hr'⟩, -, hp⟩ := hpost
    exact ⟨R', ks', hbeside, m', hr', m'.isPlace_begins hp⟩

theorem getPlace :
    Yields (bufferGetIterator env b) h (fun it' h' => ∃ R' ks', Beside h h' R R' b ∧
      Lends h' R' b a fd head ks' ∧ h'.Ready a fd head ks' n ∧ h'.IsPlaceOf b it') := by
  refine (m.getIterator hs hr).mono fun it' h' hpost => ?_
  obtain ⟨ks', ⟨R', hbeside, m', hr'⟩, -, hp⟩ := hpost
  exact ⟨R', ks', hbeside, m', hr', m'.isPlace_begins hp⟩

theorem prevPlace (hit : h.IsPlaceOf b it) :
    Yields (bufferPrevIterator env b it) h (fun it' h' => ∃ R' ks', Beside h h' R R' b ∧
      Lends h' R' b a fd head ks' ∧ h'.Ready a fd head ks' n ∧ h'.IsPlaceOf b it') := by
  rcases m.isPlaceOf.mp hit with rfl | ⟨k, hk, rfl⟩
  · refine (m.prevIterator_end hs hr).mono fun it' h' hpost => ?_
    obtain ⟨ks', x, ⟨R', hbeside, m', hr'⟩, hp⟩ := hpost
    exact ⟨R', ks', hbeside, m', hr', m'.isPlace_ends hp⟩
  · refine (m.prevIterator hs hr hk).mono fun it' h' hpost => ?_
    obtain ⟨ks', ⟨R', hbeside, m', hr'⟩, hp⟩ := hpost
    exact ⟨R', ks', hbeside, m', hr', m'.isPlace_ends hp⟩

/-! ## Byte iterators -/

theorem getByte :
    Yields (bufferGetByteIterator env b) h (fun _ h' => ∃ ks', Onward h h' R b a fd head n ks') := by
  unfold bufferGetByteIterator
  refine Yields.bind (m.getPlace hs hr) fun it h' hpost => ?_
  obtain ⟨R', ks', hbeside, m', hr', hp⟩ := hpost
  obtain ⟨bi, hrun, -⟩ := m'.headByte hp
  exact Yields.intro hrun ⟨ks', R', hbeside, m', hr'⟩

theorem nextByte (hit : h.IsPlaceOf b bi.bufferIterator) :
    Yields (bufferNextByteIterator env b bi) h (fun _ h' =>
      ∃ ks', Onward h h' R b a fd head n ks') := by
  unfold bufferNextByteIterator
  refine Yields.step (pageGetLen_run (m.place_live hit)) ?_
  by_cases hlast : bi.pageOffset + 1 ≥ h.lenOf bi.bufferIterator
  · rw [if_pos hlast]
    refine Yields.bind (m.nextPlace hs hr hit) fun it h' hpost => ?_
    obtain ⟨R', ks', hbeside, m', hr', hp⟩ := hpost
    obtain ⟨bi', hrun, -⟩ := m'.headByte hp
    exact Yields.intro hrun ⟨ks', R', hbeside, m', hr'⟩
  · rw [if_neg hlast]
    obtain ⟨bi', hrun, -⟩ := m.byteAtPlace hit (bi.pageOffset + 1)
    exact Yields.intro hrun ⟨ks, m.onward_refl hr⟩

theorem prevByte (hit : h.IsPlaceOf b bi.bufferIterator) :
    Yields (bufferPrevByteIterator env b bi) h (fun _ h' =>
      ∃ ks', Onward h h' R b a fd head n ks') := by
  unfold bufferPrevByteIterator
  by_cases hfirst : bi.pageOffset = 0
  · rw [if_pos hfirst]
    refine Yields.bind (m.prevPlace hs hr hit) fun it h' hpost => ?_
    obtain ⟨R', ks', hbeside, m', hr', hp⟩ := hpost
    refine Yields.step (pageGetLen_run (m'.place_live hp)) ?_
    by_cases hend : bufferIsEndIterator b it
    · rw [if_pos hend]
      exact yields_pure.mpr ⟨ks', R', hbeside, m', hr'⟩
    · rw [if_neg hend]
      obtain ⟨bi', hrun, -⟩ := m'.byteAtPlace hp (wrapSub (h'.lenOf it) 1)
      exact Yields.intro hrun ⟨ks', R', hbeside, m', hr'⟩
  · rw [if_neg hfirst]
    obtain ⟨bi', hrun, -⟩ := m.byteAtPlace hit (bi.pageOffset - 1)
    exact Yields.intro hrun ⟨ks, m.onward_refl hr⟩

end Lends

/-! ## Reading -/

/-- Marking an access out of bounds changes nothing else. -/
theorem Lends.marked (m : Lends h R b a fd head ks) (hr : h.Ready a fd head ks n) (o : Bool) :
    Onward h { h with overread := o } R b a fd head n ks := by
  have i : Idle h { h with overread := o } := { Idle.refl h with }
  refine ⟨R, ⟨rfl, i.mapsStay, fun _ => rfl, fun _ => rfl, fun _ _ => ⟨rfl, rfl, rfl⟩⟩,
    m.idle i ⟨m.inv.core.idle i, m.inv.totals⟩, ?_⟩
  exact fun d s off hs hop hd => hr d s off hs hop hd

/-- The loop of `pb_trivial_buffer_read_data` after some rounds; the first byte to read was at the
offset `start` of the file. -/
structure LendsReading (h g : Heap) (R : Nat → List Nat) (b a : Nat) (fd : Fd)
    (head len n start : Nat) (ks' : List Block) (s : ReadLoop) : Prop where
  onward : Onward h g R b a fd head n ks'
  bound : s.len ≤ len
  out : s.out = ((h.files fd.file).drop start).take (len - s.len)
  place : s.len ≠ 0 → BeginsAt ks' b (h.files fd.file).length s.it (start + (len - s.len))

namespace LendsReading

variable {start : Nat} {s : ReadLoop} (r : LendsReading h g R b a fd head len n start ks' s)

include r

theorem done (hs : s.len = 0 ∨ s.it = b) :
    s.out = ((h.files fd.file).drop start).take len := by
  by_cases hzero : s.len = 0
  · rw [r.out, hzero, Nat.sub_zero]
  · have hbound := r.bound
    obtain ⟨R', -, m', -⟩ := r.onward
    -- all the bytes there are have been read
    have hsize : start + (len - s.len) = (h.files fd.file).length := by
      rcases beginsAt_iff.mp (r.place hzero) with ⟨k, hk, he, -⟩ | ⟨-, hx⟩
      · exact absurd (he.symm.trans (hs.resolve_left hzero)) (m'.page_ne hk)
      · exact hx
    rw [r.out, List.take_of_length_le, List.take_of_length_le]
    · rw [List.length_drop]
      omega
    · rw [List.length_drop]
      omega

/-- One round reads a page, or as much of it as is left to read. -/
theorem round (hs : env.Succeeds) :
    Yields (readDataRound env b s) g (fun o g' =>
      match o with
      | .inl s' => s'.len < s.len ∧ ∃ ks'', LendsReading h g' R b a fd head len n start ks'' s'
      | .inr out => (∃ ks'', Onward h g' R b a fd head n ks'') ∧
          out = ((h.files fd.file).drop start).take len) := by
  unfold readDataRound bufferIsEndIterator trivialBufferIsEndIterator
  by_cases hend : s.len = 0 ∨ s.it = b
  · rw [if_pos (by simpa using hend)]
    exact yields_pure.mpr ⟨⟨ks', r.onward⟩, r.done hend⟩
  · rw [if_neg (by simpa using hend)]
    obtain ⟨hzero, hit⟩ := not_or.mp hend
    obtain ⟨R', hbeside, m', hr'⟩ := r.onward
    obtain ⟨k, hk, hpage, hstart⟩ : ∃ k ∈ ks', s.it = k.page ∧
        start + (len - s.len) = k.start := by
      rcases beginsAt_iff.mp (r.place hzero) with ⟨k, hk, he, hx⟩ | ⟨he, -⟩
      · exact ⟨k, hk, he, hx⟩
      · exact absurd he hit
    have hfit := m'.stretch.fits k hk
    have hshow := m'.shows k hk
    have hbound := r.bound
    have hfiles : g.files fd.file = h.files fd.file := by rw [hbeside.files]
    have hlive : (g.pages k.page).isSome :=
      m'.inv.core.links.node_live m'.opened.isSome (List.mem_cons_of_mem b (m'.page_mem hk))
    obtain ⟨P, hP⟩ := Option.isSome_iff_exists.mp hlive
    have hvec : P.dataVec = g.vecOf k.page := (Heap.vecOf_eq hP).symm
    have hlen : P.dataVec.len = k.stop - k.start := by rw [hvec, hshow.vec]
    obtain ⟨c, hc⟩ : ∃ c, c = min (k.stop - k.start) s.len := ⟨_, rfl⟩
    have hmin : (if P.dataVec.len < s.len then P.dataVec.len else s.len) = c := by
      rw [hlen]
      split <;> omega
    have hpos := hfit.start
    have hread : g.bytes P.dataVec.base c = ((h.files fd.file).drop k.start).take c := by
      rw [hvec, hshow.bytes hfit (by omega), hfiles]
    rw [hpage]
    refine Yields.step (getPage_run hP) ?_
    simp only [hmin]
    refine Yields.step (memRead_run _ _) ?_
    obtain ⟨R₁, hbeside₁, m₁, hr₁⟩ := m'.marked hr' (g.overread || !g.inBounds P.dataVec.base c)
    refine Yields.bind (m₁.nextIterator hs hr₁ hk) fun it' g' hpost => ?_
    obtain ⟨ks'', hon, -, hplace⟩ := hpost
    refine yields_pure.mpr ⟨?_, ks'', .after (hbeside.trans hbeside₁) hon, ?_, ?_, ?_⟩
    · show s.len - c < s.len
      omega
    · show s.len - c ≤ len
      omega
    · -- what was read continues what had been
      show s.out ++ g.bytes P.dataVec.base c = _
      rw [r.out, hread, ← hstart, ← List.drop_drop,
        show len - (s.len - c) = (len - s.len) + c by omega, List.take_add]
    · intro hrest
      have hrest' : s.len - c ≠ 0 := hrest
      show BeginsAt ks'' b _ it' (start + (len - (s.len - c)))
      rw [show start + (len - (s.len - c)) = k.stop by omega, ← hfiles]
      exact hplace

end LendsReading

namespace Lends

variable (m : Lends h R b a fd head ks) (hs : env.Succeeds) (hr : h.Ready a fd head ks n)

include m hs hr

/-- **`pb_buffer_read_data`** from where the window begins. -/
theorem readData (len : Nat) :
    Yields (trivialBufferReadData env b len) h (fun bs h' =>
      (∃ ks', Onward h h' R b a fd head n ks') ∧
      bs = ((h.files fd.file).drop (startOf ks head)).take len) := by
  unfold trivialBufferReadData
  refine Yields.bind (m.getIterator hs hr) fun it g hpost => ?_
  obtain ⟨ks', hon, -, hplace⟩ := hpost
  refine Yields.step get_run ?_
  refine Yields.loop
    (I := fun i s g => i = s.len ∧ ∃ ks', LendsReading h g R b a fd head len n (startOf ks head) ks' s)
    ?_ _ len _ _ ⟨rfl, ks', hon, Nat.le_refl _, ?_, fun _ => ?_⟩ (by omega)
  · intro i s g hI
    obtain ⟨rfl, ks', r⟩ := hI
    refine (r.round hs).mono fun o g' hpost => ?_
    cases o with
    | inl s' =>
        obtain ⟨hlt, ks'', r'⟩ := hpost
        exact ⟨s'.len, hlt, rfl, ks'', r'⟩
    | inr out => exact hpost
  · simp
  · rw [Nat.sub_self, Nat.add_zero]
    exact hplace

/-- **Reading** keeps the window, and the other buffers as they are. -/
theorem reads (hop : op.MapsBlocks) (hv : op.Valid h b) : Yields (execMmap env b op) h (fun _ h' =>
    ∃ ks', Onward h h' R b a fd head n ks') := by
  cases op with
  | readData len =>
      exact Yields.bind (m.readData hs hr len) fun _ _ hpost => yields_pure.mpr hpost.1
  | getIterator =>
      refine Yields.bind (m.getPlace hs hr) fun it h' hpost => yields_pure.mpr ?_
      obtain ⟨R', ks', hbeside, m', hr', -⟩ := hpost
      exact ⟨ks', R', hbeside, m', hr'⟩
  | nextIterator it =>
      refine Yields.bind (m.nextPlace hs hr hv.2) fun it h' hpost => yields_pure.mpr ?_
      obtain ⟨R', ks', hbeside, m', hr', -⟩ := hpost
      exact ⟨ks', R', hbeside, m', hr'⟩
  | prevIterator it =>
      refine Yields.bind (m.prevPlace hs hr hv.2) fun it h' hpost => yields_pure.mpr ?_
      obtain ⟨R', ks', hbeside, m', hr', -⟩ := hpost
      exact ⟨ks', R', hbeside, m', hr'⟩
  | getByteIterator => exact Yields.bind (m.getByte hs hr) fun _ _ hon => yields_pure.mpr hon
  | nextByteIterator bi =>
      exact Yields.bind (m.nextByte hs hr hv.2) fun _ _ hon => yields_pure.mpr hon
  | prevByteIterator bi =>
      exact Yields.bind (m.prevByte hs hr hv.2) fun _ _ hon => yields_pure.mpr hon
  | _ => exact hop.elim

end Lends

end Pb
