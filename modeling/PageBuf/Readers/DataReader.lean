import PageBuf.Invariant.Positions
import PageBuf.Invariant.Remove

/-!
# DataReader — what one read does

A data reader keeps a page and an offset in it. `Spot` is the place in the
content of a pair that the loop of `pb_data_reader_read` works on: an offset
inside the page, or the end. Between reads the end is kept as the last page
with its full length, and there the two spellings of one place begin: once
another page follows, the full length is the end of one page and the start of
the next. `Parked` says that the reader has been left like that.
-/

namespace Pb

open StateRun Function Ring

variable {env : Env} {h h' : Heap} {R : Nat → List Nat} {F l₁ l₂ : List Nat}
  {b p k len off it : Nat} {o : Bool} {r : DataReader}

/-- The heap with the mark of an overread set to `o`. -/
def Heap.marked (h : Heap) (o : Bool) : Heap := { h with overread := o }

theorem Links.marked (hl : Links h R F) (o : Bool) : Links (h.marked o) R F :=
  hl.congr rfl rfl (fun _ => rfl) (fun _ => rfl) (Nat.le_refl _)

theorem Heap.IsTrivial.marked (ht : h.IsTrivial b) (o : Bool) : (h.marked o).IsTrivial b := ht

theorem memRead_marked (q : Ptr) (n : Nat) :
    ∃ o', memRead q n (h.marked o) = .ok (h.bytes q n, h.marked o') :=
  ⟨_, rfl⟩

/-! ## Places -/

/-- The iterator and the offset stand for the `k`th byte of the pages `l`, or
for their end. -/
def Spot (h : Heap) (b : Nat) (l : List Nat) (it off k : Nat) : Prop :=
  ∃ l₁ l₂, l = l₁ ++ l₂ ∧ it = l₂.headD b ∧ (l₂ = [] → k = (h.flat l).length) ∧
    (l₂ ≠ [] → off < h.lenOf it ∧ k = (h.flat l₁).length + off)

/-- The place a reader has between two reads. -/
def DataReader.At (r : DataReader) (h : Heap) (l : List Nat) (k : Nat) : Prop :=
  (r.bufferIterator = r.buffer ∧ r.pageOffset = 0 ∧ k = 0) ∨
    ∃ l₁ p l₂, l = l₁ ++ p :: l₂ ∧ r.bufferIterator = p ∧ r.pageOffset ≤ h.lenOf p ∧
      k = (h.flat l₁).length + r.pageOffset

/-- The place a read leaves a reader at: a byte, unless nothing follows. -/
def DataReader.Rests (r : DataReader) (h : Heap) (l : List Nat) (k : Nat) : Prop :=
  (r.bufferIterator = r.buffer ∧ r.pageOffset = 0 ∧ k = 0 ∧ l = []) ∨
    ∃ l₁ p l₂, l = l₁ ++ p :: l₂ ∧ r.bufferIterator = p ∧ r.pageOffset ≤ h.lenOf p ∧
      (r.pageOffset = h.lenOf p → l₂ = []) ∧ k = (h.flat l₁).length + r.pageOffset

/-- The reader stands at the full end of a page, and another page follows. -/
def DataReader.Parked (r : DataReader) (h : Heap) : Prop :=
  r.bufferIterator ≠ r.buffer ∧ r.pageOffset = h.lenOf r.bufferIterator ∧
    h.nextOf r.bufferIterator ≠ some r.buffer

theorem DataReader.Rests.at {l : List Nat} (hr : r.Rests h l k) : r.At h l k := by
  rcases hr with ⟨hit, hoff, hk, -⟩ | ⟨l₁, p, l₂, hl, hit, hoff, -, hk⟩
  · exact .inl ⟨hit, hoff, hk⟩
  · exact .inr ⟨l₁, p, l₂, hl, hit, hoff, hk⟩

theorem DataReader.Rests.not_parked (hr : r.Rests h (R b) k) (hl : Links h R F)
    (hb : (h.buffers b).isSome) (hbuf : r.buffer = b) : ¬r.Parked h := by
  rintro ⟨hne, hfull, hnext⟩
  rcases hr with ⟨hit, -⟩ | ⟨l₁, p, l₂, hR, rfl, -, hlast, -⟩
  · exact hne hit
  · -- the reader stands at the end of the last page, which the buffer follows
    have hring := hl.ring hb
    rw [hR, hlast hfull] at hring
    refine hnext ?_
    rw [hring.next_mem, hbuf]
    rfl

/-- A place is not lost when pages are appended. -/
theorem DataReader.At.mono {l l' : List Nat} (ha : r.At h l k) (hpre : l <+: l')
    (hsame : ∀ p ∈ l, Same h h' p) : r.At h' l' k := by
  rcases ha with ha | ⟨l₁, p, l₂, hl, hit, hoff, hk⟩
  · exact .inl ha
  · obtain ⟨t, rfl⟩ := hpre
    refine .inr ⟨l₁, p, l₂ ++ t, by simp [hl], hit, ?_, ?_⟩
    · rw [(hsame p (by simp [hl])).len]
      exact hoff
    · have hfront : h'.flat l₁ = h.flat l₁ :=
        flat_of_same fun q hq => hsame q (by rw [hl]; exact List.mem_append_left _ hq)
      rw [hfront, hk]

/-- No place lies beyond the end. -/
theorem DataReader.At.le {l : List Nat} (ha : r.At h l k) : k ≤ (h.flat l).length := by
  rcases ha with ⟨-, -, rfl⟩ | ⟨l₁, p, l₂, rfl, -, hoff, rfl⟩
  · exact Nat.zero_le _
  · rw [Heap.flat_append, Heap.flat_cons, List.length_append, List.length_append,
      Heap.length_pageBytes]
    omega

/-! ## The loop -/

section Reading

variable (hl : Links h R F) (ht : h.IsTrivial b)

include hl ht

theorem dataReaderLoop_spec (hf : h.Full (R b)) {fuel : Nat} (hs : Spot h b (R b) it off k)
    (hfuel : len < fuel) :
    Yields (loopM .diverges (dataReaderRound env b) fuel ⟨it, off, len, []⟩) (h.marked o)
      (fun s h' => (∃ o', h' = h.marked o') ∧ s.out = ((h.flat (R b)).drop k).take len ∧
        Spot h b (R b) s.it s.pageOffset (k + s.out.length)) := by
  have hb := ht.isSome
  -- what is out so far is what lies between the start and the place reached
  refine Yields.loop
    (I := fun n s h' => n = s.len ∧ (∃ o', h' = h.marked o') ∧ s.out.length + s.len = len ∧
      s.out = ((h.flat (R b)).drop k).take s.out.length ∧
      Spot h b (R b) s.it s.pageOffset (k + s.out.length))
    ?_ fuel len _ _ ⟨rfl, ⟨o, rfl⟩, by simp, by simp, by simpa using hs⟩ hfuel
  intro n s h' hI
  obtain ⟨rfl, ⟨o', rfl⟩, hsum, hout, m₁, m₂, hR, hit, hend, hin⟩ := hI
  have hdone : s.it = b ↔ m₂ = [] := by
    rw [hit]
    exact hl.headD_eq_iff hb hR
  unfold dataReaderRound bufferIsEndIterator trivialBufferIsEndIterator
  by_cases hz : s.len = 0 ∨ m₂ = []
  · rw [if_pos (by simpa [hdone] using hz)]
    refine yields_pure.mpr ⟨⟨o', rfl⟩, ?_, m₁, m₂, hR, hit, hend, hin⟩
    rcases hz with hz | hnil
    · rwa [show len = s.out.length by omega]
    · have hfull := hend hnil
      have hlen : ((h.flat (R b)).drop k).length = s.out.length := by
        rw [List.length_drop]
        omega
      rw [hout, ← hlen, List.take_length, List.take_of_length_le (by omega)]
  · rw [if_neg (by simpa [hdone] using hz)]
    rw [not_or] at hz
    obtain ⟨m, rfl⟩ := exists_cons_of_headD hit hz.2
    obtain ⟨hoff, hk⟩ := hin hz.2
    have hmem : s.it ∈ R b := by simp [hR]
    obtain ⟨P, hP⟩ := Option.isSome_iff_exists.mp
      (hl.node_live hb (List.mem_cons_of_mem b hmem))
    have hlen : P.dataVec.len = h.lenOf s.it := by rw [Heap.lenOf, Heap.vecOf_eq hP]
    have hbase : P.dataVec.base = (h.vecOf s.it).base := by rw [Heap.vecOf_eq hP]
    refine Yields.step (getPage_run (h := h.marked o') hP) ?_
    dsimp only
    rw [hlen, hbase, wrapSub_of_le (Nat.le_of_lt hoff)]
    generalize hn : (if h.lenOf s.it - s.pageOffset < s.len then h.lenOf s.it - s.pageOffset
      else s.len) = n
    have hn' : n + s.pageOffset ≤ h.lenOf s.it ∧ n ≤ s.len ∧
        (n + s.pageOffset = h.lenOf s.it ∨ n = s.len) := by
      rw [← hn]
      split <;> omega
    obtain ⟨o'', hread⟩ := memRead_marked (h := h) (o := o')
      ((h.vecOf s.it).base.add s.pageOffset) n
    refine Yields.step hread ?_
    -- the bytes of this round follow those that are out
    have hnext : (h.bytes ((h.vecOf s.it).base.add s.pageOffset) n)
        = (((h.flat (R b)).drop k).drop s.out.length).take n := by
      rw [Heap.bytes_add_offset (by omega), List.drop_drop, hk, hR, Heap.flat_append,
        List.drop_length_add_append, Heap.flat_cons, List.drop_append_of_le_length (by simp; omega),
        List.take_append_of_le_length (by simp; omega)]
    have hout' : s.out ++ h.bytes ((h.vecOf s.it).base.add s.pageOffset) n
        = ((h.flat (R b)).drop k).take (s.out.length + n) := by
      rw [List.take_add, ← hnext, ← hout]
    have hlen' : (s.out ++ h.bytes ((h.vecOf s.it).base.add s.pageOffset) n).length
        = s.out.length + n := by simp
    by_cases hpage : s.pageOffset + n ≠ h.lenOf s.it
    · rw [if_pos hpage]
      refine yields_pure.mpr ⟨⟨o'', rfl⟩, ?_, m₁, s.it :: m, hR, rfl, fun hn => by simp at hn,
        fun _ => ⟨?_, ?_⟩⟩
      · dsimp only
        rw [hout', show s.out.length + n = len by omega]
      · dsimp only
        omega
      · dsimp only
        rw [hlen']
        omega
    · rw [if_neg hpage]
      rw [not_not] at hpage
      refine Yields.step (bufferNextIterator_run (ht.marked o'')
        (hl.marked o'') hR) (yields_pure.mpr ?_)
      refine ⟨s.len - n, by omega, rfl, ⟨o'', rfl⟩, ?_, ?_, m₁ ++ [s.it], m, by simp [hR], rfl,
        ?_, ?_⟩
      · rw [hlen']
        dsimp only
        omega
      · rw [hlen', hout']
      · rintro rfl
        rw [hlen', hR, Heap.flat_append, Heap.flat_cons, Heap.flat_nil, List.append_nil,
          List.length_append, Heap.length_pageBytes]
        omega
      · intro hne
        obtain ⟨q, j, rfl⟩ := List.exists_cons_of_ne_nil hne
        refine ⟨hf q (by simp [hR]), ?_⟩
        dsimp only
        rw [hlen', Heap.flat_append, Heap.flat_cons, Heap.flat_nil, List.append_nil,
          List.length_append, Heap.length_pageBytes]
        omega

/-! ## The reader -/

omit hl in
/-- A reader that is not parked starts where it stands. -/
theorem DataReader.At.start (hl : Links h R F) (hv : Views h) (hbuf : r.buffer = b)
    (hf : h.Full (R b)) (ha : r.At h (R b) k) (hp : ¬r.Parked h) :
    (h.pages r.bufferIterator).isSome ∧ ∃ it, Spot h b (R b) it r.pageOffset k ∧
      if r.pageOffset = h.lenOf r.bufferIterator then
        bufferNextIterator env b r.bufferIterator h = .ok (it, h)
      else it = r.bufferIterator := by
  have hb := ht.isSome
  rcases ha with ⟨hit, hoff, rfl⟩ | ⟨l₁, p, l₂, hR, hit, hoff, rfl⟩
  · have hlen := (hv.sentinel hb).2
    rw [hbuf] at hit
    rw [hit]
    refine ⟨hl.node_live hb List.mem_cons_self, (R b).headD b, ?_, ?_⟩
    · refine ⟨[], R b, rfl, rfl, fun hn => by simp [hn], fun hne => ?_⟩
      obtain ⟨q, j, hq⟩ := List.exists_cons_of_ne_nil hne
      refine ⟨?_, by rw [hoff]; rfl⟩
      rw [hoff, hq]
      exact hf q (by simp [hq])
    · rw [if_pos (by rw [hoff, hlen])]
      exact bufferNextIterator_end ht hl
  · have hmem : p ∈ R b := by simp [hR]
    have hplive := hl.node_live hb (List.mem_cons_of_mem b hmem)
    have hpb : p ≠ b := by
      rintro rfl
      exact hl.notMem_self hb hmem
    rw [hit]
    refine ⟨hplive, ?_⟩
    by_cases he : r.pageOffset = h.lenOf p
    · -- only at the end of the buffer, as the reader is not parked
      have hring := hl.ring hb
      rw [hR] at hring
      have hlast : l₂ = [] := by
        refine (hl.headD_eq_iff hb (show R b = (l₁ ++ [p]) ++ l₂ by simp [hR])).mp ?_
        by_contra hne
        refine hp ⟨by rwa [hit, hbuf], by rw [hit, he], ?_⟩
        rw [hit, hbuf, hring.next_mem]
        simpa using hne
      subst hlast
      refine ⟨b, ⟨R b, [], by simp, rfl, fun _ => ?_, fun hn => absurd rfl hn⟩, ?_⟩
      · rw [hR, Heap.flat_append, Heap.flat_cons, Heap.flat_nil, List.append_nil,
          List.length_append, Heap.length_pageBytes, he]
      · rw [if_pos he]
        exact bufferNextIterator_run ht hl hR
    · refine ⟨p, ⟨l₁, p :: l₂, hR, rfl, fun hn => by simp at hn, fun _ => ⟨?_, rfl⟩⟩, ?_⟩
      · omega
      · rw [if_neg he]

omit ht in
/-- The end is kept as the full last page. -/
theorem Spot.keep (hv : Views h) (ht : (h.marked o).IsTrivial b) (hs : Spot h b (R b) it off k)
    (hbuf : r.buffer = b) (out : List UInt8) :
    Yields (do
      if bufferIsEndIterator b it then do
        let it ← bufferPrevIterator env b it
        let pageOffset ← pageGetLen it
        pure (out, { r with bufferIterator := it, pageOffset := pageOffset })
      else pure (out, { r with bufferIterator := it, pageOffset := off })
      : PbM (List UInt8 × DataReader)) (h.marked o) (fun q h' => h' = h.marked o ∧ q.1 = out ∧
        q.2.Rests h (R b) k ∧ q.2.buffer = b ∧
        q.2.bufferDataRevision = r.bufferDataRevision) := by
  have hb : (h.buffers b).isSome := ht.isSome
  obtain ⟨l₁, l₂, hR, hit, hend, hin⟩ := hs
  have hdone : it = b ↔ l₂ = [] := by
    rw [hit]
    exact hl.headD_eq_iff hb hR
  unfold bufferIsEndIterator trivialBufferIsEndIterator
  by_cases hnil : l₂ = []
  · subst hnil
    have hk := hend rfl
    rw [List.headD_nil] at hit
    subst hit
    rw [if_pos (by simp)]
    refine Yields.step (bufferPrevIterator_run ht (hl.marked o)
      (show R it = R it ++ [] by simp)) ?_
    have hlive := hl.node_live hb (getLastD_mem it (R it))
    refine Yields.step (pageGetLen_run (h := h.marked o) hlive) (yields_pure.mpr ?_)
    refine ⟨rfl, rfl, ?_, hbuf, rfl⟩
    by_cases hempty : R it = []
    · refine .inl ⟨?_, ?_, ?_, hempty⟩
      · simp [hempty, hbuf]
      · have := (hv.sentinel hb).2
        rw [hempty]
        exact this
      · rw [hk, hempty]
        rfl
    · obtain ⟨j, q, hj⟩ := (List.eq_nil_or_concat' (R it)).resolve_left hempty
      rw [hj, getLastD_concat]
      refine .inr ⟨j, q, [], rfl, rfl, Nat.le_refl _, fun _ => rfl, ?_⟩
      rw [hk, hj, Heap.flat_append, Heap.flat_cons, Heap.flat_nil, List.append_nil,
        List.length_append, Heap.length_pageBytes]
      rfl
  · rw [if_neg (by simpa [hdone] using hnil)]
    obtain ⟨m, rfl⟩ := exists_cons_of_headD hit hnil
    obtain ⟨hoff, hk⟩ := hin hnil
    refine yields_pure.mpr ⟨rfl, rfl, ?_, hbuf, rfl⟩
    exact .inr ⟨l₁, it, m, hR, rfl, Nat.le_of_lt hoff, fun he => absurd he (Nat.ne_of_lt hoff), hk⟩

variable (env) in
/-- `pb_data_reader_reset` takes a reader to the first byte. -/
theorem dataReaderReset_run (hbuf : r.buffer = b) (hf : h.Full (R b)) :
    ∃ r', dataReaderReset env r h = .ok (r', h) ∧ r'.Rests h (R b) 0 ∧ r'.buffer = b ∧
      r'.bufferDataRevision = revisionValue (h.revOf b) := by
  obtain ⟨B, hB, hop⟩ := ht
  have hb : (h.buffers b).isSome := by rw [hB]; rfl
  refine ⟨⟨r.buffer, (R b).headD b, revisionValue (h.revOf b), 0⟩, ?_, ?_, hbuf, rfl⟩
  · unfold dataReaderReset
    rw [hbuf]
    refine (bind_run (bufferGetIterator_run ⟨B, hB, hop⟩ hl)).trans ?_
    exact (bind_run (bufferGetDataRevision_run hB)).trans rfl
  · cases hR : R b with
    | nil => exact .inl ⟨hbuf.symm, rfl, rfl, rfl⟩
    | cons p l =>
        have hpos := hf p (by simp [hR])
        exact .inr ⟨[], p, l, rfl, rfl, Nat.zero_le _, fun he => absurd he (Nat.ne_of_lt hpos), rfl⟩

/-- What is left of a read once its first page is found. -/
theorem dataReaderRest_spec {rev : Nat} (hv : Views h) (hbuf : r.buffer = b)
    (hf : h.Full (R b)) (hs : Spot h b (R b) it r.pageOffset k)
    (hrev : r.bufferDataRevision = rev) :
    Yields (do
      let h ← get
      let s ← loopM .diverges (dataReaderRound env b) (len + h.next + 1)
        ⟨it, r.pageOffset, len, []⟩
      if bufferIsEndIterator b s.it then do
        let it ← bufferPrevIterator env b s.it
        let pageOffset ← pageGetLen it
        pure (s.out, { r with bufferIterator := it, pageOffset := pageOffset })
      else pure (s.out, { r with bufferIterator := s.it, pageOffset := s.pageOffset })
      : PbM (List UInt8 × DataReader)) h (fun q h' => (∃ o, h' = h.marked o) ∧
        q.1 = ((h.flat (R b)).drop k).take len ∧ q.2.Rests h (R b) (k + q.1.length) ∧
        q.2.buffer = b ∧ q.2.bufferDataRevision = rev) := by
  refine Yields.step get_run ?_
  refine Yields.bind (dataReaderLoop_spec (o := h.overread) hl ht hf hs (by omega)) ?_
  rintro s _ ⟨⟨o, rfl⟩, hout, hspot⟩
  refine (Spot.keep hl hv (ht.marked o) hspot hbuf s.out).mono ?_
  rintro q h' ⟨rfl, hq, ha, hbuf', hrev'⟩
  exact ⟨⟨o, rfl⟩, by rw [hq, hout], by rw [hq]; exact ha, hbuf', hrev'.trans hrev⟩

/-- **One read.** A reader that has seen the current revision goes on where it
stands, provided it is not parked; any other reader starts over. -/
theorem dataReaderRead_spec (hv : Views h) (hbuf : r.buffer = b) (hf : h.Full (R b))
    (hr : r.bufferDataRevision ≠ revisionValue (h.revOf b) ∧ k = 0 ∨
      r.bufferDataRevision = revisionValue (h.revOf b) ∧ r.At h (R b) k ∧ ¬r.Parked h) :
    Yields (dataReaderRead env r len) h (fun q h' => (∃ o, h' = h.marked o) ∧
      q.1 = ((h.flat (R b)).drop k).take len ∧ q.2.Rests h (R b) (k + q.1.length) ∧
      q.2.buffer = b ∧ q.2.bufferDataRevision = revisionValue (h.revOf b)) := by
  obtain ⟨B, hB, hop⟩ := id ht
  unfold dataReaderRead
  dsimp only
  rw [hbuf]
  refine Yields.step (bufferGetDataRevision_run hB) ?_
  -- the reader after the reset, if there was one
  have hread : ∀ r' : DataReader, r'.buffer = b →
      r'.bufferDataRevision = revisionValue (h.revOf b) → r'.At h (R b) k → ¬r'.Parked h →
      Yields (do
        let it ←
          if r'.pageOffset = (← pageGetLen r'.bufferIterator) then
            bufferNextIterator env b r'.bufferIterator
          else pure r'.bufferIterator
        let h ← get
        let s ← loopM .diverges (dataReaderRound env b) (len + h.next + 1)
          ⟨it, r'.pageOffset, len, []⟩
        if bufferIsEndIterator b s.it then do
          let it ← bufferPrevIterator env b s.it
          let pageOffset ← pageGetLen it
          pure (s.out, { r' with bufferIterator := it, pageOffset := pageOffset })
        else pure (s.out, { r' with bufferIterator := s.it, pageOffset := s.pageOffset })
        : PbM (List UInt8 × DataReader)) h (fun q h' => (∃ o, h' = h.marked o) ∧
          q.1 = ((h.flat (R b)).drop k).take len ∧ q.2.Rests h (R b) (k + q.1.length) ∧
          q.2.buffer = b ∧ q.2.bufferDataRevision = revisionValue (h.revOf b)) := by
    intro r' hbuf' hrev ha hp
    obtain ⟨hlive, it, hs, hit⟩ := ha.start ht hl hv hbuf' hf hp
    refine Yields.step (pageGetLen_run hlive) ?_
    by_cases he : r'.pageOffset = h.lenOf r'.bufferIterator
    · rw [if_pos he] at hit ⊢
      exact Yields.step hit (dataReaderRest_spec hl ht hv hbuf' hf hs hrev)
    · rw [if_neg he] at hit ⊢
      subst hit
      exact Yields.pure_bind (dataReaderRest_spec hl ht hv hbuf' hf hs hrev)
  rcases hr with ⟨hne, rfl⟩ | ⟨heq, ha, hp⟩
  · rw [if_pos (Ne.symm hne)]
    obtain ⟨r', hrun, ha, hbuf', hrev'⟩ := dataReaderReset_run env hl ht hbuf hf
    exact Yields.step hrun (hread r' hbuf' hrev' ha.at (ha.not_parked hl ht.isSome hbuf'))
  · rw [if_neg (by rw [heq]; simp)]
    exact Yields.pure_bind (hread r hbuf heq ha hp)

/-! ## Consuming -/

/-- The walk from the first page to the page of the reader. -/
theorem consumeLoop_spec (hR : R b = l₁ ++ p :: l₂) :
    Yields (loopM .diverges (consumeRound env b p) (h.next + 1) ((R b).headD b, 0)) h
      (fun s h' => h' = h ∧ s = (p, (h.flat l₁).length)) := by
  have hb := ht.isSome
  have hnd := hl.nodup hb
  rw [hR] at hnd
  have hpb : p ≠ b := by
    rintro rfl
    exact hl.notMem_self hb (by simp [hR])
  refine Yields.loop
    (I := fun n s h' => h' = h ∧ ∃ m₁ m₂, l₁ = m₁ ++ m₂ ∧ n = m₂.length ∧
      s = ((m₂ ++ p :: l₂).headD b, (h.flat m₁).length))
    ?_ _ l₁.length _ _ ⟨rfl, [], l₁, rfl, rfl, by rw [hR]; rfl⟩ ?_
  · intro n s h' hI
    obtain ⟨rfl, m₁, m₂, rfl, rfl, rfl⟩ := hI
    cases m₂ with
    | nil =>
        have hround : ∀ n, consumeRound env b p ((([] : List Nat) ++ p :: l₂).headD b, n)
            = pure (.inr (p, n)) := fun n => by
          simp [consumeRound, bufferCmpIterator, trivialBufferCmpIterator]
        rw [hround]
        exact yields_pure.mpr ⟨rfl, by simp⟩
    | cons q m₂ =>
        have hq : q ∈ R b := by simp [hR]
        have hqb : q ≠ b := by
          rintro rfl
          exact hl.notMem_self hb hq
        have hqp : p ≠ q := by
          rintro rfl
          exact (List.nodup_append.mp hnd).2.2 p (by simp) p List.mem_cons_self rfl
        unfold consumeRound
        rw [if_neg (by simp [bufferIsEndIterator, trivialBufferIsEndIterator, bufferCmpIterator,
          trivialBufferCmpIterator, hqb, hqp])]
        refine Yields.step (pageGetLen_run (hl.node_live hb (List.mem_cons_of_mem b hq))) ?_
        have hsplit : R b = m₁ ++ q :: (m₂ ++ p :: l₂) := by simp [hR]
        refine Yields.step (bufferNextIterator_run ht hl hsplit) (yields_pure.mpr ?_)
        refine ⟨m₂.length, by simp, rfl, m₁ ++ [q], m₂, by simp, rfl, ?_⟩
        rw [Heap.flat_append, Heap.flat_cons, Heap.flat_nil, List.append_nil, List.length_append,
          Heap.length_pageBytes]
        rfl
  · have hle := hl.length_le hb
    rw [hR, List.length_append] at hle
    omega

omit hl ht in
/-- At the first byte no reader is parked. -/
theorem DataReader.At.not_parked {l : List Nat} (ha : r.At h l 0) (hf : h.Full l) :
    ¬r.Parked h := by
  rintro ⟨hne, hlen, -⟩
  rcases ha with ⟨hit, -, -⟩ | ⟨l₁, p, l₂, rfl, hit, -, hk⟩
  · exact hne hit
  · have hpos := hf p (by simp)
    rw [hit] at hlen
    omega

end Reading

/-- A strategy that rejects seeks keeps all bytes. -/
theorem bufferSeek_rejected {B : Buffer} (ht : h.IsTrivial b) (hB : h.buffers b = some B)
    (hrej : B.strategy.rejectsSeek = true) (n : Nat) : bufferSeek env b n h = .ok (0, h) := by
  unfold bufferSeek
  refine (bind_run (getBuffer_run hB)).trans ?_
  rw [ht.allocator hB]
  refine (bind_run (getBuffer_run hB)).trans ?_
  rw [if_pos hrej]
  rfl

/-- **One consumption.** The reader reads from where it stands, and the buffer
is sought to the place it comes to, which counts from the first byte. -/
theorem dataReaderConsume_from {B : Buffer} (hi : Inv h R) (hfits : h.Fits)
    (hB : h.buffers b = some B) (hop : B.operations = .trivial) (hbuf : r.buffer = b)
    (hf : h.Full (R b))
    (hr : r.bufferDataRevision ≠ revisionValue (h.revOf b) ∧ k = 0 ∨
      r.bufferDataRevision = revisionValue (h.revOf b) ∧ r.At h (R b) k ∧ ¬r.Parked h) :
    Yields (dataReaderConsume env r len) h (fun q h' =>
      q.1 = ((h.flat (R b)).drop k).take len ∧
      (∃ o, Removes b (h.marked o) R (k + q.1.length) B.strategy.rejectsSeek
        (fun n => (h.flat (R b)).drop n) q.2.1 h') ∧
      (B.strategy.rejectsSeek = true → q.2.1 = 0) ∧
      q.2.2.Rests h (R b) (k + q.1.length) ∧ q.2.2.buffer = b ∧
      q.2.2.bufferDataRevision = revisionValue (h.revOf b)) := by
  have ht : h.IsTrivial b := ⟨B, hB, hop⟩
  have hb := ht.isSome
  have hl := hi.core.links
  unfold dataReaderConsume
  dsimp only
  rw [hbuf]
  refine Yields.bind (dataReaderRead_spec hl ht hi.core.views hbuf hf hr) ?_
  rintro ⟨out, r'⟩ _ ⟨⟨o, rfl⟩, hout, hrests, hbuf', hrev⟩
  dsimp only at hout hrests hbuf' hrev ⊢
  refine Yields.step (bufferGetIterator_run (ht.marked o) (hl.marked o)) (Yields.step get_run ?_)
  -- what the walk has passed and the offset in the last page are the place reached
  refine Yields.bind (P := fun s h' => h' = h.marked o ∧
    (if bufferCmpIterator r'.bufferIterator s.1 && r'.pageOffset > 0 then s.2 + r'.pageOffset
      else s.2) = k + out.length) ?_ ?_
  · rcases id hrests with ⟨hend, hoff, hk, hnil⟩ | ⟨l₁, p, l₂, hR, hpage, hoff, -, hk⟩
    · rw [hnil, List.headD_nil]
      have hloop : loopM .diverges (consumeRound env b r'.bufferIterator) ((h.marked o).next + 1)
          (b, 0) (h.marked o) = .ok ((b, 0), h.marked o) := by
        simp [loopM, consumeRound, bufferIsEndIterator, trivialBufferIsEndIterator]
        rfl
      exact Yields.intro hloop ⟨rfl, by simp [hoff, hk]⟩
    · rw [hpage]
      refine (consumeLoop_spec (hl.marked o) (ht.marked o) hR).mono ?_
      rintro s h' ⟨rfl, rfl⟩
      refine ⟨rfl, ?_⟩
      simp only [bufferCmpIterator, trivialBufferCmpIterator, decide_true, Bool.true_and,
        decide_eq_true_eq]
      have hflat : ((h.marked o).flat l₁).length = (h.flat l₁).length := rfl
      split <;> omega
  · rintro ⟨it', seeked⟩ h' ⟨rfl, hseek⟩
    dsimp only at hseek ⊢
    rw [hseek]
    refine Yields.bind (P := fun n h' => Removes b (h.marked o) R (k + out.length)
      B.strategy.rejectsSeek (fun n => (h.flat (R b)).drop n) n h' ∧
        (B.strategy.rejectsSeek = true → n = 0)) ?_ ?_
    · have hspec : Yields (bufferSeek env b (k + out.length)) (h.marked o)
          (Removes b (h.marked o) R (k + out.length) B.strategy.rejectsSeek
            (fun n => (h.flat (R b)).drop n)) := by
        refine Yields.step (getBuffer_run (h := h.marked o) hB) ?_
        rw [hop]
        have hi' : Inv (h.marked o) R := ⟨hi.core.idle { Idle.refl h with }, hi.totals⟩
        have hf' : (h.marked o).Full (R b) := hf
        have hB' : (h.marked o).buffers b = some B := hB
        have hfits' : (h.marked o).Fits := hfits.idle hi.core { Idle.refl h with }
        exact trivialBufferSeek_spec hi' hfits' hf' hB' hop _
      by_cases hrej : B.strategy.rejectsSeek = true
      · exact hspec.and (.intro (bufferSeek_rejected (ht.marked o) hB hrej _) fun _ => rfl)
      · exact hspec.mono fun _ _ hk => ⟨hk, fun hr => absurd hr hrej⟩
    · intro n h'' hpost
      exact yields_pure.mpr ⟨hout, ⟨o, hpost.1⟩, hpost.2, hrests, hbuf', hrev⟩

/-- `pb_data_reader_consume` of a reader that starts at the first byte: the
bytes it reads are the bytes that go. -/
theorem dataReaderConsume_spec {B : Buffer} (hi : Inv h R) (hfits : h.Fits)
    (hB : h.buffers b = some B) (hop : B.operations = .trivial)
    (hrej : B.strategy.rejectsSeek = false) (hbuf : r.buffer = b) (hf : h.Full (R b))
    (hr : r.bufferDataRevision ≠ revisionValue (h.revOf b) ∨
      r.bufferDataRevision = revisionValue (h.revOf b) ∧ r.At h (R b) 0) :
    Yields (dataReaderConsume env r len) h (fun q h' => q.1 = (h.flat (R b)).take len ∧
      (∃ o, Removes b (h.marked o) R q.1.length false (fun k => (h.flat (R b)).drop k) q.2.1 h') ∧
      q.2.1 = q.1.length ∧ q.2.2.At h (R b) q.1.length ∧ q.2.2.buffer = b ∧
      q.2.2.bufferDataRevision = revisionValue (h.revOf b)) := by
  have hstart : r.bufferDataRevision ≠ revisionValue (h.revOf b) ∧ 0 = 0 ∨
      r.bufferDataRevision = revisionValue (h.revOf b) ∧ r.At h (R b) 0 ∧ ¬r.Parked h :=
    hr.imp (fun hne => ⟨hne, rfl⟩) (fun heq => ⟨heq.1, heq.2, heq.2.not_parked hf⟩)
  refine (dataReaderConsume_from hi hfits hB hop hbuf hf hstart).mono ?_
  intro q h' hpost
  obtain ⟨hout, ⟨o, hk⟩, -, hrests, hbuf', hrev⟩ := hpost
  rw [Nat.zero_add] at hk hrests
  rw [hrej] at hk
  refine ⟨hout, ⟨o, hk⟩, ?_, hrests.at, hbuf', hrev⟩
  by_contra hne
  have hmin : min q.1.length ((h.marked o).flat (R b)).length = q.1.length :=
    Nat.min_eq_left hrests.at.le
  exact Bool.false_ne_true (hk.2.1 (by rwa [hmin]))

end Pb
