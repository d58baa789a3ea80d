import PageBuf.Client.Counts

/-!
# Revision — equal revisions, valid iterators

Readers keep page iterators across calls and trust `get_data_revision` to
tell them when to start over. While a buffer shows one revision its pages are
only appended to; and appending, reading and iterating leave the revision
alone, so that a reader need not start over for them.
-/

namespace Pb

open StateRun

variable {env : Env} {h h' : Heap} {R R' : Nat → List Nat} {b : Nat}

/-- What was read off the iterators of `b` can still be read off them. -/
structure StillValid (b : Nat) (h h' : Heap) : Prop where
  pages : h.pagesOf b <+: h'.pagesOf b
  vec : ∀ p ∈ h.pagesOf b, h'.vecOf p = h.vecOf p
  data : ∀ p ∈ h.pagesOf b, h'.dataOf p = h.dataOf p
  bytes : ∀ p ∈ h.pagesOf b, h'.pageBytes p = h.pageBytes p
  position : ∀ bi k, h.IsBytePosition b bi k → k < (h.content b).length →
    h'.IsBytePosition b bi k ∧ (h'.content b)[k]? = (h.content b)[k]?

theorem Sound.stillValid (s : Sound h R) (s' : Sound h' R') (hb : (h.buffers b).isSome)
    (hb' : (h'.buffers b).isSome) (hpre : R b <+: R' b) (hsame : ∀ p ∈ R b, Same h h' p) :
    StillValid b h h' := by
  rw [← s.pagesOf hb] at hsame
  rw [← s.pagesOf hb, ← s'.pagesOf hb'] at hpre
  refine ⟨hpre, fun p hp => (hsame p hp).vec, fun p hp => (hsame p hp).data,
    fun p hp => (hsame p hp).bytes, fun bi k hk hlt => ?_⟩
  refine ⟨hk.mono hlt hpre fun p hp => (hsame p hp).vec, ?_⟩
  obtain ⟨l, hl⟩ := hpre
  rw [Heap.content, ← hl, Heap.flat_append, flat_of_same hsame]
  exact List.getElem?_append_left hlt

/-! ## Operations that keep the revision -/

/-- The operations that append to a buffer; an insertion does so at the end
iterator. -/
def Op.AppendsTo (b : Nat) : Op → Prop
  | .writeData c _ | .writeDataRef c _ _ | .writeBuffer c _ _ | .extend c _ | .reserve c _ =>
      c = b
  | .insertData c it _ _ | .insertDataRef c it _ _ _ | .insertBuffer c it _ _ _ => c = b ∧ it = b
  | .create _ | .destroy _ | .rewind _ _ | .seek _ _ | .trim _ _ | .overwriteData _ _
  | .readData _ _ | .clear _ => False

/-- Something was appended to the buffer, and its revision has moved only if
these are its first bytes. -/
structure Appended (b : Nat) (h h' : Heap) : Prop where
  kind : h'.kindOf b = h.kindOf b
  content : h.content b <+: h'.content b
  revision : h'.revOf b = h.revOf b + if h.content b = [] ∧ h'.content b ≠ [] then 1 else 0

theorem Appended.revision_eq (a : Appended b h h') (hne : h.content b ≠ []) :
    h'.revOf b = h.revOf b := by
  rw [a.revision, if_neg fun hc => hne hc.1]
  rfl

theorem Grown.appended {pre out post : List UInt8} {Inside AtEnd : Prop}
    (g : Grown b h h' R R' [] [] pre out post Inside AtEnd) (s : Sound h R)
    (hb : (h.buffers b).isSome) (hend : AtEnd) (hpre : pre = h.flat (R b)) (hpost : post = []) :
    Appended b h h' := by
  have hb' : (h'.buffers b).isSome := by rwa [Heap.buffers_isSome_congr g.frame.kind]
  refine ⟨congrFun g.frame.kind b, ?_, ?_⟩
  · rw [g.core.links.content hb', s.content hb, g.content, hpre, hpost, List.append_nil]
    exact List.prefix_append _ _
  · rw [g.core.links.content hb', s.content hb]
    exact g.revision hend

theorem Inserts.appended {len k : Nat} {Fails Inside AtEnd : Prop}
    {P : Nat → List UInt8 → Prop} {pre post : List UInt8}
    (hk : Inserts b h R len Fails P pre post Inside AtEnd k h') (s : Sound h R)
    (hb : (h.buffers b).isSome) (hend : AtEnd) (hpre : pre = h.flat (R b)) (hpost : post = []) :
    Appended b h h' := by
  obtain ⟨-, -, R', out, -, g⟩ := hk
  exact g.appended s hb hend hpre hpost

theorem Transfers.appended {src len k : Nat} {Fails Inside AtEnd : Prop}
    {pre post : List UInt8} (hk : Transfers env b src h R len Fails pre post Inside AtEnd k h')
    (s : Sound h R) (hsmall : h'.Small ∨ ¬Refused env) (hb : (h.buffers b).isSome)
    (hend : AtEnd) (hpre : pre = h.flat (R b)) (hpost : post = []) : Appended b h h' := by
  obtain ⟨-, R', out, -, -, g⟩ := hk.2 hsmall
  exact g.appended s hb hend hpre hpost

/-- Nothing lies behind the end iterator. -/
theorem before_end (h : Heap) (l : List Nat) (it offset : Nat) :
    h.before l [] it offset = h.flat l ∧ h.behind [] it offset = [] := by
  simp [Heap.before, Heap.behind]

/-- **An operation that appends** keeps what was there, and the revision of a
buffer that was not empty. -/
theorem exec_append {op : Op} (s : Sound h R) (hv : op.Valid h) (ha : op.AppendsTo b) :
    Yields (exec env op) h (fun _ h' => h'.Small ∨ ¬Refused env → Appended b h h') := by
  have hi := s.inv
  have hend : ∀ {c}, R c = R c ++ [] := by simp
  cases op with
  | create | destroy | rewind | seek | trim | overwriteData | readData | clear => exact ha.elim
  | writeData c buf =>
      obtain rfl : c = b := ha
      obtain ⟨B, hB, hop⟩ := hv
      refine Yields.bind (trivialBufferWriteData_spec hi hB hop buf) ?_
      exact fun k h' hk => yields_pure.mpr fun _ =>
        hk.appended s (by rw [hB]; rfl) trivial rfl rfl
  | writeDataRef c buf len =>
      obtain rfl : c = b := ha
      obtain ⟨⟨B, hB, hop⟩, _, hbuf, -⟩ := hv
      refine Yields.bind (trivialBufferWriteDataRef_spec hi hB hop hbuf len) ?_
      exact fun k h' hk => yields_pure.mpr fun _ =>
        hk.appended s (by rw [hB]; rfl) trivial rfl rfl
  | writeBuffer c src len =>
      obtain rfl : c = b := ha
      obtain ⟨⟨B, hB, hop⟩, hsrc, hlen⟩ := hv
      refine Yields.bind (trivialBufferWriteBuffer_spec hi hB hop hsrc (s.full src) hlen) ?_
      exact fun k h' hk => yields_pure.mpr fun hsmall =>
        hk.appended s hsmall (by rw [hB]; rfl) trivial rfl rfl
  | insertData c it offset buf =>
      obtain ⟨rfl, rfl⟩ := ha
      obtain ⟨⟨B, hB, hop⟩, -⟩ := hv
      refine Yields.bind (trivialBufferInsertData_spec hi hB hop hend rfl offset buf) ?_
      exact fun k h' hk => yields_pure.mpr fun _ =>
        hk.appended s (by rw [hB]; rfl) rfl (before_end _ _ _ _).1 (before_end _ [] _ _).2
  | insertDataRef c it offset buf len =>
      obtain ⟨rfl, rfl⟩ := ha
      obtain ⟨⟨B, hB, hop⟩, -, _, hbuf, -⟩ := hv
      refine Yields.bind (trivialBufferInsertDataRef_spec hi hB hop hend rfl offset hbuf len) ?_
      exact fun k h' hk => yields_pure.mpr fun _ =>
        hk.appended s (by rw [hB]; rfl) rfl (before_end _ _ _ _).1 (before_end _ [] _ _).2
  | insertBuffer c it offset src len =>
      obtain ⟨rfl, rfl⟩ := ha
      obtain ⟨⟨B, hB, hop⟩, hsrc, -, hlen⟩ := hv
      refine Yields.bind (trivialBufferInsertBuffer_spec hi hB hop hsrc (s.full src) hend rfl hlen
        (fun _ hne => absurd rfl hne)) ?_
      exact fun k h' hk => yields_pure.mpr fun hsmall =>
        hk.appended s hsmall (by rw [hB]; rfl) rfl (before_end _ _ _ _).1 (before_end _ [] _ _).2
  | extend c len =>
      obtain rfl : c = b := ha
      obtain ⟨B, hB, hop⟩ := hv
      refine Yields.bind (trivialBufferExtend_spec hi hB hop len) ?_
      exact fun k h' hk => yields_pure.mpr fun _ =>
        hk.appended s (by rw [hB]; rfl) trivial rfl rfl
  | reserve c size =>
      obtain rfl : c = b := ha
      obtain ⟨B, hB, hop⟩ := hv
      refine Yields.bind (trivialBufferReserve_spec hi hB hop size) ?_
      exact fun k h' hk => yields_pure.mpr fun _ =>
        hk.appended s (by rw [hB]; rfl) trivial rfl rfl

/-- The program only reads: nothing but the mark of an overread may change. -/
def OnlyReads {α : Type} (m : PbM α) (h : Heap) : Prop :=
  Yields m h (fun _ h' => ∃ o, h' = { h with overread := o })

theorem onlyReads_of_run {α : Type} {m : PbM α} {a : α} (hm : m h = .ok (a, h)) :
    OnlyReads m h :=
  ⟨a, h, hm, h.overread, rfl⟩

/-- Reading a buffer, and every step of an iterator of it. -/
structure ReadsOnly (env : Env) (b : Nat) (h : Heap) : Prop where
  read : ∀ len, OnlyReads (exec env (.readData b len)) h
  get : OnlyReads (bufferGetIterator env b) h
  next : ∀ it, it = b ∨ it ∈ h.pagesOf b → OnlyReads (bufferNextIterator env b it) h
  prev : ∀ it, it = b ∨ it ∈ h.pagesOf b → OnlyReads (bufferPrevIterator env b it) h
  getByte : OnlyReads (bufferGetByteIterator env b) h
  nextByte : ∀ bi k, h.IsBytePosition b bi k → k < (h.content b).length →
    OnlyReads (bufferNextByteIterator env b bi) h
  prevByte : ∀ bi k, h.IsBytePosition b bi k → 0 < k →
    OnlyReads (bufferPrevByteIterator env b bi) h
  byte : ∀ bi k, h.IsBytePosition b bi k → k < (h.content b).length →
    OnlyReads (byteIteratorGetCurrentByte bi) h

theorem Sound.readsOnly (s : Sound h R) (ht : h.IsTrivial b) : ReadsOnly env b h := by
  have hl := s.inv.core.links
  have hb := ht.isSome
  have hcut : ∀ it, it = b ∨ it ∈ h.pagesOf b → ∃ l₁ l₂, R b = l₁ ++ l₂ ∧ it = l₂.headD b := by
    rintro it (rfl | hm)
    · exact ⟨R it, [], by simp, rfl⟩
    · obtain ⟨l₁, l₂, hR⟩ := List.append_of_mem (s.pagesOf hb ▸ hm)
      exact ⟨l₁, it :: l₂, hR, rfl⟩
  refine ⟨fun len => ?_, onlyReads_of_run (bufferGetIterator_run ht hl), ?_, ?_, ?_, ?_, ?_, ?_⟩
  · refine Yields.bind (trivialBufferReadData_spec hl ht len) ?_
    exact fun _ h' hpost => yields_pure.mpr hpost.2
  · rintro it (rfl | hm)
    · refine onlyReads_of_run (a := (R it).headD it) ?_
      obtain ⟨B, hB, hop⟩ := ht
      refine (bind_run (getBuffer_run hB)).trans ?_
      rw [hop]
      exact getIterator_run hl hb
    · obtain ⟨l₁, l₂, hR⟩ := List.append_of_mem (s.pagesOf hb ▸ hm)
      exact onlyReads_of_run (bufferNextIterator_run ht hl hR)
  · intro it hit
    obtain ⟨l₁, l₂, hR, rfl⟩ := hcut it hit
    exact onlyReads_of_run (bufferPrevIterator_run ht hl hR)
  · obtain ⟨bi, hrun, -⟩ := bufferGetByteIterator_run env hl ht (s.full b)
    exact onlyReads_of_run hrun
  · intro bi k hk hlt
    obtain ⟨bi', hrun, -⟩ := bufferNextByteIterator_run hl ht (s.full b) hk hlt
    exact onlyReads_of_run hrun
  · intro bi k hk hpos
    obtain ⟨bi', hrun, -⟩ := bufferPrevByteIterator_run env hl ht (s.full b) hk hpos
    exact onlyReads_of_run hrun
  · intro bi k hk hlt
    exact (byteIteratorGetCurrentByte_spec ht hl hk hlt).mono fun _ _ hpost => hpost.2

end Pb
