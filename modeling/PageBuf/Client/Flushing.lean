import PageBuf.Client.Gather
import PageBuf.Invariant.WindowCalls

/-!
# Flushing — a trivial buffer written to a file a part at a time

A client collects bytes in a trivial buffer, writes the buffer to the file of an
mmap buffer and seeks it by the count that the write returned. Any request may be
refused on the way, and a `writev` may take as many of the bytes as it likes.
-/

namespace Pb

open StateRun Function Ring RefCount

variable {env : Env} {h h' g : Heap} {R R' : Nat → List Nat} {F X : List Nat}
  {a b m src len head : Nat} {fd : Fd} {buf bs : List UInt8}

/-! ## Calls that may be refused -/

/-- Requests have been made, and that is all. -/
structure Asked (h h' : Heap) : Prop where
  idle : Idle h h'
  mem : h'.mem = h.mem
  buffers : h'.buffers = h.buffers

theorem Asked.refl (h : Heap) : Asked h h := ⟨Idle.refl h, rfl, rfl⟩

theorem Asked.trans {h'' : Heap} (q : Asked h h') (q' : Asked h' h'') : Asked h h'' :=
  ⟨q.idle.trans q'.idle, q'.mem.trans q.mem, q'.buffers.trans q.buffers⟩

theorem Asked.totals (q : Asked h h') (ht : Totals h R) : Totals h' R := fun b B hB => by
  rw [Heap.lenOf_congr q.idle.pages]
  exact ht b B (by rwa [← q.buffers])

theorem returns_requestFrom (grants : Nat → Bool) (h : Heap) :
    Returns (requestFrom grants) h (fun _ h' => Asked h h') := by
  intro r h' hrun
  unfold requestFrom at hrun
  split at hrun <;> cases hrun
  · exact ⟨Idle.granted h, rfl, rfl⟩
  · exact ⟨Idle.refused h, rfl, rfl⟩

/-- What `write` reports is in the file, whatever the system does. -/
theorem returns_writeFile (fd : Fd) (bs : List UInt8) (h : Heap) :
    Returns (writeFile env fd bs) h (fun o h' => o.getD 0 ≤ bs.length ∧
      h'.buffers = h.buffers ∧ Filed h h' fd.file (h.files fd.file ++ bs.take (o.getD 0))) := by
  intro o h' hrun
  unfold writeFile at hrun
  have i : Idle h { h with calls := h.calls + 1 } := { Idle.refl h with }
  split at hrun <;> cases hrun
  · refine ⟨Nat.min_le_right _ _, rfl, ?_, rfl⟩
    exact i.setFile fd.file _
  · refine ⟨Nat.zero_le _, rfl, ?_⟩
    rw [Option.getD_none, List.take_zero, List.append_nil]
    exact .unchanged i rfl _

/-- The size of the file may not be known. -/
theorem returns_sizeOfFile (ho : Opened h m a fd head) :
    Returns (bufferGetDataSize env m) h (fun _ h' => Asked h h') := by
  obtain ⟨B, hB, hop⟩ := ho.getBuffer
  obtain ⟨A, hA, hfd, -⟩ := ho.allocator
  refine Returns.step (getBuffer_run hB) ?_
  rw [hop]
  refine Returns.step (getMmapAllocator_run hA) ?_
  rw [hfd]
  refine Returns.bind (P := fun _ h' => Asked h h') ?_ fun size h' q => ?_
  · refine Returns.step (getMmapAllocator_run hA) ?_
    rw [hfd]
    refine Returns.bind (returns_requestFrom env.osGrants h) fun r h' q => ?_
    cases r with
    | none => exact Returns.pure q
    | some _ => exact Returns.step get_run (Returns.pure q)
  · split
    · exact Returns.throw
    · exact Returns.pure q

/-- The bump before a write, for a buffer whose size may not be known. -/
theorem returns_bumpIfEmpty {β : Type} {f : PbM β} {Q : β → Heap → Prop}
    (ho : Opened h m a fd head)
    (hf : ∀ h₁, Idle h h₁ → h₁.mem = h.mem → (∀ {R}, Totals h R → Totals h₁ R) →
      Returns f h₁ Q) :
    Returns (do
      if (← bufferGetDataSize env m) = 0 then trivialBufferIncrementDataRevision m else pure ()
      f) h Q := by
  obtain ⟨B, hB, -⟩ := ho.getBuffer
  refine Returns.bind (returns_sizeOfFile ho) fun n h₁ q => ?_
  have hB₁ : h₁.buffers m = some B := by rw [q.buffers, hB]
  split
  · refine Returns.step (modifyBuffer_run hB₁ _) ?_
    exact hf _ (q.idle.trans (Idle.bump hB₁ 1)) q.mem fun ht => (q.totals ht).bump hB₁ 1
  · exact hf h₁ q.idle q.mem q.totals

/-! ## Gathering what can be gathered -/

variable {m₁ m₂ : List Nat} {s : GatherLoop}

theorem returns_growVector (room : VectorRoom s.iov.length s.iovlim) (h : Heap) :
    Returns (growVector env s) h (fun r h' => Asked h h' ∧
      ∀ iovlim, r = some iovlim → VectorRoom (s.iov.length + 1) iovlim) := by
  have hentries := room.entries
  obtain ⟨k, hk, hlim⟩ := room.limit
  unfold growVector
  split
  · next hfull =>
      split
      · exact Returns.pure ⟨.refl h, fun _ hr => by cases hr⟩
      · next hmax =>
          refine Returns.bind (returns_requestFrom env.grants h) fun r h' q => ?_
          cases r with
          | none => exact Returns.pure ⟨q, fun _ hr => by cases hr⟩
          | some _ =>
              refine Returns.pure ⟨q, fun iovlim hr => ?_⟩
              cases hr
              have hpos : 0 < s.iovlim := by rw [hlim]; exact Nat.two_pow_pos _
              have hne : k ≠ 9 := by
                rintro rfl
                exact hmax hlim
              refine ⟨by omega, k + 1, by omega, ?_⟩
              rw [hlim]
              exact (Nat.pow_succ 2 (k + 1)).symm
  · next hroom =>
      refine Returns.pure ⟨.refl h, fun iovlim hr => ?_⟩
      cases hr
      exact ⟨by omega, k, hk, hlim⟩

theorem Gathered.isPrefix (t : Gathered h R src len s m₁ m₂) :
    h.vectorBytes s.iov <+: h.flat (R src) := by
  rw [t.bytes, t.source, Heap.flat_append]
  exact (List.take_prefix _ _).trans (List.prefix_append _ _)

theorem Gathered.length_le_len (t : Gathered h R src len s m₁ m₂) :
    (h.vectorBytes s.iov).length ≤ len := by
  rw [t.bytes]
  exact List.length_take_le _ _

/-- **The loop** gathers the first bytes of the source, up to the page for which there is no room. -/
theorem returns_gatherLoop (hi : Inv h R) (ht : h.IsTrivial src) (len fuel : Nat) :
    Returns (loopM .diverges (gatherRound env src) fuel ⟨(R src).headD src, len, [], 2⟩) h
      (fun iov h' => Asked h h' ∧ h.vectorBytes iov <+: h.flat (R src) ∧
        (h.vectorBytes iov).length ≤ len) := by
  have hl := hi.core.links
  have hinit : Gathered h R src len ⟨(R src).headD src, len, [], 2⟩ [] (R src) :=
    { source := rfl, srcIt := rfl, entries := rfl, bytes := by simp [Heap.vectorBytes], left := rfl
      room := ⟨Nat.zero_le _, 0, by omega, rfl⟩ }
  refine Returns.loop (I := fun s g => Asked h g ∧ ∃ m₁ m₂, Gathered h R src len s m₁ m₂) ?_ fuel _ _
    ⟨.refl h, [], R src, hinit⟩
  intro s g hI
  obtain ⟨q, m₁, m₂, t⟩ := hI
  have hend : s.srcIt = src ↔ m₂ = [] := by
    rw [t.srcIt]
    exact hl.headD_eq_iff ht.isSome t.source
  unfold gatherRound bufferIsEndIterator trivialBufferIsEndIterator
  by_cases hz : s.len = 0 ∨ m₂ = []
  · rw [if_pos (by simpa [hend] using hz)]
    exact Returns.pure ⟨q, t.isPrefix, t.length_le_len⟩
  · rw [if_neg (by simpa [hend] using hz)]
    rw [not_or] at hz
    obtain ⟨p, m₃, rfl⟩ := List.exists_cons_of_ne_nil hz.2
    refine Returns.bind (returns_growVector t.room g) fun r g₁ hpost => ?_
    obtain ⟨q', hroom⟩ := hpost
    have q₁ := q.trans q'
    have i₁ := q₁.idle
    cases r with
    | none => exact Returns.pure ⟨q₁, t.isPrefix, t.length_le_len⟩
    | some iovlim =>
        have hit : s.srcIt = p := t.srcIt
        have hl₁ := hl.congr (Heap.nextOf_congr i₁.pages) (Heap.prevOf_congr i₁.pages)
          (Heap.buffers_isSome_congr i₁.kind) (fun p => by rw [i₁.pages]) i₁.next
        have ht₁ := ht.congr i₁.kind
        have hp : (g₁.pages p).isSome :=
          hl₁.node_live ht₁.isSome (List.mem_cons_of_mem src (by simp [t.source]))
        rw [hit]
        refine Returns.step (pageGetLen_run hp) (Returns.step (pageGetBase_run hp) ?_)
        refine Returns.step (bufferNextIterator_run ht₁ hl₁ t.source) (Returns.pure ?_)
        have hbase : (g₁.vecOf p).base = (h.vecOf p).base := by rw [Heap.vecOf_congr i₁.pages]
        have hcut : (if g₁.lenOf p < s.len then g₁.lenOf p else s.len) = min (h.lenOf p) s.len := by
          rw [Heap.lenOf_congr i₁.pages]
          split <;> omega
        exact ⟨q₁, m₁ ++ [p], m₃, t.next (v := ⟨(g₁.vecOf p).base, _⟩) hbase hcut (hroom iovlim rfl)⟩

/-- **Writing a buffer to a file**: as many of its first bytes are appended as are reported. -/
theorem returns_mmapBufferWriteBuffer (hi : Inv h R) (ht : h.IsTrivial src)
    (ho : Opened h m a fd head) (len : Nat) :
    Returns (bufferWriteBuffer env m src len) h (fun n h' =>
      n ≤ min len (h.flat (R src)).length ∧ (∀ {R}, Totals h R → Totals h' R) ∧
      Filed h h' fd.file (h.files fd.file ++ (h.flat (R src)).take n)) := by
  obtain ⟨B, hB, hop⟩ := ho.getBuffer
  refine Returns.step (getBuffer_run hB) ?_
  rw [hop]
  refine returns_bumpIfEmpty ho fun h₁ i hm htotals => ?_
  have hnothing : ∀ {h'}, Idle h h' → h'.mem = h.mem → (∀ {R}, Totals h R → Totals h' R) →
      0 ≤ min len (h.flat (R src)).length ∧ (∀ {R}, Totals h R → Totals h' R) ∧
      Filed h h' fd.file (h.files fd.file ++ (h.flat (R src)).take 0) := fun i' hm' ht' => by
    rw [List.take_zero, List.append_nil]
    exact ⟨Nat.zero_le _, ht', .unchanged i' hm' _⟩
  obtain ⟨A, hA, hfd, -⟩ := (ho.idle i).allocator
  have hi₁ : Inv h₁ R := ⟨hi.core.idle i, htotals hi.totals⟩
  have ht₁ := ht.congr i.kind
  refine Returns.step (getMmapAllocator_run hA) ?_
  rw [hfd]
  refine Returns.step (bufferGetIterator_run ht₁ hi₁.core.links) ?_
  split
  · exact Returns.pure (hnothing i hm htotals)
  refine Returns.bind (returns_requestFrom env.grants h₁) fun r h₂ q => ?_
  have i₂ := i.trans q.idle
  have hm₂ := q.mem.trans hm
  have htotals₂ : ∀ {R}, Totals h R → Totals h₂ R := fun ht => q.totals (htotals ht)
  cases r with
  | none => exact Returns.pure (hnothing i₂ hm₂ htotals₂)
  | some _ =>
      have hi₂ : Inv h₂ R := ⟨hi.core.idle i₂, htotals₂ hi.totals⟩
      refine Returns.bind (returns_gatherLoop hi₂ (ht.congr i₂.kind) len 1025) fun iov h₃ hpost => ?_
      obtain ⟨q₃, hprefix, hle⟩ := hpost
      have i₃ := i₂.trans q₃.idle
      have hm₃ := q₃.mem.trans hm₂
      have hflat : h₂.flat (R src) = h.flat (R src) :=
        Heap.flat_congr fun p _ => (i₂.same hm₂ p).bytes
      rw [i₂.vectorBytes hm₂, hflat] at hprefix
      rw [i₂.vectorBytes hm₂] at hle
      obtain ⟨o, hread⟩ := memReadVector_run iov h₃
      have i₄ : Idle h { h₃ with overread := o } := { i₃ with }
      have hwritev : Returns (writevFile env fd iov) h₃ (fun r h' =>
          r.getD 0 ≤ (h.vectorBytes iov).length ∧ h'.buffers = h₃.buffers ∧
          Filed h h' fd.file (h.files fd.file ++ (h.vectorBytes iov).take (r.getD 0))) := by
        refine Returns.step hread ((returns_writeFile fd _ { h₃ with overread := o }).mono ?_)
        intro r h' hpost
        obtain ⟨hr, hbuffers, f⟩ := hpost
        have f' := f.before i₄ hm₃
        rw [i₃.vectorBytes hm₃, congrFun i₄.files fd.file] at f'
        rw [i₃.vectorBytes hm₃] at hr
        exact ⟨hr, hbuffers, f'⟩
      refine Returns.bind hwritev fun r h' hpost => ?_
      obtain ⟨hr, hbuffers, f⟩ := hpost
      refine Returns.pure ⟨?_, fun ht c C hC => ?_, ?_⟩
      · have hlength := hprefix.length_le
        omega
      · rw [Heap.lenOf_congr f.idle.pages]
        have hold := q₃.totals (htotals₂ ht) c C (hbuffers ▸ hC)
        rwa [Heap.lenOf_congr i₃.pages] at hold
      · obtain ⟨rest, hrest⟩ := hprefix
        rwa [← hrest, List.take_append_of_le_length hr]

/-! ## The client -/

/-- Writing a part of the buffer to the file, and removing what was written. -/
def flushBuffer (env : Env) (m b len : Nat) : PbM Nat := do
  let written ← bufferWriteBuffer env m b len
  trivialBufferSeek env b written

/-- One step of the client, with the bytes it brings. A write may bring fewer than it was given,
and a flush may write fewer than it was asked for. -/
inductive FlushStep (env : Env) (m b : Nat) (h : Heap) : List UInt8 → Heap → Prop where
  | write {buf k h'} : trivialBufferWriteData env b buf h = .ok (k, h') → h'.Small →
      FlushStep env m b h (buf.take k) h'
  | flush {len k h'} : flushBuffer env m b len h = .ok (k, h') → FlushStep env m b h [] h'

/-- Steps of the client, with all the bytes they bring. -/
inductive FlushRun (env : Env) (m b : Nat) (h : Heap) : List UInt8 → Heap → Prop where
  | nil : FlushRun env m b h [] h
  | snoc {bs bs' g h'} : FlushRun env m b h bs g → FlushStep env m b g bs' h' →
      FlushRun env m b h (bs ++ bs') h'

/-- A trivial buffer that can be sought, beside an mmap buffer that has mapped nothing. -/
structure Collecting (h : Heap) (R : Nat → List Nat) (m a b : Nat) (fd : Fd) (head : Nat) :
    Prop where
  inv : Inv h R
  fits : h.Fits
  opened : Opened h m a fd head
  unmapped : ∀ k, h.mappings k = none
  seekable : ∃ σ, h.kindOf b = some (σ, .trivial) ∧ σ.rejectsSeek = false
  full : h.Full (R b)

/-- What is done to a trivial buffer leaves the mmap buffer in its file. -/
theorem Opened.frame (ho : Opened h m a fd head) (f : Frame b h h' R R') (hc : Core h' R' F X) :
    Opened h' m a fd head where
  kind := by rw [f.kind, ho.kind]
  allocator := by
    have hkind : h'.kindOf m = some (mmapBufferStrategy, .mmap a) := by rw [f.kind, ho.kind]
    have hlive : (h'.buffers m).isSome := by
      rw [← Heap.isSome_kindOf, hkind]
      rfl
    have hholds : 0 < holders h'.next h'.bufferAllocatorOf a :=
      holders_pos_iff.mpr ⟨m, hc.links.buffer_fresh hlive, by
        simp [Heap.bufferAllocatorOf, hkind, BufferClass.allocator]⟩
    obtain ⟨A', hA'⟩ := Option.isSome_iff_exists.mp
      ((hc.allocs.live a).mpr (Nat.lt_of_lt_of_le hholds (Nat.le_add_left _ _)))
    obtain ⟨A, hA, hfd, hhead⟩ := f.world.allocator hA'
    obtain ⟨C, hC, hfd', hhead'⟩ := ho.allocator
    rw [hA] at hC
    cases hC
    exact ⟨A', hA', hfd.trans hfd', hhead.trans hhead'⟩
  head := by rw [f.world.files]; exact ho.head

namespace Collecting

variable (c : Collecting h R m a b fd head)

include c

/-- A call on the trivial buffer. -/
theorem frame (f : Frame b h h' R R') (hi : Inv h' R') (hfits : h'.Fits) (hfull : h'.Full (R' b)) :
    Collecting h' R' m a b fd head where
  inv := hi
  fits := hfits
  opened := c.opened.frame f hi.core
  unmapped := fun k => by
    cases hk : h'.mappings k with
    | none => rfl
    | some M =>
        have hold := f.world.mapping hk
        rw [c.unmapped k] at hold
        cases hold
  seekable := by
    obtain ⟨σ, hσ, hr⟩ := c.seekable
    exact ⟨σ, by rw [f.kind, hσ], hr⟩
  full := hfull

theorem getBuffer : ∃ B, h.buffers b = some B ∧ B.operations = .trivial ∧
    B.strategy.rejectsSeek = false := by
  obtain ⟨σ, hσ, hr⟩ := c.seekable
  obtain ⟨B, hB, hk⟩ := Option.map_eq_some_iff.mp hσ
  obtain ⟨hs, hop⟩ := Prod.mk.inj hk
  exact ⟨B, hB, hop, by rw [hs, hr]⟩

/-- No page is in the file, so a write to it changes no page. -/
theorem same (f : Filed h h' fd.file bs) (p : Nat) : Same h h' p where
  vec := congrFun (Heap.vecOf_congr f.idle.pages) p
  data := congrFun (Heap.dataOf_congr f.idle.pages) p
  bytes := by
    have hmappings : h'.mappings = h.mappings := f.idle.mappings
    have hunmapped := c.unmapped
    simp only [Heap.pageBytes, Heap.lenOf, Heap.vecOf_congr f.idle.pages]
    refine Heap.bytes_congr fun i => ?_
    generalize (h.vecOf p).base.region = r
    cases r <;> simp only [Heap.byteAt, f.mem, hmappings, hunmapped]

theorem filed (f : Filed h h' fd.file bs) (ht : Totals h' R) (hle : head ≤ bs.length) :
    Collecting h' R m a b fd head where
  inv := ⟨f.core c.inv.core, ht⟩
  fits := (⟨c.fits.small, c.fits.allocs⟩ : (h.setFile fd.file bs).Fits).idle
    (c.inv.core.setFile fd.file bs) f.idle
  opened := c.opened.filed f hle
  unmapped := fun k => by rw [f.idle.mappings]; exact c.unmapped k
  seekable := by
    obtain ⟨σ, hσ, hr⟩ := c.seekable
    exact ⟨σ, by rw [f.idle.kind]; exact hσ, hr⟩
  full := fun p hp => by
    rw [(c.same f p).len]
    exact c.full p hp

theorem returns_write (buf : List UInt8) : Returns (trivialBufferWriteData env b buf) h
    (fun k h' => h'.Small → ∃ R', Collecting h' R' m a b fd head ∧
      h'.files fd.file ++ h'.flat (R' b) = h.files fd.file ++ h.flat (R b) ++ buf.take k) := by
  obtain ⟨B, hB, hop, -⟩ := c.getBuffer
  refine (trivialBufferWriteData_spec c.inv hB hop buf).returns.mono fun k h' hpost hsmall => ?_
  obtain ⟨-, -, R', out, rfl, g⟩ := hpost
  have hfits := c.fits.of_refs c.inv.core g.frame.world g.frame.kind hsmall
  refine ⟨R', c.frame g.frame ⟨g.core, g.totals⟩ hfits (g.full c.full trivial), ?_⟩
  rw [g.frame.world.files, g.content, List.append_nil, List.append_assoc]

/-- What the write has put into the file, the seek removes from the buffer. -/
theorem returns_flush (len : Nat) : Returns (flushBuffer env m b len) h
    (fun k h' => k ≤ len ∧ ∃ R', Collecting h' R' m a b fd head ∧
      h'.files fd.file = h.files fd.file ++ (h.flat (R b)).take k ∧
      h'.flat (R' b) = (h.flat (R b)).drop k) := by
  obtain ⟨B, hB, hop, -⟩ := c.getBuffer
  refine Returns.bind (returns_mmapBufferWriteBuffer c.inv ⟨B, hB, hop⟩ c.opened len) ?_
  intro written h₁ hpost
  obtain ⟨hle, htotals, f⟩ := hpost
  have hhead := c.opened.head
  have c₁ := c.filed f (htotals c.inv.totals) (by rw [List.length_append]; omega)
  have hflat : h₁.flat (R b) = h.flat (R b) := flat_of_same fun p _ => c.same f p
  have hfile : h₁.files fd.file = h.files fd.file ++ (h.flat (R b)).take written := by
    rw [f.idle.files]
    exact update_self _ _ _
  obtain ⟨B₁, hB₁, hop₁, hseek⟩ := c₁.getBuffer
  refine (trivialBufferSeek_spec c₁.inv c₁.fits c₁.full hB₁ hop₁ written).returns.mono ?_
  intro k h' hpost
  obtain ⟨-, hall, R', s, -⟩ := hpost
  rw [hflat] at hall s
  have hk : k = written := by
    by_contra hne
    have hreject := hall (by omega)
    rw [hseek] at hreject
    cases hreject
  subst hk
  refine ⟨by omega, R', c₁.frame s.frame s.inv (s.fits c₁.fits) (s.full c₁.full), ?_, s.content⟩
  rw [s.frame.world.files, hfile]

/-- **One step** puts the bytes it brings behind those that are in the file and the buffer. -/
theorem step (hstep : FlushStep env m b h bs h') : ∃ R', Collecting h' R' m a b fd head ∧
    h'.files fd.file ++ h'.flat (R' b) = h.files fd.file ++ h.flat (R b) ++ bs := by
  cases hstep with
  | write hrun hsmall => exact c.returns_write _ _ _ hrun hsmall
  | flush hrun =>
      obtain ⟨-, R', c', hfile, hflat⟩ := c.returns_flush _ _ _ hrun
      refine ⟨R', c', ?_⟩
      rw [hfile, hflat, List.append_assoc, List.take_append_drop, List.append_nil]

theorem run (hrun : FlushRun env m b h bs h') : ∃ R', Collecting h' R' m a b fd head ∧
    h'.files fd.file ++ h'.flat (R' b) = h.files fd.file ++ h.flat (R b) ++ bs := by
  induction hrun with
  | nil => exact ⟨R, c, by rw [List.append_nil]⟩
  | snoc _ hstep ih =>
      obtain ⟨R₁, c₁, hkept⟩ := ih
      obtain ⟨R', c', hkept'⟩ := c₁.step hstep
      exact ⟨R', c', by rw [hkept', hkept, List.append_assoc, List.append_assoc]⟩

theorem content : h.content b = h.flat (R b) := by
  obtain ⟨B, hB, -⟩ := c.getBuffer
  exact c.inv.core.links.content (by rw [hB]; rfl)

theorem fileOf : h.fileOf m = h.files fd.file := c.opened.fileOf

/-- Where nothing is refused, the first 1024 pages are moved, or what is asked for of them. -/
theorem flush_moves (hs : env.Succeeds) (hw : fd.writable = true) (len : Nat) :
    Yields (flushBuffer env m b len) h (fun k _ => k = min len (h.firstPages b).length) := by
  obtain ⟨B, hB, hop, -⟩ := c.getBuffer
  have hb : (h.buffers b).isSome := by rw [hB]; rfl
  obtain ⟨n, h₁, hrun, hn, f⟩ := mmapBufferWriteBuffer_spec hs c.inv ⟨B, hB, hop⟩ c.opened hw len
  obtain ⟨-, htotals, -⟩ := returns_mmapBufferWriteBuffer c.inv ⟨B, hB, hop⟩ c.opened len _ _ hrun
  have hhead := c.opened.head
  have c₁ := c.filed f (htotals c.inv.totals) (by rw [List.length_append]; omega)
  obtain ⟨B₁, hB₁, hop₁, hseek⟩ := c₁.getBuffer
  refine Yields.step hrun ?_
  refine (trivialBufferSeek_spec c₁.inv c₁.fits c₁.full hB₁ hop₁ n).mono fun k h' hpost => ?_
  obtain ⟨hk, hall, -⟩ := hpost
  have hflat : h₁.flat (R b) = h.flat (R b) := flat_of_same fun p _ => c.same f p
  have hfirst : h.firstPages b = h.flat ((R b).take 1024) := by
    rw [Heap.firstPages, c.inv.core.links.pagesOf hb]
  have hprefix := h.firstPages_isPrefix b
  rw [c.content] at hprefix
  have hle := hprefix.length_le
  rw [hfirst] at hle ⊢
  rw [hflat] at hk hall
  by_contra hne
  have hreject := hall (by omega)
  rw [hseek] at hreject
  cases hreject

end Collecting

/-! ## What is not lost -/

end Pb
