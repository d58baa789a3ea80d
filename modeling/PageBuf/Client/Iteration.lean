import PageBuf.Client.Gather
import PageBuf.Invariant.MmapRuns

/-!
# Iteration — an mmap buffer under its iterators

Iterators map what they come to. For a reader this goes unseen but for one step,
the one back from the first page, which bumps the revision. What a traversal
visits depends on what is mapped: forward it begins with the first page there is,
and backward with the last.
-/

namespace Pb

open StateRun Function Ring Relation

variable {env : Env} {h h' g : Heap} {openAction : MmapOpenAction} {M : Heap → MmapOp → Prop}
  {a b head fuel x y : Nat} {fd : Fd} {k : Block} {ks ks' : List Block} {op : MmapOp} {r : MmapRet}

/-! ## Readers -/

/-- The bytes of an mmap buffer: those of its file from its head on. -/
def Heap.fileContent (h : Heap) (b : Nat) : List UInt8 := (h.fileOf b).drop (h.fileHead b)

/-- What reading is to leave alone. -/
structure Undisturbed (b : Nat) (h h' : Heap) : Prop where
  revision : h'.revOf b = h.revOf b
  content : h'.fileContent b = h.fileContent b

theorem Undisturbed.refl (b : Nat) (h : Heap) : Undisturbed b h h := ⟨rfl, rfl⟩

theorem Undisturbed.trans {h'' : Heap} (u : Undisturbed b h h') (u' : Undisturbed b h' h'') :
    Undisturbed b h h'' :=
  ⟨u'.revision.trans u.revision, u'.content.trans u.content⟩

theorem Opened.fileContent (ho : Opened h b a fd head) :
    h.fileContent b = (h.files fd.file).drop head := by
  rw [Heap.fileContent, ho.fileOf, ho.fileHead]

theorem Stands.undisturbed_iff {n : Nat} (w : Window h b a fd head ks)
    (hst : Stands h h' b a fd (h.files fd.file) head n ks') : Undisturbed b h h' ↔ n = 0 := by
  have hcontent : h'.fileContent b = h.fileContent b := by
    rw [hst.window.opened.fileContent, w.opened.fileContent, hst.file]
  constructor
  · intro u
    have hrev := u.revision
    rw [hst.revision] at hrev
    omega
  · intro hn
    exact ⟨by rw [hst.revision, hn, Nat.add_zero], hcontent⟩

theorem Standing.undisturbed_iff (st : Standing h b a fd head) (hs : env.Succeeds) (hop : op.Reads)
    (hv : op.Valid h b) (hrun : execMmap env b op h = .ok (r, h')) :
    Undisturbed b h h' ↔ ¬op.StepsBack h b := by
  rcases st with ⟨ks, w⟩ | br
  · obtain ⟨ks', hst⟩ := (w.reads hs hop hv).of_run hrun
    rw [hst.undisturbed_iff w]
    by_cases hback : op.StepsBack h b
    · simp [hback]
    · simp [hback]
  · -- without pages there is no first page to leave
    have hno : ¬op.StepsBack h b := by
      intro hback
      cases op with
      | prevIterator it =>
          have hfirst : (h.pagesOf b).head? = some it := hback.1
          rw [br.pagesOf] at hfirst
          cases hfirst
      | prevByteIterator bi =>
          have hfirst : (h.pagesOf b).head? = some bi.bufferIterator := hback.2.1
          rw [br.pagesOf] at hfirst
          cases hfirst
      | _ => exact hback
    refine iff_of_true ?_ hno
    rcases br.reads hs hop hv r h' hrun with he | rfl
    · rw [he]
      exact .refl b h
    · refine ⟨rfl, ?_⟩
      rw [br.granted.opened.fileContent, br.opened.fileContent]
      rfl

/-- An mmap buffer over a file of a whole block and a byte. -/
def Heap.twoBlocks : Heap :=
  (Heap.initial (fun _ _ => 0) (fun _ => 0) (fun _ => List.replicate 4097 0)).withMmap 0 .append
    .retain

theorem reachable_twoBlocks : MmapReachable .generous .append M 3 .twoBlocks :=
  ⟨_, _, _, 0, .retain, _, mmapBufferCreate_run succeeds_generous, .refl⟩

/-- The same with the page of the last byte mapped. -/
def Heap.lastBlock : Heap := Heap.twoBlocks.afterMmap .generous 3 (.prevIterator 3)

theorem reachable_lastBlock (hM : M .twoBlocks (.prevIterator 3)) :
    MmapReachable .generous .append M 3 .lastBlock :=
  reachable_twoBlocks.after ⟨rfl, .inl rfl⟩ hM (by decide +kernel)

theorem pagesOf_lastBlock : Heap.lastBlock.pagesOf 3 = [7] := by decide +kernel

theorem place_lastBlock : Heap.lastBlock.IsPlaceOf 3 7 := .inr (by rw [pagesOf_lastBlock]; simp)

/-- Where a traversal stands and what it has visited. -/
structure Traversal where
  it : Nat
  seen : List UInt8
deriving DecidableEq, Repr

def forwardRound (env : Env) (b : Nat) (s : Traversal) : PbM (Traversal ⊕ List UInt8) :=
  if bufferIsEndIterator b s.it then pure (.inr s.seen)
  else do
    let bs ← memRead (← pageGetBase s.it) (← pageGetLen s.it)
    let it ← bufferNextIterator env b s.it
    pure (.inl ⟨it, s.seen ++ bs⟩)

/-- From `pb_buffer_get_iterator` with `pb_buffer_next_iterator` until the end. -/
def traverseForward (env : Env) (b fuel : Nat) : PbM (List UInt8) := do
  let it ← bufferGetIterator env b
  loopM .diverges (forwardRound env b) fuel ⟨it, []⟩

def backwardRound (env : Env) (b : Nat) (s : Traversal) : PbM (Traversal ⊕ List UInt8) := do
  let it ← bufferPrevIterator env b s.it
  if bufferIsEndIterator b it then pure (.inr s.seen)
  else do
    let bs ← memRead (← pageGetBase it) (← pageGetLen it)
    pure (.inl ⟨it, s.seen ++ bs.reverse⟩)

/-- From `pb_buffer_get_end_iterator` with `pb_buffer_prev_iterator` until the end. -/
def traverseBackward (env : Env) (b fuel : Nat) : PbM (List UInt8) := do
  let it ← bufferGetEndIterator b
  loopM .diverges (backwardRound env b) fuel ⟨it, []⟩

namespace Window

variable (w : Window h b a fd head ks)

include w

theorem page_ne (hk : k ∈ ks) : k.page ≠ b := by
  obtain ⟨R, m⟩ := w.maps
  exact m.page_ne hk

/-- The bytes of a page, as a traversal reads them. -/
theorem readPage (hk : k ∈ ks) {β : Type} (f : List UInt8 → PbM β) {P : β → Heap → Prop}
    (hf : ∀ o, Yields (f (((h.files fd.file).take k.stop).drop k.start))
      { h with overread := o } P) :
    Yields (do
      let bs ← memRead (← pageGetBase k.page) (← pageGetLen k.page)
      f bs) h P := by
  obtain ⟨R, m⟩ := w.maps
  have hlive := w.place_live (m.isPlaceOf.mpr (.inr ⟨k, hk, rfl⟩))
  have hfit := m.stretch.fits k hk
  refine Yields.step (pageGetBase_run hlive) (Yields.step (pageGetLen_run hlive) ?_)
  refine Yields.step (memRead_run _ _) ?_
  have hbytes : h.bytes (h.vecOf k.page).base (h.lenOf k.page)
      = ((h.files fd.file).take k.stop).drop k.start := (m.shows k hk).pageBytes hfit
  rw [hbytes]
  exact hf _

theorem start_lt_stop (hk : k ∈ ks) : k.start < k.stop := by
  obtain ⟨R, m⟩ := w.maps
  exact (m.stretch.fits k hk).start

theorem stop_le_size (hk : k ∈ ks) : k.stop ≤ (h.files fd.file).length := by
  obtain ⟨R, m⟩ := w.maps
  exact (m.stretch.fits k hk).stop

theorem startOf_le (hk : k ∈ ks) : startOf ks head ≤ k.start := by
  obtain ⟨R, m⟩ := w.maps
  exact m.stretch.start_le hk head

end Window

/-- A traversal forward that has come to the offset `x`. -/
structure Forward (h g : Heap) (b a : Nat) (fd : Fd) (head first : Nat) (ks' : List Block)
    (s : Traversal) (x : Nat) : Prop where
  window : Window g b a fd head ks'
  files : g.files = h.files
  place : BeginsAt ks' b (h.files fd.file).length s.it x
  le : first ≤ x
  seen : s.seen = ((h.files fd.file).take x).drop first

theorem Forward.round {s : Traversal} {first : Nat} (t : Forward h g b a fd head first ks' s x)
    (hs : env.Succeeds) : Yields (forwardRound env b s) g (fun o g' =>
      match o with
      | .inl s' => ∃ ks'' x', Forward h g' b a fd head first ks'' s' x' ∧ x < x' ∧
          x' ≤ (h.files fd.file).length
      | .inr bs => bs = (h.files fd.file).drop first) := by
  unfold forwardRound
  rcases beginsAt_iff.mp t.place with ⟨k, hk, hit, hx⟩ | ⟨hit, hx⟩
  · have hend : ¬bufferIsEndIterator b s.it = true := by
      simpa [bufferIsEndIterator, trivialBufferIsEndIterator, hit] using t.window.page_ne hk
    rw [if_neg hend, hit]
    refine t.window.readPage hk _ fun o => ?_
    refine Yields.bind ((t.window.marked o).nextIterator hs hk) fun it' g' hpost => ?_
    obtain ⟨ht, ks'', w'', -, -, hplace⟩ := hpost
    have hlt := t.window.start_lt_stop hk
    have hstop := t.window.stop_le_size hk
    have hfiles : g'.files = h.files := ht.files.trans t.files
    have hsize : (g.files fd.file).length = (h.files fd.file).length := by rw [t.files]
    have hfirst := t.le
    refine yields_pure.mpr ⟨ks'', k.stop, ⟨w'', hfiles, ?_, by omega, ?_⟩, by omega, by omega⟩
    · rw [← hsize]
      exact hplace
    · show s.seen ++ ((g.files fd.file).take k.stop).drop k.start = _
      rw [t.seen, t.files, hx]
      exact Sequence.stretch_join _ (hx ▸ hfirst) (Nat.le_of_lt hlt)
  · rw [if_pos (by simp [bufferIsEndIterator, trivialBufferIsEndIterator, hit])]
    refine yields_pure.mpr ?_
    show s.seen = _
    rw [t.seen, hx, List.take_length]

/-- **Forward** a traversal visits the bytes from where the window begins. -/
theorem Window.traverseForward (w : Window h b a fd head ks) (hs : env.Succeeds)
    (hw : fd.writable = true) (hf : (h.files fd.file).length < fuel) :
    Yields (traverseForward env b fuel) h (fun bs _ =>
      bs = (h.files fd.file).drop (startOf ks head)) := by
  unfold Pb.traverseForward
  refine Yields.bind (w.getIterator hs) fun it g hpost => ?_
  obtain ⟨ht, ks', w', -, -, hplace⟩ := hpost
  rw [if_pos hw] at hplace
  refine Yields.loop (I := fun n s g => ∃ ks' x, Forward h g b a fd head (startOf ks head) ks' s x ∧
    n = (h.files fd.file).length - x) ?_ fuel _ _ _ ⟨ks', startOf ks head, ⟨w', ht.files, hplace,
      Nat.le_refl _, ?_⟩, rfl⟩ (by omega)
  · rintro n s g ⟨ks', x, t, rfl⟩
    refine (t.round hs).mono fun o g' hpost => ?_
    cases o with
    | inl s' =>
        obtain ⟨ks'', x', t', hlt, hle⟩ := hpost
        exact ⟨_, by omega, ks'', x', t', rfl⟩
    | inr bs => exact hpost
  · simp

/-- A traversal backward that is to go on with the bytes before the offset `y`. -/
structure Backward (env : Env) (h g : Heap) (b a : Nat) (fd : Fd) (head last : Nat)
    (s : Traversal) (y : Nat) : Prop where
  ge : head ≤ y
  le : y ≤ last
  seen : s.seen = (((h.files fd.file).take last).drop y).reverse
  prev : Yields (bufferPrevIterator env b s.it) g (fun it g' => g'.files = h.files ∧
    ∃ ks', Window g' b a fd head ks' ∧ EndsAt ks' b head it y)

theorem Window.head_le_start (w : Window h b a fd head ks) (hk : k ∈ ks) : head ≤ k.start := by
  obtain ⟨R, m⟩ := w.maps
  have hle := m.stretch.start_le hk head
  have hfirst := m.first
  omega

theorem Backward.round {s : Traversal} {last : Nat} (t : Backward env h g b a fd head last s y)
    (hs : env.Succeeds) : Yields (backwardRound env b s) g (fun o g' =>
      match o with
      | .inl s' => ∃ y', Backward env h g' b a fd head last s' y' ∧ y' < y
      | .inr bs => bs = (((h.files fd.file).take last).drop head).reverse) := by
  unfold backwardRound
  refine Yields.bind t.prev fun it g' hpost => ?_
  obtain ⟨hfiles, ks', w', hplace⟩ := hpost
  rcases endsAt_iff.mp hplace with ⟨k, hk, rfl, hy⟩ | ⟨rfl, hy⟩
  · have hend : ¬bufferIsEndIterator b k.page = true := by
      simpa [bufferIsEndIterator, trivialBufferIsEndIterator] using w'.page_ne hk
    rw [if_neg hend]
    refine w'.readPage hk _ fun o => yields_pure.mpr ?_
    have hlt := w'.start_lt_stop hk
    have hle := t.le
    refine ⟨k.start, ⟨w'.head_le_start hk, by omega, ?_, ?_⟩, by omega⟩
    · show s.seen ++ (((g'.files fd.file).take k.stop).drop k.start).reverse = _
      rw [t.seen, hfiles, ← List.reverse_append, hy]
      rw [Sequence.stretch_join _ (Nat.le_of_lt hlt) (hy ▸ hle)]
    · refine ((w'.marked o).prevIterator hs hk).mono fun it' g'' hpost' => ?_
      obtain ⟨ht, ks'', w'', hplace'⟩ := hpost'
      exact ⟨ht.files.trans hfiles, ks'', w'', hplace'⟩
  · rw [if_pos (by simp [bufferIsEndIterator, trivialBufferIsEndIterator])]
    refine yields_pure.mpr ?_
    show s.seen = _
    rw [t.seen, hy]

/-- Where a traversal backward begins. -/
def lastAt (ks : List Block) (head size : Nat) : Nat := if ks = [] then size else stopOf ks head

theorem Window.lastAt_between (w : Window h b a fd head ks) :
    head ≤ lastAt ks head (h.files fd.file).length ∧
      lastAt ks head (h.files fd.file).length ≤ (h.files fd.file).length := by
  obtain ⟨R, m⟩ := w.maps
  have hhead := m.opened.head
  unfold lastAt
  split
  · exact ⟨hhead, Nat.le_refl _⟩
  · have hle := m.stretch.start_le_stop head
    have hstop := m.stretch.stop_le_size hhead
    have hfirst := m.first
    omega

/-- **Backward** it visits the bytes up to where the window ends. -/
theorem Window.traverseBackward (w : Window h b a fd head ks) (hs : env.Succeeds)
    (hw : fd.writable = true) (hf : (h.files fd.file).length < fuel) :
    Yields (traverseBackward env b fuel) h (fun bs _ =>
      bs = (((h.files fd.file).take (lastAt ks head (h.files fd.file).length)).drop head).reverse) := by
  have hend : bufferGetEndIterator b h = .ok (b, h) := rfl
  have hlast := w.lastAt_between
  unfold Pb.traverseBackward
  refine Yields.step hend ?_
  refine Yields.loop (I := fun n s g => ∃ y, Backward env h g b a fd head
    (lastAt ks head (h.files fd.file).length) s y ∧ n = y) ?_ fuel _ _ _
    ⟨_, ⟨hlast.1, Nat.le_refl _, ?_, ?_⟩, rfl⟩ (by omega)
  · rintro n s g ⟨y, t, rfl⟩
    refine (t.round hs).mono fun o g' hpost => ?_
    cases o with
    | inl s' =>
        obtain ⟨y', t', hlt⟩ := hpost
        exact ⟨y', hlt, y', t', rfl⟩
    | inr bs => exact hpost
  · simp
  · refine (w.prevIterator_end hs).mono fun it g hpost => ?_
    obtain ⟨ht, ks', w', hplace⟩ := hpost
    rw [if_pos hw] at hplace
    exact ⟨ht.files, ks', w', hplace⟩

/-! ## What traversals visit -/

namespace Heap

/-- The first page, if there is one, begins at the head. -/
def MapsFromHead (h : Heap) (b : Nat) : Prop :=
  ∀ p, (h.pagesOf b).head? = some p → h.fileOffsetOf p = h.fileHead b

/-- The last page, if there is one, ends with the file. -/
def MapsToEnd (h : Heap) (b : Nat) : Prop :=
  ∀ p, (h.pagesOf b).getLast? = some p → h.fileOffsetOf p + h.lenOf p = (h.fileOf b).length

end Heap

/-- Forward a traversal visits the bytes of the buffer. -/
def VisitsForward (env : Env) (b : Nat) (h : Heap) : Prop :=
  ∀ fuel, (h.fileOf b).length < fuel →
    Yields (traverseForward env b fuel) h (fun bs _ => bs = h.fileContent b)

/-- Backward it visits them in reverse. -/
def VisitsBackward (env : Env) (b : Nat) (h : Heap) : Prop :=
  ∀ fuel, (h.fileOf b).length < fuel →
    Yields (traverseBackward env b fuel) h (fun bs _ => bs = (h.fileContent b).reverse)

namespace Window

variable (w : Window h b a fd head ks)

include w

theorem mapsFromHead_iff : h.MapsFromHead b ↔ startOf ks head = head := by
  obtain ⟨R, m⟩ := w.maps
  rw [Heap.MapsFromHead, m.pagesOf, m.opened.fileHead]
  cases ks with
  | nil => simp
  | cons k l =>
      have hk : h.fileOffsetOf k.page = k.start := m.fileOffsetOf List.mem_cons_self
      simp [hk]

theorem mapsToEnd_iff :
    h.MapsToEnd b ↔ lastAt ks head (h.files fd.file).length = (h.files fd.file).length := by
  obtain ⟨R, m⟩ := w.maps
  rw [Heap.MapsToEnd, m.pagesOf, m.opened.fileOf]
  rcases List.eq_nil_or_concat' ks with rfl | ⟨l, k, rfl⟩
  · simp [lastAt]
  · have hk : k ∈ l ++ [k] := by simp
    have hlt := w.start_lt_stop hk
    have hoff := m.fileOffsetOf hk
    have hlen := (m.shows k hk).lenOf
    have hlast : ((l ++ [k]).map Block.page).getLast? = some k.page := by simp
    have hne : l ++ [k] ≠ [] := by simp
    rw [hlast, lastAt, if_neg hne, stopOf_concat]
    simp only [Option.some.injEq, forall_eq', hoff, hlen]
    omega

variable (hs : env.Succeeds) (hw : fd.writable = true)

include hs hw

theorem visitsForward_iff : VisitsForward env b h ↔ h.MapsFromHead b := by
  rw [w.mapsFromHead_iff, VisitsForward, w.opened.fileOf, w.opened.fileContent]
  have hfirst := w.firstAt_le
  have hhead := w.opened.head
  rw [firstAt, if_pos hw] at hfirst
  constructor
  · intro hv
    obtain ⟨bs, g, -, he, he'⟩ := (hv _ (Nat.lt_succ_self _)).and
      (w.traverseForward hs hw (Nat.lt_succ_self _))
    have hlen := congrArg List.length (he.symm.trans he')
    rw [List.length_drop, List.length_drop] at hlen
    omega
  · intro he fuel hf
    have hrun := w.traverseForward hs hw hf
    rwa [he] at hrun

theorem visitsBackward_iff : VisitsBackward env b h ↔ h.MapsToEnd b := by
  rw [w.mapsToEnd_iff, VisitsBackward, w.opened.fileOf, w.opened.fileContent]
  obtain ⟨hge, hle⟩ := w.lastAt_between
  constructor
  · intro hv
    obtain ⟨bs, g, -, he, he'⟩ := (hv _ (Nat.lt_succ_self _)).and
      (w.traverseBackward hs hw (Nat.lt_succ_self _))
    have hlen := congrArg List.length (he.symm.trans he')
    simp only [List.length_reverse, List.length_drop, List.length_take] at hlen
    omega
  · intro he fuel hf
    have hrun := w.traverseBackward hs hw hf
    rwa [he, List.take_length] at hrun

end Window

/-- The calls that write, move the head or step an iterator. -/
def MmapOp.Wanders : MmapOp → Prop
  | .writeData _ | .seek _ | .rewind _ | .getIterator | .nextIterator _ | .prevIterator _
  | .getByteIterator | .nextByteIterator _ | .prevByteIterator _ => True
  | _ => False

theorem MmapReachable.wandered (hr : MmapReachable env openAction (fun _ op => op.Wanders) b h)
    (hs : env.Succeeds) (hopen : openAction ≠ .read) :
    ∃ a fd head ks, Window h b a fd head ks ∧ fd.writable = true := by
  obtain ⟨a, file, head, ks, w⟩ := hr.window hs fun g op hop => by
    refine ⟨fun len he => ?_, fun he => ?_⟩
    · rw [he] at hop
      exact hop
    · rw [he] at hop
      exact hop
  exact ⟨a, _, head, ks, w, by simpa using hopen⟩

/-- **A traversal visits all the bytes of the buffer** forward where what is mapped begins at the
head, and backward where it ends with the file. -/
theorem traversals_coherent (hs : env.Succeeds) (hopen : openAction ≠ .read)
    (hr : MmapReachable env openAction (fun _ op => op.Wanders) b h) :
    (VisitsForward env b h ↔ h.MapsFromHead b) ∧ (VisitsBackward env b h ↔ h.MapsToEnd b) := by
  obtain ⟨a, fd, head, ks, w, hw⟩ := hr.wandered hs hopen
  exact ⟨w.visitsForward_iff hs hw, w.visitsBackward_iff hs hw⟩

theorem traversals_coherent_lastBlock :
    ¬VisitsForward .generous 3 .lastBlock ∧ VisitsBackward .generous 3 .lastBlock := by
  have hfirst : Heap.lastBlock.fileOffsetOf 7 ≠ Heap.lastBlock.fileHead 3 := by decide +kernel
  have hlast : Heap.lastBlock.fileOffsetOf 7 + Heap.lastBlock.lenOf 7
      = (Heap.lastBlock.fileOf 3).length := by decide +kernel
  obtain ⟨hforward, hbackward⟩ := traversals_coherent succeeds_generous (by decide)
    (reachable_lastBlock (M := fun _ op => op.Wanders) trivial)
  constructor
  · rw [hforward]
    exact fun hmaps => hfirst (hmaps 7 (by rw [pagesOf_lastBlock]; rfl))
  · rw [hbackward]
    intro p hp
    rw [pagesOf_lastBlock] at hp
    have hpage : 7 = p := by simpa using hp
    rw [← hpage]
    exact hlast

/-- A step back from the end hides the first block from a traversal forward. -/
theorem traversal_misses : ¬∀ (env : Env) (openAction : MmapOpenAction) (b : Nat) (h : Heap),
    env.Succeeds → openAction ≠ .read →
    MmapReachable env openAction (fun _ op => op.Wanders) b h → VisitsForward env b h := by
  intro hall
  have hr := reachable_lastBlock (M := fun _ op => op.Wanders) trivial
  have hv := hall .generous .append 3 .lastBlock succeeds_generous (by decide) hr
  obtain ⟨a, fd, head, ks, w, hw⟩ := hr.wandered succeeds_generous (by decide)
  rw [w.visitsForward_iff succeeds_generous hw] at hv
  exact absurd (hv 7 (by rw [pagesOf_lastBlock]; rfl)) (by decide +kernel)

end Pb
