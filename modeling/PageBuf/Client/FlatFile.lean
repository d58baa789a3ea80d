import PageBuf.Lib.FlatFile
import PageBuf.Client.Iteration

/-!
# FlatFile — an mmap buffer is a file with a head

As long as no iterator is stepped by hand, an mmap buffer maps from its head on.
What is mapped then does not show: each call does to the file what the operation
of `FlatFile` does, whichever part of it has been read before.
-/

namespace Pb

open StateRun Function Ring Relation

variable {env : Env} {h h' g : Heap} {openAction : MmapOpenAction} {a b file : Nat}
  {ks : List Block} {f : FlatFile UInt8} {op : MmapOp} {p : FlatFile.Op UInt8}

/-- What a call asks of the file; iterators are no operations on one. -/
def MmapOp.flat : MmapOp → Option (FlatFile.Op UInt8)
  | .writeData buf => some (.write buf)
  | .writeDataRef buf => some (.write buf)
  | .extend len => some (.extend len)
  | .reserve size => some (.reserve size)
  | .rewind len => some (.rewind len)
  | .seek len => some (.seek len)
  | .overwriteData buf => some (.overwrite buf)
  | .readData len => some (.read len)
  | .clear => some .clear
  | .getDataSize => some .size
  | _ => none

def MmapRet.answer : MmapRet → Sequence.Answer UInt8
  | .count n => .count n
  | .bytes bs => .items bs
  | .unit | .iterator _ | .byteIterator _ => .done

/-- The file of the buffer and its head are those of `f`. -/
structure Heap.IsFlat (h : Heap) (b : Nat) (f : FlatFile UInt8) : Prop where
  items : h.fileOf b = f.items
  head : h.fileHead b = f.head

theorem Heap.IsFlat.content (i : h.IsFlat b f) : h.fileContent b = f.view := by
  rw [Heap.fileContent, i.items, i.head]
  rfl

/-- The buffer has the file `f` and maps from its head on. -/
structure Shown (h : Heap) (b a file : Nat) (ks : List Block) (f : FlatFile UInt8) : Prop where
  window : Window h b a ⟨file, true⟩ f.head ks
  items : h.files file = f.items
  start : startOf ks f.head = f.head

namespace Shown

variable (v : Shown h b a file ks f)

include v

theorem isFlat : h.IsFlat b f where
  items := by rw [v.window.opened.fileOf, v.items]
  head := v.window.opened.fileHead

theorem length_pagesOf : (h.pagesOf b).length = ks.length := by
  obtain ⟨R, m⟩ := v.window.maps
  rw [m.pagesOf, List.length_map]

theorem firstAt_eq : firstAt ⟨file, true⟩ ks f.head (h.files file).length = f.head := by
  rw [firstAt, if_pos rfl]
  exact v.start

/-- **One call** is one operation of the file. -/
theorem step (hs : env.Succeeds) (hp : op.flat = some p) (hlen : ks.length ≤ 65535) :
    Yields (execMmap env b op) h (fun r h' =>
      r.answer = (f.step 0 p).1 ∧ ∃ ks', Shown h' b a file ks' (f.step 0 p).2) := by
  have w := v.window
  have hfile := v.items
  have hfirst := v.firstAt_eq
  have hwrite : ∀ buf, Yields (bufferWriteData env b buf) h (fun n h' =>
      n = buf.length ∧ Shown h' b a file ks (f.write buf)) := by
    intro buf
    refine (w.writeData hs buf).mono fun n h' hpost => ?_
    obtain ⟨hn, hst⟩ := hpost
    have hitems := hst.file
    rw [hfile] at hitems
    exact ⟨hn, hst.window, hitems, v.start⟩
  have hgrow : ∀ {n : Nat} {h' : Heap},
      Stands h h' b a ⟨file, true⟩ (h.files file ++ List.replicate n 0) f.head 0 ks →
      Shown h' b a file ks (f.write (List.replicate n 0)) := by
    intro n h' hst
    have hitems := hst.file
    rw [hfile] at hitems
    exact ⟨hst.window, hitems, v.start⟩
  -- where nothing is mapped any more, what is to be mapped begins at the head
  have hmove : ∀ {h' : Heap} {f' : FlatFile UInt8},
      Stands h h' b a ⟨file, true⟩ (h.files file) f'.head 1 [] → f'.items = f.items →
      Shown h' b a file [] f' :=
    fun hst he => ⟨hst.window, hst.file.trans (hfile.trans he.symm), rfl⟩
  cases op with
  | writeData buf =>
      cases hp
      refine Yields.bind (hwrite buf) fun n h' hpost => yields_pure.mpr ?_
      exact ⟨congrArg Sequence.Answer.count hpost.1, ks, hpost.2⟩
  | writeDataRef buf =>
      cases hp
      refine Yields.bind (hwrite buf) fun n h' hpost => yields_pure.mpr ?_
      exact ⟨congrArg Sequence.Answer.count hpost.1, ks, hpost.2⟩
  | extend len =>
      cases hp
      refine Yields.bind (w.extend hs len) fun n h' hpost => yields_pure.mpr ?_
      obtain ⟨rfl, hst⟩ := hpost
      exact ⟨rfl, ks, hgrow hst⟩
  | reserve size =>
      cases hp
      refine Yields.bind (w.reserve hs size) fun n h' hpost => yields_pure.mpr ?_
      obtain ⟨hn, hst⟩ := hpost
      have hmissing : n = size - f.size := by
        rw [hn, hfile]
        rfl
      subst hmissing
      exact ⟨rfl, ks, hgrow hst⟩
  | rewind len =>
      cases hp
      refine Yields.bind ((w.rewind len).yields hlen) fun n h' hpost => yields_pure.mpr ?_
      obtain ⟨rfl, hst⟩ := hpost
      exact ⟨rfl, [], hmove hst rfl⟩
  | seek len =>
      cases hp
      refine Yields.bind ((w.seek hs len).yields hlen) fun n h' hpost => yields_pure.mpr ?_
      obtain ⟨hn, hst⟩ := hpost
      have hsize : n = min len f.size := by
        rw [hn, hfile]
        rfl
      subst hsize
      exact ⟨rfl, [], hmove hst rfl⟩
  | overwriteData buf =>
      cases hp
      refine Yields.bind (w.overwriteData hs buf) fun n h' hpost => yields_pure.mpr ?_
      obtain ⟨hn, ks', hst, hstart⟩ := hpost
      rw [hfirst] at hn hst
      have hsize : n = min buf.length f.size := by
        rw [hn, hfile]
        rfl
      have htake : buf.take n = buf.take f.size := by
        rw [hsize, Nat.min_comm, ← List.take_eq_take_min]
      have hpatch := hst.file
      rw [htake, hfile] at hpatch
      exact ⟨congrArg Sequence.Answer.count hsize, ks', hst.window, hpatch, hstart.trans v.start⟩
  | readData len =>
      cases hp
      refine Yields.bind (w.readData hs len) fun bs h' hpost => yields_pure.mpr ?_
      obtain ⟨hbs, ks', hst, hstart⟩ := hpost
      rw [hfirst, hfile] at hbs
      exact ⟨congrArg Sequence.Answer.items hbs, ks', hst.window, hst.file.trans hfile,
        hstart.trans v.start⟩
  | clear =>
      cases hp
      refine Yields.bind ((w.clear hs).yields hlen) fun _ h' hst => yields_pure.mpr ?_
      rw [hfile] at hst
      exact ⟨rfl, [], hst.window, hst.file, rfl⟩
  | getDataSize =>
      cases hp
      refine Yields.step (w.getDataSize hs) (yields_pure.mpr ?_)
      have hsize : (h.files file).length - f.head = f.size := by rw [hfile]; rfl
      exact ⟨congrArg Sequence.Answer.count hsize, ks, w.granted, hfile, v.start⟩
  | _ => cases hp

/-- Seeking leaves no block mapped, so the head can be moved back at once. -/
theorem seek_rewind (hs : env.Succeeds) (hlen : ks.length ≤ 65535) (n : Nat) :
    Yields (do
      let k ← bufferSeek env b n
      bufferRewind env b k) h (fun _ h' => Shown h' b a file [] f) := by
  have hfile := v.items
  have hle := f.le
  refine Yields.bind ((v.window.seek hs n).yields hlen) fun k g hpost => ?_
  obtain ⟨hk, hst⟩ := hpost
  refine ((hst.window.rewind k).yields (Nat.zero_le _)).mono fun _ h' hpost' => ?_
  obtain ⟨hm, hst'⟩ := hpost'
  have hback : f.head + k - min k (f.head + k) = f.head := by omega
  have hw := hst'.window
  rw [hm, hback] at hw
  exact ⟨hw, hst'.file.trans (hst.file.trans hfile), rfl⟩

end Shown

/-! ## Runs -/

/-- Calls that are operations on the file, with less than 65535 blocks mapped; the operations with
their answers. -/
inductive FlatRun (env : Env) (b : Nat) (h : Heap) :
    List (FlatFile.Op UInt8 × Sequence.Answer UInt8) → Heap → Prop where
  | nil : FlatRun env b h [] h
  | call {l g h' op p r} : FlatRun env b h l g → op.flat = some p →
      (g.pagesOf b).length < 65535 → execMmap env b op g = .ok (r, h') →
      FlatRun env b h (l ++ [(p, r.answer)]) h'

variable {h₀ : Heap} {l : List (FlatFile.Op UInt8 × Sequence.Answer UInt8)}
  {mem : Region → Nat → UInt8} {callerLen : Nat → Nat} {files : Nat → List UInt8}
  {closeAction : MmapCloseAction}

theorem FlatRun.shown (hrun : FlatRun env b h₀ l h) (hs : env.Succeeds)
    (v : Shown h₀ b a file [] f) : ∃ ks f', Shown h b a file ks f' ∧ FlatFile.Run 0 f l f' := by
  induction hrun with
  | nil => exact ⟨[], f, v, .nil⟩
  | call _ hp hfew hexec ih =>
      obtain ⟨ks, f', v', hl⟩ := ih
      rw [v'.length_pagesOf] at hfew
      obtain ⟨hr, ks', v''⟩ := (v'.step hs hp (Nat.le_of_lt hfew)).of_run hexec
      rw [hr]
      exact ⟨ks', _, v'', .snoc hl⟩

/-- The file of a block and a byte with one byte more. -/
def Heap.appended : Heap := Heap.twoBlocks.afterMmap .generous 3 (.writeData [7])

end Pb
