import PageBuf.Client.FlatFile
import PageBuf.Client.Refinement

/-!
# Classes — a client that does not know the class of its buffer

Some calls do to the bytes of a buffer the same in both classes, although nothing
of their code is shared: bytes of a trivial buffer are in its pages, and those of
an mmap buffer are in its file. A client that keeps to them cannot tell which
buffer it has.
-/

namespace Pb

open StateRun Function Ring RefCount Sequence

variable {env env' : Env} {h h' g g' : Heap} {R R' : Nat → List Nat} {a b b' file len : Nat}
  {B : Buffer} {s : List UInt8} {ks : List Block} {f : FlatFile UInt8}

/-! ## The calls -/

/-- The calls that read and change nothing but the bytes of the buffer. -/
inductive ClassOp where
  | writeData (buf : List UInt8)
  | seek (len : Nat)
  | overwriteData (buf : List UInt8)
  | readData (len : Nat)
  | clear
  | getDataSize
deriving DecidableEq, Repr

/-- Running a call through the operations of the buffer; `overwrite_data` and `read_data` are
those of the trivial class in both. -/
def execClass (env : Env) (b : Nat) : ClassOp → PbM (Answer UInt8)
  | .writeData buf => return .count (← bufferWriteData env b buf)
  | .seek len => return .count (← bufferSeek env b len)
  | .overwriteData buf => return .count (← trivialBufferOverwriteData env b buf)
  | .readData len => return .items (← trivialBufferReadData env b len)
  | .clear => do bufferClear env b; return .done
  | .getDataSize => return .count (← bufferGetDataSize env b)

/-- What a call answers to a client whose buffer has the bytes `s`, and what it leaves of these. -/
def ClassOp.apply (s : List UInt8) : ClassOp → Answer UInt8 × List UInt8
  | .writeData buf => (.count buf.length, s ++ buf)
  | .seek len => (.count (min len s.length), s.drop (min len s.length))
  | .overwriteData buf => (.count (min buf.length s.length), overwrite s 0 (buf.take s.length))
  | .readData len => (.items (s.take len), s)
  | .clear => (.done, [])
  | .getDataSize => (.count s.length, s)

/-! ## The mmap class -/

/-- The call among those on an mmap buffer, and what it asks of the file. -/
def ClassOp.onMmap : ClassOp → MmapOp
  | .writeData buf => .writeData buf
  | .seek len => .seek len
  | .overwriteData buf => .overwriteData buf
  | .readData len => .readData len
  | .clear => .clear
  | .getDataSize => .getDataSize

def ClassOp.onFile : ClassOp → FlatFile.Op UInt8
  | .writeData buf => .write buf
  | .seek len => .seek len
  | .overwriteData buf => .overwrite buf
  | .readData len => .read len
  | .clear => .clear
  | .getDataSize => .size

theorem ClassOp.flat_onMmap (op : ClassOp) : op.onMmap.flat = some op.onFile := by cases op <;> rfl

theorem execClass_mmap (env : Env) (b : Nat) (op : ClassOp) :
    execClass env b op = (do return (← execMmap env b op.onMmap).answer) := by
  cases op <;> simp [execClass, execMmap, ClassOp.onMmap, MmapRet.answer]

/-- On what is seen of a file, the operation of the file is that on a sequence. -/
theorem ClassOp.apply_view (op : ClassOp) (f : FlatFile UInt8) :
    op.apply f.view = ((f.step 0 op.onFile).1, (f.step 0 op.onFile).2.view) := by
  cases op <;> simp [ClassOp.apply, ClassOp.onFile, FlatFile.step, ← f.length_view]

theorem Shown.execClass (v : Shown h b a file ks f) (hs : env.Succeeds) (hf : h.Fits)
    (op : ClassOp) : Yields (execClass env b op) h (fun r h' =>
      r = (op.apply f.view).1 ∧
      ∃ ks' f', Shown h' b a file ks' f' ∧ f'.view = (op.apply f.view).2) := by
  obtain ⟨R, m⟩ := v.window.maps
  have hlen : ks.length ≤ 65535 := by
    have hrefs := hf.allocs a
    rw [m.allocRefs_eq] at hrefs
    omega
  rw [execClass_mmap, op.apply_view]
  refine Yields.bind (v.step hs op.flat_onMmap hlen) fun r h' hpost => yields_pure.mpr ?_
  obtain ⟨hr, ks', v'⟩ := hpost
  exact ⟨hr, ks', _, v', rfl⟩

/-! ## The trivial class -/

/-- The buffer has the bytes `s`, be it of one class or of the other. -/
inductive Bears (h : Heap) (b : Nat) : List UInt8 → Prop where
  | trivial (R : Nat → List Nat) (B : Buffer) : Inv h R → h.Full (R b) → h.buffers b = some B →
      B.operations = .trivial → B.strategy.RejectsNothing → Bears h b (h.flat (R b))
  | mmap (a file : Nat) (ks : List Block) (f : FlatFile UInt8) : Shown h b a file ks f →
      Bears h b f.view

/-- A trivial buffer that is still there has what its pages have. -/
theorem bears_of_kind (hB : h.buffers b = some B) (hop : B.operations = .trivial)
    (hσ : B.strategy.RejectsNothing) (hk : h'.kindOf b = h.kindOf b) (hi : Inv h' R')
    (hfull : h'.Full (R' b)) : Bears h' b (h'.flat (R' b)) := by
  rw [show h.kindOf b = some (B.strategy, B.operations) by rw [Heap.kindOf, hB]; rfl] at hk
  obtain ⟨B', hB', hk'⟩ := Option.map_eq_some_iff.mp hk
  obtain ⟨hs, hop'⟩ := Prod.mk.inj hk'
  exact .trivial R' B' hi hfull hB' (hop'.trans hop) (hs ▸ hσ)

/-- **One call on a trivial buffer.** -/
theorem execClass_trivial (hs : env.Succeeds) (hi : Inv h R) (hf : h.Fits) (hfull : h.Full (R b))
    (hB : h.buffers b = some B) (hop : B.operations = .trivial) (hσ : B.strategy.RejectsNothing)
    (op : ClassOp) : Yields (execClass env b op) h (fun r h' =>
      r = (op.apply (h.flat (R b))).1 ∧ Bears h' b (op.apply (h.flat (R b))).2) := by
  have ht : h.IsTrivial b := ⟨B, hB, hop⟩
  have hno : ¬Refused env := by
    rintro ⟨k, hk⟩
    simp [hs.memory k] at hk
  have hbecame : ∀ {h' R' r out}, Became b h h' R R' r out → Bears h' b out := fun s => by
    rw [← s.content]
    exact bears_of_kind hB hop hσ (congrFun s.frame.kind b) s.inv (s.full hfull)
  have hdispatch : ∀ {α : Type} {f : Buffer → PbM α} {P : α → Heap → Prop},
      Yields (f B) h P → Yields (getBuffer b >>= f) h P := fun hy => hy.step (getBuffer_run hB)
  cases op with
  | writeData buf =>
      refine Yields.bind (hdispatch ?_) fun k h' hk => yields_pure.mpr hk
      rw [hop]
      refine (trivialBufferWriteData_spec hi hB hop buf).mono fun k h' hk => ?_
      obtain ⟨-, hall, R', out, rfl, g⟩ := hk
      have hk : k = buf.length := by_contra fun hn => by simpa [hno, hσ.write] using hall hn
      have hcontent := g.content
      rw [hk, List.take_length, List.append_nil] at hcontent
      refine ⟨by rw [hk]; rfl, ?_⟩
      show Bears h' b (h.flat (R b) ++ buf)
      rw [← hcontent]
      exact bears_of_kind hB hop hσ (congrFun g.frame.kind b) ⟨g.core, g.totals⟩
        (g.full hfull trivial)
  | seek len =>
      refine Yields.bind (hdispatch ?_) fun k h' hk => yields_pure.mpr hk
      rw [hop]
      refine (trivialBufferSeek_spec hi hf hfull hB hop len).mono fun k h' hk => ?_
      obtain ⟨-, hall, R', s, -⟩ := hk
      have hk : k = min len (h.flat (R b)).length :=
        by_contra fun hn => by simpa [hσ.seek] using hall hn
      subst hk
      exact ⟨rfl, hbecame s⟩
  | overwriteData buf =>
      refine Yields.bind (trivialBufferOverwriteData_spec hi hf hfull hB hop buf) fun k h' hk =>
        yields_pure.mpr ?_
      obtain ⟨-, hall, s, -⟩ := hk
      have hk : k = min buf.length (h.flat (R b)).length :=
        by_contra fun hn => by simpa [hno, hσ.overwrite] using hall hn
      have hcut : buf.take (min buf.length (h.flat (R b)).length) = buf.take (h.flat (R b)).length := by
        rw [Nat.min_comm, ← List.take_eq_take_min]
      have happly : (ClassOp.apply (h.flat (R b)) (.overwriteData buf)).2
          = buf.take k ++ (h.flat (R b)).drop k := by
        rw [hk, hcut]
        simp [ClassOp.apply, overwrite, Nat.min_comm]
      rw [happly]
      exact ⟨by rw [hk]; rfl, hbecame s⟩
  | readData len =>
      refine Yields.bind (trivialBufferReadData_spec hi.core.links ht len) fun bs h' hpost =>
        yields_pure.mpr ?_
      obtain ⟨rfl, o, rfl⟩ := hpost
      exact ⟨rfl, bears_of_kind hB hop hσ rfl ⟨hi.core.idle { Idle.refl h with }, hi.totals⟩ hfull⟩
  | clear =>
      refine Yields.bind (hdispatch ?_) fun _ h' hk => yields_pure.mpr hk
      rw [hop]
      refine (trivialBufferClear_spec hi hf ht).mono fun _ h' s => ?_
      exact ⟨rfl, hbecame s⟩
  | getDataSize =>
      have hsize : bufferGetDataSize env b h = .ok (B.dataSize, h) := by
        refine (bind_run (getBuffer_run hB)).trans ?_
        rw [hop]
        exact trivialBufferGetDataSize_run hi.core hi.totals hB
      refine Yields.step hsize (yields_pure.mpr ⟨?_, ?_⟩)
      · rw [hi.totals.size hB]
        rfl
      · exact bears_of_kind hB hop hσ rfl hi hfull

theorem Bears.execClass (v : Bears h b s) (hs : env.Succeeds) (hf : h.Fits) (op : ClassOp) :
    Yields (execClass env b op) h (fun r h' => r = (op.apply s).1 ∧ Bears h' b (op.apply s).2) := by
  cases v with
  | trivial R B hi hfull hB hop hσ => exact execClass_trivial hs hi hf hfull hB hop hσ op
  | mmap a file ks f w =>
      refine (w.execClass hs hf op).mono fun r h' hpost => ?_
      obtain ⟨hr, ks', f', w', hview⟩ := hpost
      exact ⟨hr, hview ▸ .mmap a file ks' f' w'⟩

/-- The bytes of a buffer, in its pages or in its file. -/
def Heap.bytesOf (h : Heap) (b : Nat) : List UInt8 :=
  match (h.buffers b).map Buffer.operations with
  | some (.mmap _) => h.fileContent b
  | _ => h.content b

theorem Bears.bytesOf (v : Bears h b s) : h.bytesOf b = s := by
  cases v with
  | trivial R B hi hfull hB hop hσ =>
      simp only [Heap.bytesOf, hB, hop, Option.map_some]
      exact hi.core.links.content (by rw [hB]; rfl)
  | mmap a file ks f w =>
      obtain ⟨B, hB, hop⟩ := w.window.opened.getBuffer
      simp only [Heap.bytesOf, hB, hop, Option.map_some]
      exact w.isFlat.content

/-! ## Clients -/

/-- The calls made so far, with their answers. -/
abbrev Transcript : Type := List (ClassOp × Answer UInt8)

/-- A client that chooses each call by the answers it has got, while no 16-bit counter is at its
end. -/
inductive ClientRun (env : Env) (b : Nat) (next : Transcript → ClassOp) (h : Heap) :
    Transcript → Heap → Prop where
  | nil : ClientRun env b next h [] h
  | call {l g r h'} : ClientRun env b next h l g → g.Fits →
      execClass env b (next l) g = .ok (r, h') →
      ClientRun env b next h (l ++ [(next l, r)]) h'

/-- What the client sees in `n` calls on a buffer with the bytes `s`, and what it leaves. -/
def transcript (next : Transcript → ClassOp) (s : List UInt8) : Nat → Transcript × List UInt8
  | 0 => ([], s)
  | n + 1 =>
      let (l, t) := transcript next s n
      (l ++ [(next l, ((next l).apply t).1)], ((next l).apply t).2)

variable {next : Transcript → ClassOp} {l l' : Transcript} {σ : Strategy}

/-- **A client sees what the bytes of its buffer are**, and nothing else. -/
theorem ClientRun.transcript (hrun : ClientRun env b next h l g) (hs : env.Succeeds)
    (v : Bears h b s) :
    l = (transcript next s l.length).1 ∧ Bears g b (transcript next s l.length).2 := by
  induction hrun with
  | nil => exact ⟨rfl, v⟩
  | @call l g r h' _ hf hexec ih =>
      obtain ⟨hl, v'⟩ := ih
      obtain ⟨hr, v''⟩ := (v'.execClass hs hf (next l)).of_run hexec
      rw [List.length_append, List.length_singleton]
      simp only [Pb.transcript, ← hl]
      exact ⟨by rw [hr], v''⟩

theorem Serves.bears (v : Serves env b σ h) (hσ : σ.RejectsNothing) : Bears h b (h.content b) := by
  obtain ⟨R, s⟩ := v.reachable.sound
  obtain ⟨B, hB, rfl⟩ := v.buffer
  have hb : (h.buffers b).isSome := by rw [hB]; rfl
  rw [s.inv.core.links.content hb]
  exact .trivial R B s.inv (s.full b) hB ((s.isTrivial hb).allocator hB) hσ

/-- A client that writes a byte and then reads. -/
def writesFirst (l : Transcript) : ClassOp := if l = [] then .writeData [7] else .readData 1

end Pb
