import PageBuf.Client.Tiling
import PageBuf.Readers.LineSearch

/-!
# Resting — a reader at the end of its buffer

A search that comes to the end of the buffer steps back by one byte, so there
has to be one. A reader waits at the end itself only while the buffer is empty,
and is to start over once it is not. What this takes of a buffer is stated for
both classes at once.
-/

namespace Pb

open StateRun

variable {env : Env} {h h' h'' : Heap} {b v n it off : Nat} {r r' : LineReader}
  {I E : Heap → Prop} {bi : ByteIterator}

/-! ## What a buffer keeps -/

/-- The invariant holds, and while the revision stands an empty buffer is empty. -/
structure Keeps (b : Nat) (I E : Heap → Prop) (h h' : Heap) : Prop where
  inv : I h'
  revision : h.revOf b ≤ h'.revOf b
  empty : h'.revOf b = h.revOf b → E h → E h'

theorem Keeps.refl (i : I h) : Keeps b I E h h := ⟨i, Nat.le_refl _, fun _ he => he⟩

theorem Keeps.trans (k : Keeps b I E h h') (k' : Keeps b I E h' h'') : Keeps b I E h h'' where
  inv := k'.inv
  revision := Nat.le_trans k.revision k'.revision
  empty := fun hrev he => by
    have hle := k.revision
    have hle' := k'.revision
    exact k'.empty (by omega) (k.empty (by omega) he)

/-- `lineReaderHasLine`, its subtraction checked. -/
def lineReaderHasLineChecked (env : Env) (r : LineReader) : PbM (Bool × LineReader) := do
  let r ← lineReaderSync env r
  if r.hasLine then pure (true, r)
  else do
    let size ← bufferGetDataSize env r.buffer
    if size = 0 then pure (false, r)
    else do
      let h ← get
      let (found, r) ← loopM .diverges (hasLineRound env) (size + h.next + 1) r
      if found then pure (true, r)
      else do
        let bi ← bufferPrevByteIterator env r.buffer r.byteIterator
        let bufferOffset ← checkedSub r.bufferOffset 1
        let r := { r with byteIterator := bi, bufferOffset := bufferOffset }
        if r.isTerminatedWithCr then pure (true, { r with hasLine := true })
        else if r.isTerminated then pure (true, { r with hasCr := false, hasLine := true })
        else pure (false, r)

/-! ## Calls and runs -/

/-- The calls on a line reader. -/
inductive LineOp where
  | hasLine
  | getLineLen
  | getLineData (n : Nat)
  | seekLine
  | terminateLine
  | terminateLineCheckCr
  | reset
deriving DecidableEq, Repr

/-- Running a call: the reader it leaves. -/
def execLine (env : Env) : LineOp → LineReader → PbM LineReader
  | .hasLine, r => return (← lineReaderHasLine env r).2
  | .getLineLen, r => return (← lineReaderGetLineLen env r).2
  | .getLineData n, r => return (← lineReaderGetLineData env r n).2
  | .seekLine, r => return (← lineReaderSeekLine env r).2
  | .terminateLine, r => return lineReaderTerminateLine r
  | .terminateLineCheckCr, r => return lineReaderTerminateLineCheckCr r
  | .reset, r => lineReaderReset env r

/-- A call on the buffers, of which the one that is read stays, or on the reader. -/
inductive LineStep (env : Env) (b : Nat) (Calls : Heap → Heap → Prop) (s : Search) :
    Search → Prop where
  | call {h' : Heap} : Calls s.heap h' → (h'.buffers b).isSome →
      LineStep env b Calls s { s with heap := h' }
  | ask {op : LineOp} {r' : LineReader} {h' : Heap} :
      execLine env op s.reader s.heap = .ok (r', h') → LineStep env b Calls s ⟨r', h'⟩

/-- The runs through fewer than `2^64` revisions since `v`. -/
def LineRun (env : Env) (b v : Nat) (Calls : Heap → Heap → Prop) : Search → Search → Prop :=
  Relation.ReflTransGen fun s s' => LineStep env b Calls s s' ∧ s'.heap.revOf b < v + 2 ^ 64

/-- From a state of the empty buffer to one with bytes: the revision is another one, and a reader
that has seen the empty buffer starts over. -/
structure LeavesEmpty (env : Env) (b : Nat) (h h' : Heap) : Prop where
  revision : revisionValue (h'.revOf b) ≠ revisionValue (h.revOf b)
  reset : ∀ r : LineReader, r.buffer = b → r.bufferDataRevision = revisionValue (h.revOf b) →
    lineReaderSync env r h' = lineReaderReset env r h'

/-- Fewer than `2^64` revisions can be told apart. -/
theorem leavesEmpty_of_lt (hb : (h'.buffers b).isSome) (hlt : h.revOf b < h'.revOf b)
    (hbound : h'.revOf b < h.revOf b + 2 ^ 64) : LeavesEmpty env b h h' := by
  have hrev : revisionValue (h'.revOf b) ≠ revisionValue (h.revOf b) := by
    unfold revisionValue
    omega
  refine ⟨hrev, fun r hbuf hr => ?_⟩
  obtain ⟨B, hB⟩ := Option.isSome_iff_exists.mp hb
  unfold lineReaderSync
  rw [hbuf]
  refine (bind_run (bufferGetDataRevision_run hB)).trans ?_
  rw [if_pos (by rw [hr]; exact hrev.symm)]

/-! ## What a reader needs of a buffer -/

/-- The calls that a reader makes keep a buffer of the invariant, and the iterators come to the
end of it right away only if it is empty. -/
structure Iterates (env : Env) (b : Nat) (I E : Heap → Prop) : Prop where
  alive : ∀ {h}, I h → (h.buffers b).isSome
  marked : ∀ {h} o, I h → Keeps b I E h (h.marked o)
  granted : ∀ {h}, I h → Keeps b I E h h.granted
  dataSize : ∀ {h}, I h → Returns (bufferGetDataSize env b) h
    (fun n h' => Keeps b I E h h' ∧ (n ≠ 0 → ¬E h))
  getIterator : ∀ {h}, I h → Returns (bufferGetIterator env b) h
    (fun it h' => Keeps b I E h h' ∧ (it = b → E h'))
  nextIterator : ∀ {h} it, I h → Returns (bufferNextIterator env b it) h
    (fun _ h' => Keeps b I E h h')
  prevIterator : ∀ {h}, I h → Returns (bufferPrevIterator env b b) h
    (fun it h' => Keeps b I E h h' ∧ (it = b → E h'))
  seek : ∀ {h} n, I h → Returns (bufferSeek env b n) h (fun _ h' => Keeps b I E h h')

theorem bufferIsEndIterator_iff : bufferIsEndIterator b it = true ↔ it = b := by
  simp [bufferIsEndIterator, trivialBufferIsEndIterator]

theorem returns_byteIteratorAt : Returns (byteIteratorAt it off) h
    (fun bi h' => h' = h ∧ bi.bufferIterator = it) :=
  returns_pageGetBase fun _ => Returns.pure ⟨rfl, rfl⟩

/-- The first byte of a page, or the end. -/
theorem returns_headByte {P : Prop} (hend : it = b → P) : Returns
    (if bufferIsEndIterator b it then pure ⟨it, 0, none⟩ else byteIteratorAt it 0 :
      PbM ByteIterator) h
    (fun bi h' => h' = h ∧ (bi.bufferIterator = b → bi = ⟨b, 0, none⟩ ∧ P)) := by
  split
  · next hit =>
      obtain rfl := bufferIsEndIterator_iff.mp hit
      exact Returns.pure ⟨rfl, fun _ => ⟨rfl, hend rfl⟩⟩
  · next hit =>
      refine returns_byteIteratorAt.mono fun bi h' hpost => ?_
      obtain ⟨rfl, rfl⟩ := hpost
      exact ⟨rfl, fun he => absurd (bufferIsEndIterator_iff.mpr he) hit⟩

/-- The reader waits at the end only of an empty buffer. -/
def Rests (b : Nat) (E : Heap → Prop) (r : LineReader) (h : Heap) : Prop :=
  r.hasLine = false → r.byteIterator.bufferIterator = b → E h

/-- The reader has seen a revision since `v`, and if it is the current one it rests. -/
structure LineReader.Notes (b v : Nat) (E : Heap → Prop) (r : LineReader) (h : Heap) : Prop where
  buffer : r.buffer = b
  seen : ∃ w, v ≤ w ∧ w ≤ h.revOf b ∧ r.bufferDataRevision = revisionValue w ∧
    (w = h.revOf b → Rests b E r h)

namespace LineReader.Notes

theorem le (t : r.Notes b v E h) : v ≤ h.revOf b := by
  obtain ⟨w, hv, hw, -⟩ := t.seen
  exact Nat.le_trans hv hw

/-- Fewer than `2^64` revisions can be told apart. -/
theorem rests (t : r.Notes b v E h) (hlt : h.revOf b < v + 2 ^ 64)
    (hrev : r.bufferDataRevision = revisionValue (h.revOf b)) : Rests b E r h := by
  obtain ⟨w, hv, hw, hseen, hr⟩ := t.seen
  refine hr ?_
  rw [hseen] at hrev
  unfold revisionValue at hrev
  omega

/-- A reader that has seen no other revision. -/
theorem moved (t : r.Notes b v E h) (hbuf : r'.buffer = r.buffer)
    (hrev : r'.bufferDataRevision = r.bufferDataRevision) (hle : h.revOf b ≤ h'.revOf b)
    (hr : h'.revOf b = h.revOf b → Rests b E r h → Rests b E r' h') : r'.Notes b v E h' := by
  obtain ⟨w, hv, hw, hseen, hrests⟩ := t.seen
  refine ⟨hbuf.trans t.buffer, w, hv, Nat.le_trans hw hle, hrev.trans hseen, fun heq => ?_⟩
  have hsame : h'.revOf b = h.revOf b := by omega
  exact hr hsame (hrests (heq.trans hsame))

theorem keeps (t : r.Notes b v E h) (k : Keeps b I E h h') : r.Notes b v E h' :=
  t.moved rfl rfl k.revision fun hrev hr hline hend => k.empty hrev (hr hline hend)

end LineReader.Notes

namespace Iterates

variable (c : Iterates env b I E)

include c

theorem memRead (q : Ptr) (n : Nat) (i : I h) :
    Returns (memRead q n) h (fun _ h' => Keeps b I E h h') :=
  Returns.of_run (memRead_run q n) (c.marked _ i)

/-! ## Byte iterators -/

theorem getByte (i : I h) : Returns (bufferGetByteIterator env b) h
    (fun bi h' => Keeps b I E h h' ∧ (bi.bufferIterator = b → E h')) := by
  refine Returns.bind (c.getIterator i) fun it h₁ hpost => ?_
  obtain ⟨k, hend⟩ := hpost
  refine (returns_headByte hend).mono fun bi h' hpost => ?_
  obtain ⟨rfl, hbi⟩ := hpost
  exact ⟨k, fun he => (hbi he).2⟩

/-- From a byte that is there. -/
theorem nextByte (i : I h) (hne : bi.bufferIterator ≠ b) :
    Returns (bufferNextByteIterator env b bi) h
      (fun bi' h' => Keeps b I E h h' ∧ (bi'.bufferIterator = b → bi' = ⟨b, 0, none⟩)) := by
  refine returns_pageGetLen fun _ => ?_
  split
  · refine Returns.bind (c.nextIterator _ i) fun it h₁ k => ?_
    refine (returns_headByte (P := True) fun _ => trivial).mono fun bi' h' hpost => ?_
    obtain ⟨rfl, hbi⟩ := hpost
    exact ⟨k, fun he => (hbi he).1⟩
  · refine returns_byteIteratorAt.mono fun bi' h' hpost => ?_
    obtain ⟨rfl, hbi⟩ := hpost
    exact ⟨.refl i, fun he => absurd (hbi.symm.trans he) hne⟩

/-- Back from the end. -/
theorem prevByte (i : I h) : Returns (bufferPrevByteIterator env b ⟨b, 0, none⟩) h
    (fun bi h' => Keeps b I E h h' ∧ (bi.bufferIterator = b → E h')) := by
  unfold bufferPrevByteIterator
  rw [if_pos rfl]
  refine Returns.bind (c.prevIterator i) fun it h₁ hpost => ?_
  obtain ⟨k, hend⟩ := hpost
  refine returns_pageGetLen fun _ => ?_
  split
  · exact Returns.pure ⟨k, hend⟩
  · refine returns_byteIteratorAt.mono fun bi h' hpost => ?_
    obtain ⟨rfl, rfl⟩ := hpost
    exact ⟨k, hend⟩

/-! ## The line reader -/

/-- A reader that starts over rests. -/
theorem reset (i : I h) (hbuf : r.buffer = b) :
    Returns (lineReaderReset env r) h (fun r' h' => Keeps b I E h h' ∧ Rests b E r' h' ∧
      ∀ v, v ≤ h'.revOf b → r'.Notes b v E h') := by
  unfold lineReaderReset
  rw [hbuf]
  refine Returns.bind (c.getByte i) fun bi h₁ hpost => ?_
  obtain ⟨k, hend⟩ := hpost
  obtain ⟨B, hB⟩ := Option.isSome_iff_exists.mp (c.alive k.inv)
  refine Returns.step (bufferGetDataRevision_run hB) (Returns.pure ?_)
  exact ⟨k, fun _ he => hend he, fun v hv =>
    ⟨rfl, _, hv, Nat.le_refl _, rfl, fun _ _ he => hend he⟩⟩

/-- A new reader. -/
theorem created (i : I h) : Returns (lineReaderCreate env b) h (fun o h' => ∀ r, o = some r →
    I h' ∧ r.Notes b (h'.revOf b) E h') := by
  unfold lineReaderCreate
  rcases request_cases env h with ⟨-, hreq⟩ | ⟨-, hreq⟩
  · refine Returns.step hreq ?_
    refine Returns.bind (c.reset (c.granted i).inv rfl) fun r' h' hpost => Returns.pure ?_
    rintro _ ⟨⟩
    exact ⟨hpost.1.inv, hpost.2.2 _ (Nat.le_refl _)⟩
  · refine Returns.step hreq (Returns.pure ?_)
    rintro r ⟨⟩

/-- Every function first starts over if the revision has moved, and then rests. -/
theorem sync (i : I h) (t : r.Notes b v E h)
    (hr : r.bufferDataRevision = revisionValue (h.revOf b) → Rests b E r h) :
    Returns (lineReaderSync env r) h
      (fun r' h' => Keeps b I E h h' ∧ r'.Notes b v E h' ∧ Rests b E r' h') := by
  unfold lineReaderSync
  obtain ⟨B, hB⟩ := Option.isSome_iff_exists.mp (c.alive i)
  rw [t.buffer]
  refine Returns.step (bufferGetDataRevision_run hB) ?_
  split
  · refine (c.reset i t.buffer).mono fun r' h' hpost => ?_
    exact ⟨hpost.1, hpost.2.2 v (Nat.le_trans t.le hpost.1.revision), hpost.2.1⟩
  · next hsame => exact Returns.pure ⟨.refl i, t, hr (not_not.mp hsame)⟩

/-- What a search that began at a byte comes to: a line, or the end of the buffer, which it was
not at before. -/
structure Sought (b : Nat) (r : LineReader) (q : Bool × LineReader) : Prop where
  buffer : q.2.buffer = r.buffer
  revision : q.2.bufferDataRevision = r.bufferDataRevision
  found : q.1 = true → q.2.hasLine = true
  ended : q.1 = false → q.2.byteIterator = ⟨b, 0, none⟩ ∧ 0 < q.2.bufferOffset ∧
    q.2.hasLine = false

/-- **The search.** Whoever comes to the end has taken a step. -/
theorem search (i : I h) (hbuf : r.buffer = b) (hline : r.hasLine = false)
    (hne : r.byteIterator.bufferIterator ≠ b) (fuel : Nat) :
    Returns (loopM .diverges (hasLineRound env) fuel r) h
      (fun q h' => Keeps b I E h h' ∧ Sought b r q) := by
  refine Returns.loop (I := fun s h' => Keeps b I E h h' ∧ s.buffer = b ∧
    s.bufferDataRevision = r.bufferDataRevision ∧ s.hasLine = false ∧
    (s.byteIterator.bufferIterator = b → s.byteIterator = ⟨b, 0, none⟩ ∧ 0 < s.bufferOffset))
    ?_ fuel r h ⟨.refl i, hbuf, rfl, hline, fun he => absurd he hne⟩
  rintro s h₁ ⟨k, hs, hrev, hline, hend⟩
  have hbuffer : s.buffer = r.buffer := hs.trans hbuf.symm
  unfold hasLineRound
  split
  · next hat =>
      refine Returns.pure ⟨k, hbuffer, hrev, by simp, fun _ => ?_⟩
      obtain ⟨hbi, hpos⟩ := hend (hs ▸ bufferIsEndIterator_iff.mp hat)
      exact ⟨hbi, hpos, hline⟩
  · next hat =>
      have hbyte : s.byteIterator.bufferIterator ≠ b := fun he =>
        hat (hs ▸ bufferIsEndIterator_iff.mpr he)
      have hread : Returns (byteIteratorGetCurrentByte s.byteIterator) h₁
          (fun _ h₂ => Keeps b I E h₁ h₂) := by
        unfold byteIteratorGetCurrentByte
        cases s.byteIterator.currentByte with
        | none => exact Returns.pure (.refl k.inv)
        | some q => exact Returns.bind (c.memRead q 1 k.inv) fun _ _ k' => Returns.pure k'
      refine Returns.bind hread fun x h₂ k₂ => ?_
      have k₂ := k.trans k₂
      split
      · exact Returns.pure ⟨k₂, hbuffer, hrev, fun _ => rfl, by simp⟩
      · dsimp only
        split
        · exact Returns.pure ⟨k₂, hbuffer, hrev, fun _ => rfl, by simp⟩
        · rw [hs]
          refine Returns.bind (c.nextByte k₂.inv hbyte) fun bi h₃ hpost => Returns.pure ?_
          obtain ⟨k₃, hbi⟩ := hpost
          exact ⟨k₂.trans k₃, rfl, hrev, hline, fun he => ⟨hbi he, Nat.succ_pos _⟩⟩

theorem hasLine (i : I h) (t : r.Notes b v E h)
    (hr : r.bufferDataRevision = revisionValue (h.revOf b) → Rests b E r h) :
    Returns (lineReaderHasLine env r) h
      (fun q h' => Keeps b I E h h' ∧ q.2.Notes b v E h') := by
  refine Returns.bind (c.sync i t hr) fun r₁ h₁ hpost => ?_
  obtain ⟨k₁, t₁, hr₁⟩ := hpost
  split
  · exact Returns.pure ⟨k₁, t₁⟩
  · next hline =>
      have hline := Bool.eq_false_iff.mpr hline
      rw [t₁.buffer]
      refine Returns.bind (c.dataSize k₁.inv) fun size h₂ hpost => ?_
      obtain ⟨k₂, hsize⟩ := hpost
      split
      · exact Returns.pure ⟨k₁.trans k₂, t₁.keeps k₂⟩
      · next hne =>
          have hbyte : r₁.byteIterator.bufferIterator ≠ b := fun he => hsize hne (hr₁ hline he)
          refine Returns.step get_run ?_
          refine Returns.bind (c.search k₂.inv t₁.buffer hline hbyte _) fun q h₃ hpost => ?_
          obtain ⟨found, r₂⟩ := q
          obtain ⟨k₃, hs⟩ := hpost
          have k₃ := k₂.trans k₃
          dsimp only
          cases found with
          | true =>
              refine Returns.pure ⟨k₁.trans k₃, t₁.moved hs.buffer hs.revision k₃.revision ?_⟩
              exact fun _ _ hn => absurd (hs.found rfl) (Bool.eq_false_iff.mp hn)
          | false =>
              obtain ⟨hend, -, -⟩ := hs.ended rfl
              dsimp only at hend
              have hbuf : r₂.buffer = b := hs.buffer.trans t₁.buffer
              rw [if_neg Bool.false_ne_true, hbuf, hend]
              refine Returns.bind (c.prevByte k₃.inv) fun bi h₄ hpost => ?_
              obtain ⟨k₄, hrests⟩ := hpost
              have k₄ := k₃.trans k₄
              have hnotes : ∀ {r' : LineReader}, r'.buffer = b →
                  r'.bufferDataRevision = r₂.bufferDataRevision → r'.byteIterator = bi →
                  r'.Notes b v E h₄ := fun hb hrev hbi =>
                t₁.moved (hb.trans t₁.buffer.symm) (hrev.trans hs.revision) k₄.revision
                  fun _ _ _ he => hrests (hbi ▸ he)
              split
              · exact Returns.pure ⟨k₁.trans k₄, hnotes rfl rfl rfl⟩
              · split
                · exact Returns.pure ⟨k₁.trans k₄, hnotes rfl rfl rfl⟩
                · exact Returns.pure ⟨k₁.trans k₄, hnotes rfl rfl rfl⟩

/-- **The offset is never taken below zero.** -/
theorem hasLineChecked_eq (i : I h) (t : r.Notes b v E h)
    (hr : r.bufferDataRevision = revisionValue (h.revOf b) → Rests b E r h) :
    lineReaderHasLineChecked env r h = lineReaderHasLine env r h := by
  refine Returns.bind_congr (c.sync i t hr) fun r₁ h₁ hpost => ?_
  obtain ⟨k₁, t₁, hr₁⟩ := hpost
  split
  · rfl
  · next hline =>
      have hline := Bool.eq_false_iff.mpr hline
      rw [t₁.buffer]
      refine Returns.bind_congr (c.dataSize k₁.inv) fun size h₂ hpost => ?_
      obtain ⟨k₂, hsize⟩ := hpost
      split
      · rfl
      · next hne =>
          have hbyte : r₁.byteIterator.bufferIterator ≠ b := fun he => hsize hne (hr₁ hline he)
          refine Returns.bind_congr (P := fun _ h' => h' = h₂) (Returns.of_run get_run rfl) ?_
          rintro _ _ rfl
          refine Returns.bind_congr (c.search k₂.inv t₁.buffer hline hbyte _) fun q h₃ hpost => ?_
          obtain ⟨found, r₂⟩ := q
          obtain ⟨-, hs⟩ := hpost
          cases found with
          | true => rfl
          | false =>
              have hpos : 1 ≤ r₂.bufferOffset := (hs.ended rfl).2.1
              simp only [checkedSub_eq hpos, pure_bind]

theorem getLineLen (i : I h) (t : r.Notes b v E h)
    (hr : r.bufferDataRevision = revisionValue (h.revOf b) → Rests b E r h) :
    Returns (lineReaderGetLineLen env r) h
      (fun q h' => Keeps b I E h h' ∧ q.2.Notes b v E h' ∧ Rests b E q.2 h') := by
  refine Returns.bind (c.sync i t hr) fun r₁ h₁ hpost => ?_
  split
  · exact Returns.pure hpost
  · split
    · exact Returns.pure hpost
    · exact Returns.pure hpost

theorem getLineData (i : I h) (t : r.Notes b v E h)
    (hr : r.bufferDataRevision = revisionValue (h.revOf b) → Rests b E r h) (n : Nat) :
    Returns (lineReaderGetLineData env r n) h
      (fun q h' => Keeps b I E h h' ∧ q.2.Notes b v E h') := by
  refine Returns.bind (c.sync i t hr) fun r₁ h₁ hpost => ?_
  obtain ⟨k₁, t₁, hr₁⟩ := hpost
  split
  · exact Returns.pure ⟨k₁, t₁⟩
  · refine Returns.bind (c.getLineLen k₁.inv t₁ fun _ => hr₁) fun q h₂ hpost => ?_
    obtain ⟨len, r₂⟩ := q
    obtain ⟨k₂, t₂, -⟩ := hpost
    dsimp only at t₂ ⊢
    rw [t₂.buffer]
    refine Returns.bind (c.getIterator k₂.inv) fun it h₃ hpost => ?_
    refine Returns.step get_run ?_
    refine Returns.bind (P := fun _ h' => Keeps b I E h₂ h') ?_
      fun out h₄ k₄ => Returns.pure ⟨k₁.trans (k₂.trans k₄), t₂.keeps k₄⟩
    refine Returns.loop (I := fun _ h' => Keeps b I E h₂ h') ?_ _ _ _ hpost.1
    intro s h₄ k₄
    unfold getLineDataRound
    split
    · exact Returns.pure k₄
    · refine returns_getPage fun P _ => ?_
      refine Returns.bind (c.memRead _ _ k₄.inv) fun bs h₅ k₅ => ?_
      refine Returns.bind (c.nextIterator _ k₅.inv) fun it h₆ k₆ => ?_
      exact Returns.pure (k₄.trans (k₅.trans k₆))

theorem seekLine (i : I h) (t : r.Notes b v E h)
    (hr : r.bufferDataRevision = revisionValue (h.revOf b) → Rests b E r h) :
    Returns (lineReaderSeekLine env r) h
      (fun q h' => Keeps b I E h h' ∧ q.2.Notes b v E h') := by
  refine Returns.bind (c.sync i t hr) fun r₁ h₁ hpost => ?_
  obtain ⟨k₁, t₁, hr₁⟩ := hpost
  split
  · exact Returns.pure ⟨k₁, t₁⟩
  · rw [t₁.buffer]
    refine Returns.bind (c.seek _ k₁.inv) fun n h₂ k₂ => ?_
    have k₂ := k₁.trans k₂
    refine Returns.bind (c.reset k₂.inv t₁.buffer) fun r₂ h₃ hpost => Returns.pure ?_
    have k₃ := k₂.trans hpost.1
    exact ⟨k₃, hpost.2.2 v (Nat.le_trans t.le k₃.revision)⟩

/-- **Any call of the reader** keeps the buffer, and the reader rests after it. -/
theorem exec {op : LineOp} (i : I h) (t : r.Notes b v E h) (hlt : h.revOf b < v + 2 ^ 64) :
    Returns (execLine env op r) h (fun r' h' => Keeps b I E h h' ∧ r'.Notes b v E h') := by
  have hr := t.rests hlt
  cases op with
  | hasLine => exact Returns.bind (c.hasLine i t hr) fun q h' hpost => Returns.pure hpost
  | getLineLen =>
      exact Returns.bind (c.getLineLen i t hr) fun q h' hpost => Returns.pure ⟨hpost.1, hpost.2.1⟩
  | getLineData n =>
      exact Returns.bind (c.getLineData i t hr n) fun q h' hpost => Returns.pure hpost
  | seekLine => exact Returns.bind (c.seekLine i t hr) fun q h' hpost => Returns.pure hpost
  | terminateLine => exact Returns.pure ⟨.refl i, t.moved rfl rfl (Nat.le_refl _) fun _ hn => hn⟩
  | terminateLineCheckCr =>
      exact Returns.pure ⟨.refl i, t.moved rfl rfl (Nat.le_refl _) fun _ hn => hn⟩
  | reset =>
      refine (c.reset i t.buffer).mono fun r' h' hpost => ?_
      exact ⟨hpost.1, hpost.2.2 v (Nat.le_trans t.le hpost.1.revision)⟩

end Iterates

/-! ## Runs -/

/-- What holds between the steps of a run. -/
structure Resting (b v : Nat) (I E : Heap → Prop) (s : Search) : Prop where
  inv : I s.heap
  reader : s.reader.Notes b v E s.heap
  lt : s.heap.revOf b < v + 2 ^ 64

/-- **A run** keeps it, if the calls on the buffers do. -/
theorem Resting.run {Calls : Heap → Heap → Prop} {s s' : Search} (c : Iterates env b I E)
    (hcalls : ∀ h h', I h → Calls h h' → (h'.buffers b).isSome → Keeps b I E h h')
    (t : Resting b v I E s) (hrun : LineRun env b v Calls s s') :
    Resting b v I E s' ∧ Keeps b I E s.heap s'.heap := by
  induction hrun with
  | refl => exact ⟨t, .refl t.inv⟩
  | tail _ hstep ih =>
      obtain ⟨t', k⟩ := ih
      obtain ⟨hstep, hlt⟩ := hstep
      cases hstep with
      | call hcall hb =>
          have k' := hcalls _ _ t'.inv hcall hb
          exact ⟨⟨k'.inv, t'.reader.keeps k', hlt⟩, k.trans k'⟩
      | ask hexec =>
          obtain ⟨k', t''⟩ := c.exec t'.inv t'.reader t'.lt _ _ hexec
          exact ⟨⟨k'.inv, t'', hlt⟩, k.trans k'⟩

/-- In every run of a buffer and a line reader of it: once the buffer has left the empty state its
revision shows that, and no search takes the offset below zero. -/
def FirstBytesLaw (env : Env) (b : Nat) (Calls : Heap → Heap → Prop) (bytes : Heap → List UInt8)
    (h₀ : Heap) : Prop :=
  ∀ r h s s', lineReaderCreate env b h₀ = .ok (some r, h) →
    LineRun env b (h.revOf b) Calls ⟨r, h⟩ s → LineRun env b (h.revOf b) Calls s s' →
    (bytes s.heap = [] → bytes s'.heap ≠ [] → LeavesEmpty env b s.heap s'.heap) ∧
      lineReaderHasLineChecked env s'.reader s'.heap = lineReaderHasLine env s'.reader s'.heap

/-- **The law** holds where the calls keep the buffer. -/
theorem Iterates.firstBytes {Calls : Heap → Heap → Prop} {bytes : Heap → List UInt8}
    (c : Iterates env b I (fun h => bytes h = []))
    (hcalls : ∀ h h', I h → Calls h h' → (h'.buffers b).isSome →
      Keeps b I (fun h => bytes h = []) h h') (i : I h) : FirstBytesLaw env b Calls bytes h := by
  intro r h₁ s s' hcreate hrun hrun'
  obtain ⟨i₁, t₁⟩ := c.created i _ _ hcreate r rfl
  have t : Resting b (h₁.revOf b) I (fun h => bytes h = []) ⟨r, h₁⟩ := ⟨i₁, t₁, by simp⟩
  obtain ⟨ts, -⟩ := t.run c hcalls hrun
  obtain ⟨ts', k⟩ := ts.run c hcalls hrun'
  refine ⟨fun hnil hne => leavesEmpty_of_lt (c.alive ts'.inv) ?_ ?_, ?_⟩
  · have hle := k.revision
    by_contra hge
    exact hne (k.empty (by omega) hnil)
  · have hlt := ts'.lt
    have hv := ts.reader.le
    omega
  · exact c.hasLineChecked_eq ts'.inv ts'.reader (ts'.reader.rests ts'.lt)

end Pb
