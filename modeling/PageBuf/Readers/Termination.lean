import PageBuf.Invariant.EveryCall
import PageBuf.Readers.LineSearch

/-!
# Termination — a line that is ended by force

`terminate_line` and `terminate_line_check_cr` tell the reader to take the end
of the content for the end of a line. A search that fails has stepped back by
one byte, to look at it again, and the forced line ends there: it is short of
the last byte. Where that byte is a carriage return on its own the length
wraps.
-/

namespace Pb

open StateRun Framing

variable {env : Env} {h₀ h h' : Heap} {R R' : Nat → List Nat} {b v : Nat}
  {r r' : LineReader} {bytes : List UInt8}

/-! ## A reader that may have been told to end its line -/

/-- The reader has seen the current revision. Its line, if it has one, lies in
the content. -/
structure Measures (b : Nat) (r : LineReader) (h : Heap) : Prop where
  buffer : r.buffer = b
  revision : r.bufferDataRevision = revisionValue (h.revOf b)
  inside : r.hasLine = true → r.bufferOffset ≤ (h.content b).length
  cr : r.hasLine = true → r.hasCr = true → 0 < r.bufferOffset
  searching : r.hasLine = false → Searching b r h

theorem Waits.measures (w : Waits b r h) : Measures b r h where
  buffer := w.current.buffer
  revision := w.current.revision
  inside := fun hn => absurd hn (by simp [w.hasLine])
  cr := fun hn => absurd hn (by simp [w.hasLine])
  searching := fun _ => w.scans

theorem Measures.marked (t : Measures b r h) (o : Bool) : Measures b r (h.marked o) :=
  ⟨t.buffer, t.revision, t.inside, t.cr, fun hn => (t.searching hn).marked o⟩

/-- The flags that end a line by force are for the next search. -/
theorem Measures.flagged {t tcr : Bool} (m : Measures b r h) :
    Measures b { r with isTerminated := t, isTerminatedWithCr := tcr } h where
  buffer := m.buffer
  revision := m.revision
  inside := m.inside
  cr := m.cr
  searching := fun hn => by
    obtain ⟨k, hs, hk⟩ := m.searching hn
    exact ⟨k, ⟨hs.position, hs.offset, hs.le, hs.cr⟩, hk⟩

/-- While the revision stands the line stays in the content. -/
theorem Measures.grow (t : Measures b r h) (g : Grows b h h') (hrev : h'.revOf b = h.revOf b) :
    Measures b r h' where
  buffer := t.buffer
  revision := by rw [t.revision, hrev]
  inside := fun hn => Nat.le_trans (t.inside hn) g.content.length_le
  cr := t.cr
  searching := fun hn => (t.searching hn).grow g hrev

/-- The length the reader tells; without a line it tells none. -/
def LineReader.answeredLen (r : LineReader) : Nat := if r.hasLine then r.toldLen else 0

/-- The end of the content is about to be taken for the end of a line, and the
content is one carriage return. -/
def LoneCr (b : Nat) (r : LineReader) (h : Heap) : Prop :=
  r.bufferDataRevision = revisionValue (h.revOf b) ∧ r.hasLine = false ∧
    r.isTerminatedWithCr = true ∧ h.content b = [13]

section Calls

variable (s : Sound h R) (ht : h.IsTrivial b)

include s ht

/-- Unless the content is one carriage return the search leaves a line in the
content. -/
theorem Measures.hasLine (t : Measures b r h) (hlone : ¬LoneCr b r h) :
    Yields (lineReaderHasLine env r) h (fun q h' => ∃ o, h' = h.marked o ∧ Measures b q.2 h) := by
  cases hline : r.hasLine with
  | true =>
      refine ⟨(true, r), h, ?_, h.overread, rfl, t⟩
      unfold lineReaderHasLine
      refine (bind_run (lineReaderSync_same env ht t.buffer t.revision)).trans ?_
      rw [if_pos hline]
      rfl
  | false =>
      refine (lineReaderHasLine_search s ht t.buffer t.revision hline (t.searching hline)).mono ?_
      intro q h' hpost
      obtain ⟨⟨o, rfl⟩, hends⟩ := hpost
      refine ⟨o, rfl, ?_⟩
      cases hends with
      | @line r' hhere hsame hline' hoffset hcr =>
          refine ⟨hsame.buffer.trans t.buffer, hsame.revision.trans t.revision, fun _ => ?_,
            fun _ htrue => ?_, fun hn => by simp [hline'] at hn⟩
          · exact hoffset ▸ h.length_lineOf_le b
          · -- the carriage return is a byte of the line
            rw [hoffset]
            refine List.length_pos_of_ne_nil fun hnil => ?_
            rw [hcr, Heap.lineCrlf, hnil] at htrue
            simp [endsWithCr] at htrue
      | empty hnil => exact t
      | @last found r' hnot hne hsame hfound hline' hscans hcr =>
          have hpos := List.length_pos_of_ne_nil hne
          have hoffset := hscans.offset
          refine ⟨hsame.buffer.trans t.buffer, hsame.revision.trans t.revision, fun _ => ?_,
            fun htrue hcr' => ?_, fun _ => ⟨_, hscans, .inr (by omega)⟩⟩
          · exact Nat.le_trans (Nat.le_of_eq hoffset) (Nat.sub_le _ _)
          -- the line ends at a carriage return only if the reader was told to check for it
          dsimp only at htrue hcr'
          rw [hline', hfound] at htrue
          rw [hcr, Bool.and_eq_true] at hcr'
          obtain ⟨hlast, hchecks⟩ := hcr'
          have hterminated : r.isTerminatedWithCr = true := by
            cases hcheck : r.isTerminatedWithCr with
            | true => rfl
            | false => simp [hcheck] at htrue hchecks; simp [htrue] at hchecks
          dsimp only
          rw [hoffset]
          by_contra hzero
          refine hlone ⟨t.revision, hline, hterminated, ?_⟩
          obtain ⟨c, hc⟩ := List.length_eq_one_iff.mp (show (h.content b).length = 1 by omega)
          rw [hc] at hlast ⊢
          simpa [endsWithCr] using hlast

omit s ht in
theorem Measures.answeredLen_le_offset (m : Measures b r h) (hline : r.hasLine = true) :
    r.answeredLen ≤ r.bufferOffset := by
  rw [LineReader.answeredLen, if_pos hline, LineReader.toldLen]
  split
  · rename_i hcr
    rw [wrapSub_of_le (m.cr hline hcr)]
    exact Nat.sub_le _ _
  · exact Nat.le_refl _

omit s ht in
theorem Measures.answeredLen_le (m : Measures b r h) :
    r.answeredLen ≤ (h.content b).length := by
  by_cases hline : r.hasLine = true
  · exact Nat.le_trans (m.answeredLen_le_offset hline) (m.inside hline)
  · rw [LineReader.answeredLen, if_neg hline]
    exact Nat.zero_le _

/-- What the reader tells without moving. -/
theorem Measures.asked (m : Measures b r h) :
    lineReaderGetLineLen env r h = .ok ((r.answeredLen, r), h) ∧
      ∀ n, Yields (lineReaderGetLineData env r n) h (fun q h' => (∃ o, h' = h.marked o) ∧
        q.1 = (h.content b).take (min n r.answeredLen) ∧ q.2 = r) := by
  cases hline : r.hasLine with
  | true =>
      rw [LineReader.answeredLen, if_pos hline]
      exact ⟨lineReaderGetLineLen_at ht m.buffer m.revision hline,
        fun n => lineReaderGetLineData_at s ht m.buffer m.revision hline n⟩
  | false =>
      obtain ⟨hlen, hdata, -⟩ := lineReader_nothing ht m.buffer m.revision hline
      rw [LineReader.answeredLen, if_neg (by simp [hline])]
      exact ⟨hlen, fun n => .intro (hdata n) ⟨⟨h.overread, rfl⟩, by simp, rfl⟩⟩

/-- The seek drops the line, if there is one. -/
theorem Measures.seeks {B : Buffer} (m : Measures b r h) (hfits : h.Fits)
    (hB : h.buffers b = some B) :
    Yields (lineReaderSeekLine env r) h (fun q h' =>
      r.hasLine = false ∧ q = (0, r) ∧ h' = h ∨
        r.hasLine = true ∧ Removes b h R r.toSeek B.strategy.rejectsSeek
          (fun k => (h.flat (R b)).drop k) q.1 h' ∧ Waits b q.2 h') := by
  cases hline : r.hasLine with
  | true =>
      exact (lineReaderSeekLine_at s ht hfits hB m.buffer m.revision hline).mono
        fun q h' hpost => .inr ⟨rfl, hpost⟩
  | false =>
      obtain ⟨-, -, hseek⟩ := lineReader_nothing ht m.buffer m.revision hline
      exact .intro hseek (.inl ⟨rfl, rfl, rfl⟩)

end Calls

/-! ## Runs -/

/-- Anything is done to the buffers, of which the one that is read stays, and
the reader is asked anything; whether there is a line it is asked in states
with the property `ok` only. -/
inductive TerminateStep (env : Env) (b : Nat) (ok : LineReader → Heap → Prop) (s : Search) :
    Search → Prop where
  | call {h' : Heap} : EveryCall env s.heap h' → (h'.buffers b).isSome →
      TerminateStep env b ok s { s with heap := h' }
  | hasLine {found r' h'} : ok s.reader s.heap →
      lineReaderHasLine env s.reader s.heap = .ok ((found, r'), h') →
      TerminateStep env b ok s ⟨r', h'⟩
  | getLineLen {len r' h'} : lineReaderGetLineLen env s.reader s.heap = .ok ((len, r'), h') →
      TerminateStep env b ok s ⟨r', h'⟩
  | getLineData {n data r' h'} :
      lineReaderGetLineData env s.reader n s.heap = .ok ((data, r'), h') →
      TerminateStep env b ok s ⟨r', h'⟩
  | seekLine {k r' h'} : lineReaderSeekLine env s.reader s.heap = .ok ((k, r'), h') →
      TerminateStep env b ok s ⟨r', h'⟩
  | terminateLine :
      TerminateStep env b ok s { s with reader := lineReaderTerminateLine s.reader }
  | terminateLineCheckCr :
      TerminateStep env b ok s { s with reader := lineReaderTerminateLineCheckCr s.reader }
  | reset {r' : LineReader} {h' : Heap} : lineReaderReset env s.reader s.heap = .ok (r', h') →
      TerminateStep env b ok s ⟨r', h'⟩

/-- The runs through fewer than `2^64` revisions since `v`. -/
def TerminateRun (env : Env) (b v : Nat) (ok : LineReader → Heap → Prop) :
    Search → Search → Prop :=
  Relation.ReflTransGen fun s s' =>
    TerminateStep env b ok s s' ∧ s'.heap.revOf b < v + 2 ^ 64

/-- What the reader says of its line fits the content: the length is computed
without wrapping and is no more than there is, as much is delivered, and no
less is dropped unless the strategy rejects that. -/
structure LineFits (env : Env) (b : Nat) (r : LineReader) (h : Heap) : Prop where
  exact : r.bufferDataRevision = revisionValue (h.revOf b) → r.hasLine = true →
    r.hasCr = true → 0 < r.bufferOffset
  told : ∃ len, len ≤ (h.content b).length ∧
    Yields (lineReaderGetLineLen env r) h (fun a _ => a.1 = len) ∧
    (∀ n, Yields (lineReaderGetLineData env r n) h (fun a _ => a.1.length = min n len)) ∧
    Yields (lineReaderSeekLine env r) h (fun a h' =>
      h'.content b = (h.content b).drop a.1 ∧
        ((∀ B, h.buffers b = some B → B.strategy.rejectsSeek = false) → len ≤ a.1))

/-! ## The invariant -/

/-- The reader has seen a revision since `v`. If it is the current one its line
lies in the content. -/
structure LineReader.Trails (b v : Nat) (r : LineReader) (h : Heap) : Prop where
  buffer : r.buffer = b
  seen : ∃ w, v ≤ w ∧ w ≤ h.revOf b ∧ r.bufferDataRevision = revisionValue w ∧
    (w = h.revOf b → Measures b r h)

theorem Measures.trails (t : Measures b r h) (hv : v ≤ h.revOf b) : r.Trails b v h :=
  ⟨t.buffer, h.revOf b, hv, Nat.le_refl _, t.revision, fun _ => t⟩

theorem LineReader.Trails.le (f : r.Trails b v h) : v ≤ h.revOf b := by
  obtain ⟨w, hv, hw, -⟩ := f.seen
  exact Nat.le_trans hv hw

/-- Fewer than `2^64` revisions can be told apart. -/
theorem LineReader.Trails.measures (f : r.Trails b v h) (hlt : h.revOf b < v + 2 ^ 64)
    (hrev : r.bufferDataRevision = revisionValue (h.revOf b)) : Measures b r h := by
  obtain ⟨w, hv, hw, hseen, ht⟩ := f.seen
  refine ht ?_
  rw [hseen] at hrev
  unfold revisionValue at hrev
  omega

/-- The flags that end a line by force are nothing to what the reader has seen. -/
theorem LineReader.Trails.flagged {t tcr : Bool} (f : r.Trails b v h) :
    ({ r with isTerminated := t, isTerminatedWithCr := tcr } : LineReader).Trails b v h := by
  obtain ⟨w, hv, hw, hseen, hm⟩ := f.seen
  exact ⟨f.buffer, w, hv, hw, hseen, fun heq => (hm heq).flagged⟩

/-- What a call moves, it moves under the reader. -/
theorem LineReader.Trails.moved {target : Option Nat} (f : r.Trails b v h) (s : Sound h R)
    (s' : Sound h' R') (hb : (h.buffers b).isSome) (hb' : (h'.buffers b).isSome)
    (m : Moved target h h' R R') : r.Trails b v h' := by
  obtain ⟨-, hle, st⟩ := m.stable hb' (s.inv.core.links.buffer_fresh hb)
  obtain ⟨w, hv, hw, hseen, ht⟩ := f.seen
  refine ⟨f.buffer, w, hv, Nat.le_trans hw hle, hseen, fun heq => ?_⟩
  have hrev : h'.revOf b = h.revOf b := by omega
  exact (ht (heq.trans hrev)).grow (st.grows s s' hb hb' hrev) hrev

variable (env) in
/-- The reader answers as one does that measures its line. -/
theorem LineReader.Trails.settle (f : r.Trails b v h) (hlt : h.revOf b < v + 2 ^ 64)
    (s : Sound h R) (ht : h.IsTrivial b) : ∃ r', Measures b r' h ∧ SameCalls env r r' h ∧
      (r.bufferDataRevision = revisionValue (h.revOf b) → r' = r) ∧
      (r.bufferDataRevision ≠ revisionValue (h.revOf b) → r'.isTerminatedWithCr = false) := by
  by_cases hrev : r.bufferDataRevision = revisionValue (h.revOf b)
  · exact ⟨r, f.measures hlt hrev, ⟨rfl, rfl, fun _ => rfl, rfl⟩, fun _ => rfl,
      fun hn => absurd hrev hn⟩
  · obtain ⟨r', hsync, hwaits⟩ := lineReaderSync_stale env s ht f.buffer hrev
    have hsync' : lineReaderSync env r' h = .ok (r', h) :=
      lineReaderSync_same env ht hwaits.current.buffer hwaits.current.revision
    exact ⟨r', hwaits.measures, sameCalls_of_sync hsync hsync', fun hn => absurd hn hrev,
      fun _ => hwaits.current.terminatedCr⟩

/-- What holds between the steps of a run. -/
structure TerminateInv (b v : Nat) (s : Search) : Prop where
  sound : ∃ R, Sound s.heap R
  small : s.heap.Small
  alive : (s.heap.buffers b).isSome
  reader : s.reader.Trails b v s.heap

section Step

variable {s s' : Search} (i : TerminateInv b v s) (hlt : s.heap.revOf b < v + 2 ^ 64)

include i

/-- A call of the reader that changes no buffer. -/
theorem TerminateInv.measures (o : Bool) (m : Measures b r' s.heap) :
    TerminateInv b v ⟨r', s.heap.marked o⟩ := by
  obtain ⟨R, sound⟩ := i.sound
  exact ⟨⟨R, sound.marked o⟩, i.small, i.alive, (m.marked o).trails i.reader.le⟩

include hlt

/-- **One step** keeps the invariant if it does not take one carriage return
for a line. -/
theorem TerminateInv.step (hstep : TerminateStep env b (fun r h => ¬LoneCr b r h) s s') :
    TerminateInv b v s' := by
  obtain ⟨R, sound⟩ := i.sound
  have ht := sound.isTrivial i.alive
  obtain ⟨r₁, hm, hsame, heq, hstale⟩ := i.reader.settle env hlt sound ht
  cases hstep with
  | call call hb' =>
      obtain ⟨hsmall, R', target, sound', m⟩ := call.leads sound
      exact ⟨⟨R', sound'⟩, hsmall, hb', i.reader.moved sound sound' i.alive hb' m⟩
  | @hasLine found r' h' hok hrun =>
      rw [hsame.hasLine] at hrun
      have hlone : ¬LoneCr b r₁ s.heap := by
        intro hl
        by_cases hrev : s.reader.bufferDataRevision = revisionValue (s.heap.revOf b)
        · exact hok (heq hrev ▸ hl)
        · exact Bool.false_ne_true ((hstale hrev).symm.trans hl.2.2.1)
      obtain ⟨o, rfl, hm'⟩ := (hm.hasLine sound ht hlone).of_run hrun
      exact i.measures o hm'
  | @getLineLen len r' h' hrun =>
      rw [hsame.len, (hm.asked sound ht).1] at hrun
      cases hrun
      exact i.measures s.heap.overread hm
  | @getLineData n data r' h' hrun =>
      rw [hsame.data] at hrun
      obtain ⟨⟨o, rfl⟩, -, rfl⟩ := ((hm.asked sound ht).2 n).of_run hrun
      exact i.measures o hm
  | @seekLine k r' h' hrun =>
      rw [hsame.seek] at hrun
      obtain ⟨B, hB⟩ := Option.isSome_iff_exists.mp i.alive
      have hfits := sound.fits i.small
      rcases (hm.seeks sound ht hfits hB).of_run hrun with ⟨-, hq, rfl⟩ | ⟨-, hk, hwaits⟩
      · cases hq
        exact i.measures s.heap.overread hm
      · obtain ⟨-, -, R', c, -⟩ := hk
        have hb' : (h'.buffers b).isSome := by
          rw [Heap.buffers_isSome_congr c.frame.kind]
          exact i.alive
        refine ⟨⟨R', sound.became c⟩, (c.fits hfits).small, hb', ?_⟩
        exact hwaits.measures.trails (Nat.le_trans i.reader.le c.frame.revision)
  | terminateLine => exact ⟨⟨R, sound⟩, i.small, i.alive, i.reader.flagged⟩
  | terminateLineCheckCr => exact ⟨⟨R, sound⟩, i.small, i.alive, i.reader.flagged⟩
  | @reset r' h' hrun =>
      obtain ⟨r'', hreset, hwaits⟩ := lineReaderReset_run env sound ht i.reader.buffer
      rw [hreset] at hrun
      cases hrun
      exact i.measures s.heap.overread hwaits.measures

/-- The line fits in every state of the invariant. -/
theorem TerminateInv.fits : LineFits env b s.reader s.heap := by
  obtain ⟨R, sound⟩ := i.sound
  have ht := sound.isTrivial i.alive
  obtain ⟨B, hB⟩ := Option.isSome_iff_exists.mp i.alive
  obtain ⟨r₁, hm, hsame, heq, -⟩ := i.reader.settle env hlt sound ht
  have hle := hm.answeredLen_le
  obtain ⟨hlen, hdata⟩ := hm.asked sound ht
  refine ⟨fun hrev => (heq hrev ▸ hm).cr, r₁.answeredLen, hle, ?_, fun n => ?_, ?_⟩
  · exact .of_eq hsame.len (.intro hlen rfl)
  · refine .of_eq (hsame.data n) ((hdata n).mono fun q h' hpost => ?_)
    rw [hpost.2.1, List.length_take]
    omega
  · refine .of_eq hsame.seek ((hm.seeks sound ht (sound.fits i.small) hB).mono fun q h' hpost => ?_)
    rcases hpost with ⟨hline, rfl, rfl⟩ | ⟨hline, hk, -⟩
    · refine ⟨by simp, fun _ => ?_⟩
      rw [LineReader.answeredLen, if_neg (by simp [hline])]
    · obtain ⟨hdrop, -, hall⟩ := hk.dropped sound ht
      refine ⟨hdrop, fun hrej => ?_⟩
      -- what is dropped is the line up to its end, or a byte more
      rw [hall (hrej B hB)]
      refine Nat.le_min.mpr ⟨Nat.le_trans (hm.answeredLen_le_offset hline) ?_, hle⟩
      unfold LineReader.toSeek
      split <;> omega

end Step

/-- **A run** keeps the invariant. -/
theorem TerminateInv.run {s s' : Search} (i : TerminateInv b v s)
    (hlt : s.heap.revOf b < v + 2 ^ 64)
    (hrun : TerminateRun env b v (fun r h => ¬LoneCr b r h) s s') :
    TerminateInv b v s' ∧ s'.heap.revOf b < v + 2 ^ 64 := by
  induction hrun with
  | refl => exact ⟨i, hlt⟩
  | tail _ hstep ih =>
      obtain ⟨i', hlt'⟩ := ih
      exact ⟨i'.step hlt' hstep.1, hstep.2⟩

/-! ## The length of a line -/

/-- In every run of the buffers and a reader of `b` whose questions are asked
in states with the property `ok` the line fits the content. -/
def LineLaw (env : Env) (b : Nat) (h₀ : Heap) (ok : LineReader → Heap → Prop) : Prop :=
  ∀ r h s, lineReaderCreate env b h₀ = .ok (some r, h) →
    TerminateRun env b (h₀.revOf b) ok ⟨r, h⟩ s → LineFits env b s.reader s.heap

/-- The buffer 1 holds some bytes that were written to it. -/
def Heap.holding (bytes : List UInt8) : Heap :=
  (Heap.twoBuffers trivialBufferStrategy trivialBufferStrategy).after .generous (.writeData 1 bytes)

/-- A new reader of it. -/
def LineReader.atHolding : LineReader :=
  ⟨1, ⟨6, 0, some ⟨.heap 4, 0⟩⟩, 1, 0, false, false, false, false⟩

/-- Bytes without a line feed, no more than a line may have. -/
def Unterminated (bytes : List UInt8) : Prop :=
  bytes ≠ [] ∧ bytes.length ≤ lineReaderMaxLineSize ∧ 10 ∉ bytes

/-- After `terminate_line` the content is the line: it is found, told as it is
and dropped as a whole. -/
def EndsLine (env : Env) (b : Nat) (r : LineReader) (h : Heap) : Prop :=
  Yields (lineReaderHasLine env (lineReaderTerminateLine r)) h (fun q h' => q.1 = true ∧
    Yields (lineReaderGetLineLen env q.2) h' (fun a _ => a.1 = (h.content b).length) ∧
    (∀ n, Yields (lineReaderGetLineData env q.2 n) h' (fun a _ => a.1 = (h.content b).take n)) ∧
    Yields (lineReaderSeekLine env q.2) h' (fun a h'' => a.1 = (h.content b).length ∧
      h''.content b = []))

theorem Unterminated.not_found (hu : Unterminated (h.content b)) : ¬h.HasLine b := by
  rw [hasLine_iff_lineFound]
  rintro (⟨i, -, hi⟩ | hlong)
  · exact hu.2.2 (List.mem_of_getElem? hi)
  · exact absurd hu.2.1 (Nat.not_le.mpr hlong)

section Forced

variable (s : Sound h R) (ht : h.IsTrivial b) (hu : Unterminated (h.content b))

include s ht hu

variable (env) in
/-- The line that is ended by force is short of the last byte. -/
theorem Waits.terminated (w : Waits b r h) :
    Yields (lineReaderHasLine env (lineReaderTerminateLine r)) h (fun q h' =>
      (∃ o, h' = h.marked o) ∧ q.1 = true ∧ q.2.hasLine = true ∧ Measures b q.2 h ∧
        q.2.toldLen = (h.content b).length - 1 ∧ q.2.toSeek = (h.content b).length - 1) := by
  have hcur := w.current
  have m : Measures b (lineReaderTerminateLine r) h :=
    w.measures.flagged
  have hlone : ¬LoneCr b (lineReaderTerminateLine r) h := by
    intro hl
    exact Bool.false_ne_true (hcur.terminatedCr.symm.trans hl.2.2.1)
  refine ((lineReaderHasLine_search s ht m.buffer m.revision w.hasLine
    (m.searching w.hasLine)).and (m.hasLine s ht hlone)).mono ?_
  rintro q h' ⟨⟨hmark, hends⟩, o, hmark', hm⟩
  refine ⟨hmark, ?_⟩
  cases hends with
  | line hhere => exact absurd hhere hu.not_found
  | empty hnil => exact absurd hnil hu.1
  | last hnot hne hsame hfound hline hscans hcr =>
      have hflag : (lineReaderTerminateLine r).isTerminatedWithCr = false := hcur.terminatedCr
      have hflag' : (lineReaderTerminateLine r).isTerminated = true := rfl
      rw [hflag, hflag', Bool.false_or] at hfound
      rw [hflag, hflag'] at hcr
      subst hfound
      refine ⟨rfl, hline, hm, ?_, ?_⟩
      · rw [LineReader.toldLen, hcr, hscans.offset]
        simp
      · rw [LineReader.toSeek, hsame.terminated, hscans.offset]
        rfl

/-- No reader that was not terminated before makes the content its line. -/
theorem Resumes.not_endsLine (hw : Resumes b r h) : ¬EndsLine env b r h := by
  have hpos := List.length_pos_of_ne_nil hu.1
  intro hends
  by_cases hrev : r.bufferDataRevision = revisionValue (h.revOf b)
  · rcases hw.2.resolve_left (not_not.mpr hrev) with hf | w
    · exact hu.not_found hf.here
    · obtain ⟨q, h', hrun, ⟨o, rfl⟩, -, hline, hm, htold, -⟩ := w.terminated env s ht hu
      obtain ⟨-, hlen, -⟩ := hends.of_run hrun
      have hn := hlen.of_run (lineReaderGetLineLen_at (h := h.marked o) (ht.marked o)
        hm.buffer hm.revision hline)
      dsimp only at hn
      omega
  · -- the reader starts over, and forgets what it was told
    have hresumes : Resumes b (lineReaderTerminateLine r) h := ⟨hw.1, .inl hrev⟩
    obtain ⟨q, h', hrun, -, hfound, -⟩ := lineReaderHasLine_spec s ht hresumes
    exact hu.not_found (hfound.mp (hends.of_run hrun).1)

end Forced

/-- In every run of the buffers and a reader of `b` `terminate_line` makes a
line of what has no line feed. -/
def TerminationLaw (env : Env) (b : Nat) (h₀ : Heap) : Prop :=
  ∀ r h s, lineReaderCreate env b h₀ = .ok (some r, h) →
    SearchRun env b (fun s => s.heap.revOf b < h₀.revOf b + 2 ^ 64) ⟨r, h⟩ s →
    Unterminated (s.heap.content b) → EndsLine env b s.reader s.heap

/-- **A line is never ended by force** as it should be: either the reader
forgets that it was told to, or the line is short of its last byte. -/
theorem terminateLine_short (hr : Reachable env h₀) (ht : h₀.IsTrivial b) {r : LineReader}
    {h : Heap} {s : Search} (hcreate : lineReaderCreate env b h₀ = .ok (some r, h))
    (hrun : SearchRun env b (fun s => s.heap.revOf b < h₀.revOf b + 2 ^ 64) ⟨r, h⟩ s)
    (hu : Unterminated (s.heap.content b)) : ¬EndsLine env b s.reader s.heap := by
  obtain ⟨i, hlt⟩ := searchInv_of_run hr ht hcreate hrun
  obtain ⟨R, sound⟩ := i.sound
  exact (i.reader.resumes hlt).not_endsLine sound (sound.isTrivial i.alive) hu

theorem reachable_ab : Reachable .generous (.holding [97, 98]) :=
  (reachable_twoBuffers _ _).after (isTrivial_twoBuffers _ _).1 rfl (by decide)

theorem terminateLine_short_ab :
    ¬EndsLine .generous 1 .atHolding (Heap.holding [97, 98]).granted :=
  terminateLine_short reachable_ab ⟨_, rfl, rfl⟩ rfl .refl ⟨by decide, by decide, by decide⟩

/-- **Two bytes** become a line of one byte. -/
theorem terminateLine_fails : ¬∀ env b h₀, Reachable env h₀ → h₀.IsTrivial b →
    TerminationLaw env b h₀ := by
  intro hlaw
  have hcreate : lineReaderCreate .generous 1 (.holding [97, 98])
      = .ok (some .atHolding, (Heap.holding [97, 98]).granted) := rfl
  have hends := hlaw _ 1 _ reachable_ab ⟨_, rfl, rfl⟩ _ _ _ hcreate .refl
    ⟨by decide, by decide, by decide⟩
  have hcut : lineReaderHasLine .generous (lineReaderTerminateLine .atHolding)
      (Heap.holding [97, 98]).granted = .ok ((true,
        ⟨1, ⟨6, 1, some ⟨.heap 4, 1⟩⟩, 1, 1, false, true, true, false⟩),
        (Heap.holding [97, 98]).granted) := rfl
  obtain ⟨-, hlen, -⟩ := hends.of_run hcut
  have hone : (1 : Nat) = 2 := hlen.of_run (a := (1, _)) rfl
  exact absurd hone (by decide)

end Pb
