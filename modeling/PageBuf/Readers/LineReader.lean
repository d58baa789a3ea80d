import PageBuf.Lib.Framing
import PageBuf.Client.Revision
import PageBuf.Readers.Reading

/-!
# LineReader — a search that is resumed

`pb_line_reader_has_line` looks for a line feed from where it stopped the last
time, one byte before the end it had reached. What the reader knows is a
function of the content: `Scans` says that it has passed the first `k` bytes,
none of them a line feed.
-/

namespace Pb

open StateRun Framing

variable {env : Env} {h h' : Heap} {R R' : Nat → List Nat} {F l₁ l₂ : List Nat}
  {b k len : Nat} {o : Bool} {r r' : LineReader}

/-- The bytes before the first line feed, or the bytes of a line that is ended
where it gets too long. -/
def Heap.lineOf (h : Heap) (b : Nat) : List UInt8 := cut 10 lineReaderMaxLineSize (h.content b)

/-- A line feed has arrived, or more bytes than a line may have. -/
def Heap.HasLine (h : Heap) (b : Nat) : Prop := (h.lineOf b).length < (h.content b).length

/-- The mark for a carriage return at the end of some bytes. -/
def endsWithCr (s : List UInt8) : Bool := s.getLast? = some 13

/-- The line ends with a carriage return and a line feed. -/
def Heap.lineCrlf (h : Heap) (b : Nat) : Bool :=
  (h.content b)[(h.lineOf b).length]? = some 10 && endsWithCr (h.lineOf b)

theorem endsWithCr_take_succ {s : List UInt8} {c : UInt8} (hc : s[k]? = some c) :
    endsWithCr (s.take (k + 1)) = decide (c = 13) := by
  obtain ⟨hk, rfl⟩ := List.getElem?_eq_some_iff.mp hc
  rw [endsWithCr, List.take_succ_eq_append_getElem hk, List.getLast?_concat]
  simp

theorem Heap.length_lineOf_le (h : Heap) (b : Nat) :
    (h.lineOf b).length ≤ (h.content b).length := length_cut_le _ _ _

theorem Heap.length_lineOf_le_max (h : Heap) (b : Nat) :
    (h.lineOf b).length ≤ lineReaderMaxLineSize := by
  rw [Heap.lineOf, length_cut]
  exact Nat.min_le_left _ _

/-- The reader has passed the first `k` bytes. Its mark for a carriage return
is right, unless it is about to look at a byte of the line again. -/
structure Scans (b : Nat) (r : LineReader) (h : Heap) (k : Nat) : Prop where
  position : h.IsBytePosition b r.byteIterator k
  offset : r.bufferOffset = k
  le : k ≤ (h.lineOf b).length
  cr : r.hasCr = endsWithCr ((h.content b).take k) ∨ k < (h.lineOf b).length

/-- The search has come to the end of the line, or of the content. -/
structure Stops (b : Nat) (r : LineReader) (h : Heap) (found : Bool) : Prop where
  position : h.IsBytePosition b r.byteIterator (h.lineOf b).length
  offset : r.bufferOffset = (h.lineOf b).length
  here : found = true ↔ h.HasLine b
  cr : found = true → r.hasCr = h.lineCrlf b

/-- What a search leaves alone. -/
structure SameSetup (r r' : LineReader) : Prop where
  buffer : r'.buffer = r.buffer
  revision : r'.bufferDataRevision = r.bufferDataRevision
  terminated : r'.isTerminated = r.isTerminated
  terminatedCr : r'.isTerminatedWithCr = r.isTerminatedWithCr

theorem SameSetup.refl (r : LineReader) : SameSetup r r := ⟨rfl, rfl, rfl, rfl⟩

theorem SameSetup.trans {r'' : LineReader} (hs : SameSetup r r') (hs' : SameSetup r' r'') :
    SameSetup r r'' where
  buffer := hs'.buffer.trans hs.buffer
  revision := hs'.revision.trans hs.revision
  terminated := hs'.terminated.trans hs.terminated
  terminatedCr := hs'.terminatedCr.trans hs.terminatedCr

/-! ## The search -/

section Search

variable (hl : Links h R F) (ht : h.IsTrivial b) (hf : h.Full (R b))

include hl ht hf

/-- One round looks at one byte. -/
theorem hasLineRound_spec (hs : Scans b r h k) (hbuf : r.buffer = b) :
    Yields (hasLineRound env r) (h.marked o) (fun q h' => (∃ o', h' = h.marked o') ∧
      match q with
      | .inl r' => k < (h.content b).length ∧ Scans b r' h (k + 1) ∧ SameSetup r r' ∧
          r'.hasLine = r.hasLine
      | .inr (found, r') => Stops b r' h found ∧ SameSetup r r' ∧
          r'.hasLine = (r.hasLine || found) ∧
          (found = false → r'.hasCr = endsWithCr (h.content b))) := by
  have hb := ht.isSome
  obtain ⟨hle, hend⟩ := hl.isEnd_iff hb hs.position
  have hfront := h.length_lineOf_le b
  unfold hasLineRound
  rw [hbuf]
  by_cases hk : k = (h.content b).length
  · -- the end: all bytes belong to the line
    rw [if_pos (hend.mpr hk)]
    have hall : k = (h.lineOf b).length := Nat.le_antisymm hs.le (by omega)
    refine yields_pure.mpr ⟨⟨o, rfl⟩, ⟨hall ▸ hs.position, hall ▸ hs.offset, ?_, by simp⟩, .refl r,
      by simp, fun _ => ?_⟩
    · unfold Heap.HasLine
      simp only [Bool.false_eq_true, false_iff]
      omega
    · rw [hs.cr.resolve_right (by omega), hk, List.take_length]
  · rw [if_neg (fun he => hk (hend.mp he))]
    have hlt : k < (h.content b).length := by omega
    refine Yields.bind (byteIteratorGetCurrentByte_spec (ht.marked o) (hl.marked o) hs.position
      hlt) ?_
    rintro c _ ⟨hc, o', rfl⟩
    have hc' : (h.content b)[k]? = some c := hc
    -- the line goes on unless this is a line feed or one byte too many
    have hgoes := lt_length_cut_iff hs.le hlt
    rw [← Heap.lineOf, hc'] at hgoes
    by_cases hten : c = 10
    · rw [if_pos hten]
      have hall : k = (h.lineOf b).length :=
        Nat.le_antisymm hs.le (Nat.le_of_not_lt fun hn => (hgoes.mp hn).1 (by rw [hten]))
      refine yields_pure.mpr ⟨⟨o', rfl⟩, ⟨hall ▸ hs.position, hall ▸ hs.offset, ?_, fun _ => ?_⟩,
        ⟨hbuf.symm, rfl, rfl, rfl⟩, by simp, by simp⟩
      · unfold Heap.HasLine
        simp only [true_iff]
        omega
      · have hcr := hs.cr.resolve_right (by omega)
        dsimp only
        have htake : (h.content b).take k = h.lineOf b := by
          rw [hall]
          exact (cut_eq_take _ _ _).symm
        rw [hcr, htake, Heap.lineCrlf, ← hall, hc', hten]
        simp
    · rw [if_neg hten]
      dsimp only
      by_cases hmax : k = lineReaderMaxLineSize
      · rw [if_pos (by rw [hs.offset, hmax])]
        have hall : k = (h.lineOf b).length :=
          Nat.le_antisymm hs.le (Nat.le_of_not_lt fun hn => (hgoes.mp hn).2 hmax)
        refine yields_pure.mpr ⟨⟨o', rfl⟩, ⟨hall ▸ hs.position, hall ▸ hs.offset, ?_, fun _ => ?_⟩,
          ⟨hbuf.symm, rfl, rfl, rfl⟩, by simp, by simp⟩
        · unfold Heap.HasLine
          simp only [true_iff]
          omega
        · rw [Heap.lineCrlf, ← hall, hc']
          simp [hten]
      · rw [if_neg (by rw [hs.offset]; exact hmax)]
        have hin : k < (h.lineOf b).length :=
          hgoes.mpr ⟨fun he => hten (Option.some.inj he), hmax⟩
        have hmarked : (h.marked o').IsBytePosition b r.byteIterator k := hs.position
        obtain ⟨bi, hrun, hpos⟩ := bufferNextByteIterator_run (hl.marked o') (ht.marked o') hf
          hmarked hlt
        refine Yields.step hrun (yields_pure.mpr ⟨⟨o', rfl⟩, hlt, ⟨hpos, ?_, hin, .inl ?_⟩,
          ⟨hbuf.symm, rfl, rfl, rfl⟩, rfl⟩)
        · dsimp only
          rw [hs.offset]
        · dsimp only
          rw [endsWithCr_take_succ hc']

/-- The search stops at the end of the line, or of the content. -/
theorem hasLineLoop_spec {fuel : Nat} (hs : Scans b r h k) (hbuf : r.buffer = b)
    (hfuel : (h.content b).length - k < fuel) :
    Yields (loopM .diverges (hasLineRound env) fuel r) (h.marked o) (fun q h' =>
      (∃ o', h' = h.marked o') ∧ Stops b q.2 h q.1 ∧ SameSetup r q.2 ∧
        q.2.hasLine = (r.hasLine || q.1) ∧
        (q.1 = false → q.2.hasCr = endsWithCr (h.content b))) := by
  refine Yields.loop
    (I := fun n r' h' => (∃ o', h' = h.marked o') ∧ ∃ k, n = (h.content b).length - k ∧
      Scans b r' h k ∧ SameSetup r r' ∧ r'.hasLine = r.hasLine)
    ?_ fuel _ _ _ ⟨⟨o, rfl⟩, k, rfl, hs, .refl r, rfl⟩ hfuel
  intro n r' h' hI
  obtain ⟨⟨o', rfl⟩, k', rfl, hs', hsame, hline⟩ := hI
  refine (hasLineRound_spec hl ht hf hs' (hsame.buffer.trans hbuf)).mono ?_
  intro q h' hq
  obtain ⟨hmark, hq⟩ := hq
  cases q with
  | inl r'' =>
      obtain ⟨hlt, hs'', hsame', hline'⟩ := hq
      exact ⟨_, by omega, hmark, k' + 1, rfl, hs'', hsame.trans hsame', hline'.trans hline⟩
  | inr q =>
      obtain ⟨hstops, hsame', hline', hcr⟩ := hq
      refine ⟨hmark, hstops, hsame.trans hsame', ?_, hcr⟩
      rw [hline', hline]

end Search

/-! ## The reader between two calls -/

/-- The reader has seen the current revision. -/
structure Current (b : Nat) (r : LineReader) (h : Heap) : Prop where
  buffer : r.buffer = b
  revision : r.bufferDataRevision = revisionValue (h.revOf b)
  terminated : r.isTerminated = false
  terminatedCr : r.isTerminatedWithCr = false

theorem SameSetup.current (hsame : SameSetup r r') (hc : Current b r h) : Current b r' h :=
  ⟨hsame.buffer.trans hc.buffer, hsame.revision.trans hc.revision,
    hsame.terminated.trans hc.terminated, hsame.terminatedCr.trans hc.terminatedCr⟩

/-- The length a reader tells of its line. -/
def LineReader.toldLen (r : LineReader) : Nat :=
  if r.hasCr then wrapSub r.bufferOffset 1 else r.bufferOffset

/-- What it asks the buffer to drop with the line. -/
def LineReader.toSeek (r : LineReader) : Nat :=
  if r.isTerminated then r.bufferOffset else r.bufferOffset + 1

/-- The reader knows its line. -/
structure Found (b : Nat) (r : LineReader) (h : Heap) : Prop where
  current : Current b r h
  hasLine : r.hasLine = true
  here : h.HasLine b
  offset : r.bufferOffset = (h.lineOf b).length
  cr : r.hasCr = h.lineCrlf b

/-- The reader waits for the line feed, at the last byte it has seen. -/
structure Waits (b : Nat) (r : LineReader) (h : Heap) : Prop where
  current : Current b r h
  hasLine : r.hasLine = false
  scans : ∃ k, Scans b r h k ∧ (h.content b = [] ∨ k < (h.content b).length)

/-- There is a byte to look at, unless the buffer is empty. -/
def Searching (b : Nat) (r : LineReader) (h : Heap) : Prop :=
  ∃ k, Scans b r h k ∧ (h.content b = [] ∨ k < (h.content b).length)

/-- The reader knows its line or waits for it. -/
def Attends (b : Nat) (r : LineReader) (h : Heap) : Prop := Found b r h ∨ Waits b r h

/-- The reader is to start over, or goes on from where it is. -/
def Resumes (b : Nat) (r : LineReader) (h : Heap) : Prop :=
  r.buffer = b ∧ (r.bufferDataRevision ≠ revisionValue (h.revOf b) ∨ Attends b r h)

/-- The reader starts over, knows its line, or waits. It has to start over only
once the buffer, empty when the reader saw it, has bytes. -/
def Watches (b : Nat) (r : LineReader) (h : Heap) : Prop :=
  r.buffer = b ∧ (r.bufferDataRevision ≠ revisionValue (h.revOf b) ∧ h.content b ≠ [] ∨
    Found b r h ∨ Waits b r h)

theorem Found.watches (f : Found b r h) : Watches b r h :=
  ⟨f.current.buffer, .inr (.inl f)⟩

theorem Waits.watches (w : Waits b r h) : Watches b r h :=
  ⟨w.current.buffer, .inr (.inr w)⟩

theorem Watches.resumes (w : Watches b r h) : Resumes b r h :=
  ⟨w.1, w.2.imp_left And.left⟩

theorem Attends.current (a : Attends b r h) : Current b r h := by
  cases a with
  | inl f => exact f.current
  | inr w => exact w.current

theorem Attends.resumes (a : Attends b r h) : Resumes b r h := ⟨a.current.buffer, .inr a⟩

/-- The mark of an overread is nothing to the reader. -/
theorem Found.marked (f : Found b r h) (o : Bool) : Found b r (h.marked o) :=
  ⟨⟨f.current.buffer, f.current.revision, f.current.terminated, f.current.terminatedCr⟩,
    f.hasLine, f.here, f.offset, f.cr⟩

theorem Searching.marked (w : Searching b r h) (o : Bool) : Searching b r (h.marked o) := by
  obtain ⟨k, hs, hk⟩ := w
  exact ⟨k, ⟨hs.position, hs.offset, hs.le, hs.cr⟩, hk⟩

theorem Waits.marked (w : Waits b r h) (o : Bool) : Waits b r (h.marked o) := by
  have hsearch : Searching b r h := w.scans
  exact ⟨⟨w.current.buffer, w.current.revision, w.current.terminated, w.current.terminatedCr⟩,
    w.hasLine, hsearch.marked o⟩

/-- What the reader knows while the buffer only grows. -/
structure Grows (b : Nat) (h h' : Heap) : Prop where
  content : h.content b <+: h'.content b
  revision : h'.revOf b = h.revOf b + if h.content b = [] ∧ h'.content b ≠ [] then 1 else 0
  valid : h'.revOf b = h.revOf b → StillValid b h h'

/-- More bytes do not change a line that is complete. -/
theorem Heap.HasLine.append (hhere : h.HasLine b) (hpre : h.content b <+: h'.content b) :
    h'.lineOf b = h.lineOf b ∧ h'.HasLine b ∧ h'.lineCrlf b = h.lineCrlf b := by
  obtain ⟨t, ht⟩ := hpre
  have hline : h'.lineOf b = h.lineOf b := by
    rw [Heap.lineOf, ← ht]
    exact cut_append hhere t
  refine ⟨hline, ?_, ?_⟩
  · unfold Heap.HasLine at hhere ⊢
    rw [hline, ← ht, List.length_append]
    omega
  · rw [Heap.lineCrlf, Heap.lineCrlf, hline, ← ht, List.getElem?_append_left hhere]

theorem Found.grow (f : Found b r h) (g : Grows b h h') : Found b r h' := by
  have hhere := f.here
  obtain ⟨hline, hhere', hcr⟩ := hhere.append g.content
  have hne : h.content b ≠ [] := List.ne_nil_of_length_pos (Nat.lt_of_le_of_lt (Nat.zero_le _) hhere)
  have hrev : h'.revOf b = h.revOf b := by
    rw [g.revision, if_neg fun hc => hne hc.1]
    rfl
  exact ⟨⟨f.current.buffer, by rw [hrev, f.current.revision], f.current.terminated,
    f.current.terminatedCr⟩, f.hasLine, hhere', by rw [hline, f.offset], by rw [hcr, f.cr]⟩

/-- While the revision stands the search goes on where it is. -/
theorem Searching.grow (w : Searching b r h) (g : Grows b h h') (hrev : h'.revOf b = h.revOf b) :
    Searching b r h' := by
  have hbump : ¬(h.content b = [] ∧ h'.content b ≠ []) := by
    intro hfirst
    have := g.revision
    rw [if_pos hfirst] at this
    omega
  have hvalid := g.valid hrev
  obtain ⟨t, ht⟩ := g.content
  have hline : h.lineOf b <+: h'.lineOf b := by
    rw [Heap.lineOf, Heap.lineOf, ← ht]
    exact cut_prefix_append 10 _ _ t
  obtain ⟨k, hs, hk⟩ := w
  have hpos : h'.IsBytePosition b r.byteIterator k ∧
      (h'.content b = [] ∨ k < (h'.content b).length) := by
    by_cases hlt : k < (h.content b).length
    · refine ⟨(hvalid.position _ k hs.position hlt).1, .inr ?_⟩
      rw [← ht, List.length_append]
      omega
    · -- the reader stands at the end of an empty buffer, which stays empty
      have hnil := hk.resolve_right hlt
      have hnil' : h'.content b = [] := by
        by_contra hne
        exact hbump ⟨hnil, hne⟩
      rcases hs.position with ⟨hbi, hkk⟩ | ⟨m₁, p, m₂, off, hR, hoff, -, -⟩
      · exact ⟨.inl ⟨hbi, by rw [hkk, hnil, hnil']⟩, .inl hnil'⟩
      · exfalso
        have hlen := congrArg List.length hnil
        rw [Heap.content, hR, Heap.flat_append, Heap.flat_cons, List.length_append,
          List.length_append, Heap.length_pageBytes, List.length_nil] at hlen
        omega
  have hfront := h.length_lineOf_le b
  refine ⟨k, ⟨hpos.1, hs.offset, Nat.le_trans hs.le hline.length_le, ?_⟩, hpos.2⟩
  rcases hs.cr with hcr | hlt
  · left
    rw [hcr, ← ht, List.take_append_of_le_length (Nat.le_trans hs.le hfront)]
  · exact .inr (Nat.lt_of_lt_of_le hlt hline.length_le)

/-- While the revision stands a reader that waits goes on waiting. -/
theorem Waits.grow (w : Waits b r h) (g : Grows b h h') (hrev : h'.revOf b = h.revOf b) :
    Waits b r h' := by
  have hcur := w.current
  have hsearch : Searching b r h := w.scans
  exact ⟨⟨hcur.buffer, by rw [hrev, hcur.revision], hcur.terminated, hcur.terminatedCr⟩,
    w.hasLine, hsearch.grow g hrev⟩

theorem Watches.grow (hw : Watches b r h) (g : Grows b h h') : Watches b r h' := by
  obtain ⟨hbuf, ⟨hstale, hne⟩ | hf | hwait⟩ := hw
  · have hrev : h'.revOf b = h.revOf b := by
      rw [g.revision, if_neg fun hc => hne hc.1]
      rfl
    refine ⟨hbuf, .inl ⟨by rw [hrev]; exact hstale, fun hn => hne ?_⟩⟩
    exact List.prefix_nil.mp (hn ▸ g.content)
  · exact (hf.grow g).watches
  · by_cases hbump : h.content b = [] ∧ h'.content b ≠ []
    · -- the first bytes: the reader has to start over
      refine ⟨hbuf, .inl ⟨?_, hbump.2⟩⟩
      rw [hwait.current.revision, g.revision, if_pos hbump]
      unfold revisionValue
      omega
    · refine (hwait.grow g ?_).watches
      rw [g.revision, if_neg hbump]
      rfl

theorem Attends.grow (a : Attends b r h) (g : Grows b h h') (hrev : h'.revOf b = h.revOf b) :
    Attends b r h' := by
  cases a with
  | inl f => exact .inl (f.grow g)
  | inr w => exact .inr (w.grow g hrev)

theorem Attends.marked (a : Attends b r h) (o : Bool) : Attends b r (h.marked o) := by
  cases a with
  | inl f => exact .inl (f.marked o)
  | inr w => exact .inr (w.marked o)

/-- While the revision stands the buffer only grows. -/
theorem Stable.grows (st : Stable b h h' R R') (s : Sound h R) (s' : Sound h' R')
    (hb : (h.buffers b).isSome) (hb' : (h'.buffers b).isSome) (hrev : h'.revOf b = h.revOf b) :
    Grows b h h' := by
  obtain ⟨hpre, hsame, hnil⟩ := st hrev
  have hvalid := s.stillValid s' hb hb' hpre hsame
  refine ⟨?_, ?_, fun _ => hvalid⟩
  · obtain ⟨l, hl⟩ := hpre
    rw [s.content hb, s'.content hb', ← hl, Heap.flat_append, flat_of_same hsame]
    exact List.prefix_append _ _
  · have hno : ¬(h.content b = [] ∧ h'.content b ≠ []) := by
      intro hfirst
      rw [s.content hb, s'.content hb'] at hfirst
      have hle := (s.full b).length_le
      rw [hfirst.1] at hle
      refine hfirst.2 ?_
      rw [hnil (List.eq_nil_of_length_eq_zero (Nat.le_zero.mp hle))]
      rfl
    rw [hrev, if_neg hno]
    rfl

/-- How a search ends, by the answer and the reader it leaves. -/
inductive SearchEnds (b : Nat) (r : LineReader) (h : Heap) : Bool × LineReader → Prop where
  | line {r' : LineReader} : h.HasLine b → SameSetup r r' → r'.hasLine = true →
      r'.bufferOffset = (h.lineOf b).length → r'.hasCr = h.lineCrlf b →
      SearchEnds b r h (true, r')
  | empty : h.content b = [] → SearchEnds b r h (false, r)
  | last {found : Bool} {r' : LineReader} : ¬h.HasLine b → h.content b ≠ [] → SameSetup r r' →
      found = (r.isTerminatedWithCr || r.isTerminated) → r'.hasLine = found →
      Scans b r' h ((h.content b).length - 1) →
      r'.hasCr = (endsWithCr (h.content b) && (r.isTerminatedWithCr || !r.isTerminated)) →
      SearchEnds b r h (found, r')

/-- Every call answers on the one reader as on the other. -/
structure SameCalls (env : Env) (r r' : LineReader) (h : Heap) : Prop where
  hasLine : lineReaderHasLine env r h = lineReaderHasLine env r' h
  len : lineReaderGetLineLen env r h = lineReaderGetLineLen env r' h
  data : ∀ n, lineReaderGetLineData env r n h = lineReaderGetLineData env r' n h
  seek : lineReaderSeekLine env r h = lineReaderSeekLine env r' h

/-- A call answers as it does on the reader that has started over. -/
theorem sameCalls_of_sync (hsync : lineReaderSync env r h = .ok (r', h))
    (hsync' : lineReaderSync env r' h = .ok (r', h)) : SameCalls env r r' h := by
  refine ⟨?_, ?_, fun n => ?_, ?_⟩
  · unfold lineReaderHasLine
    rw [bind_run hsync, bind_run hsync']
  · unfold lineReaderGetLineLen
    rw [bind_run hsync, bind_run hsync']
  · unfold lineReaderGetLineData
    rw [bind_run hsync, bind_run hsync']
  · unfold lineReaderSeekLine
    rw [bind_run hsync, bind_run hsync']

section Calls

variable (s : Sound h R) (ht : h.IsTrivial b)

include s ht

variable (env) in
/-- `pb_line_reader_reset` takes the reader to the first byte. -/
theorem lineReaderReset_run (hbuf : r.buffer = b) :
    ∃ r', lineReaderReset env r h = .ok (r', h) ∧ Waits b r' h := by
  have hl := s.inv.core.links
  obtain ⟨B, hB, hop⟩ := id ht
  obtain ⟨bi, hrun, hpos⟩ := bufferGetByteIterator_run env hl ht (s.full b)
  refine ⟨⟨b, bi, revisionValue (h.revOf b), 0, false, false, false, false⟩, ?_, ?_⟩
  · unfold lineReaderReset
    rw [hbuf]
    refine (bind_run hrun).trans ?_
    exact (bind_run (bufferGetDataRevision_run hB)).trans rfl
  · refine ⟨⟨rfl, rfl, rfl, rfl⟩, rfl, 0, ⟨hpos, rfl, Nat.zero_le _, .inl rfl⟩, ?_⟩
    by_cases hne : h.content b = []
    · exact .inl hne
    · exact .inr (List.length_pos_of_ne_nil hne)

variable (env) in
omit s in
/-- While the revision stands no function of the reader starts over. -/
theorem lineReaderSync_same (hbuf : r.buffer = b)
    (hrev : r.bufferDataRevision = revisionValue (h.revOf b)) :
    lineReaderSync env r h = .ok (r, h) := by
  obtain ⟨B, hB, hop⟩ := id ht
  unfold lineReaderSync
  rw [hbuf]
  refine (bind_run (bufferGetDataRevision_run hB)).trans ?_
  rw [if_neg (not_not.mpr hrev)]
  rfl

variable (env) in
/-- Once it has moved every function does. -/
theorem lineReaderSync_stale (hbuf : r.buffer = b)
    (hrev : r.bufferDataRevision ≠ revisionValue (h.revOf b)) :
    ∃ r', lineReaderSync env r h = .ok (r', h) ∧ Waits b r' h := by
  obtain ⟨B, hB, hop⟩ := id ht
  obtain ⟨r', hrun, hwaits⟩ := lineReaderReset_run env s ht hbuf
  refine ⟨r', ?_, hwaits⟩
  unfold lineReaderSync
  rw [hbuf]
  refine (bind_run (bufferGetDataRevision_run hB)).trans ?_
  rw [if_pos hrev]
  exact hrun

variable (env) in
/-- Every function of the reader first starts over if the revision has moved. -/
theorem lineReaderSync_run (hw : Resumes b r h) :
    ∃ r', lineReaderSync env r h = .ok (r', h) ∧ Attends b r' h ∧ (Attends b r h → r' = r) := by
  obtain ⟨hbuf, hw⟩ := hw
  by_cases hrev : r.bufferDataRevision = revisionValue (h.revOf b)
  · exact ⟨r, lineReaderSync_same env ht hbuf hrev, hw.resolve_left fun hn => hn hrev,
      fun _ => rfl⟩
  · obtain ⟨r', hrun, hwaits⟩ := lineReaderSync_stale env s ht hbuf hrev
    exact ⟨r', hrun, .inr hwaits, fun a => absurd a.current.revision hrev⟩

variable (env) in
theorem Attends.sync (a : Attends b r h) : lineReaderSync env r h = .ok (r, h) := by
  obtain ⟨r', hrun, -, hsame⟩ := lineReaderSync_run env s ht a.resumes
  rw [hrun, hsame a]

/-- **The search** from where the reader is, whatever it was told to do with
the end of the content. -/
theorem lineReaderHasLine_search (hbuf : r.buffer = b)
    (hrev : r.bufferDataRevision = revisionValue (h.revOf b)) (hline : r.hasLine = false)
    (hsearch : Searching b r h) :
    Yields (lineReaderHasLine env r) h (fun q h' => (∃ o, h' = h.marked o) ∧
      SearchEnds b r h q) := by
  have hl := s.inv.core.links
  obtain ⟨B, hB, hop⟩ := id ht
  have hsize : B.dataSize = (h.content b).length := by
    rw [s.content ht.isSome]
    exact s.inv.totals.size hB
  unfold lineReaderHasLine
  refine Yields.step (lineReaderSync_same env ht hbuf hrev) ?_
  rw [if_neg (by simp [hline]), hbuf]
  refine Yields.step (bufferGetDataSize_run s.inv hB hop) ?_
  obtain ⟨k, hs, hk⟩ := hsearch
  by_cases hz : B.dataSize = 0
  · rw [if_pos hz]
    refine yields_pure.mpr ⟨⟨h.overread, rfl⟩, .empty ?_⟩
    exact List.eq_nil_of_length_eq_zero (by omega)
  · rw [if_neg hz]
    have hne : h.content b ≠ [] := fun hn => hz (by rw [hsize, hn]; rfl)
    have hlt : k < (h.content b).length := hk.resolve_left hne
    refine Yields.step get_run ?_
    refine Yields.bind (hasLineLoop_spec (o := h.overread) hl ht (s.full b) hs hbuf (by omega)) ?_
    rintro ⟨found, r'⟩ _ ⟨⟨o, rfl⟩, hs', hsame, hline', hcr⟩
    dsimp only at hs' hsame hline' hcr ⊢
    rw [hline, Bool.false_or] at hline'
    cases found with
    | true =>
        rw [if_pos rfl]
        exact yields_pure.mpr ⟨⟨o, rfl⟩,
          .line (hs'.here.mp rfl) hsame hline' hs'.offset (hs'.cr rfl)⟩
    | false =>
        rw [if_neg (by simp)]
        have hnot : ¬h.HasLine b := fun hn => by simpa using hs'.here.mpr hn
        have hall : (h.lineOf b).length = (h.content b).length := by
          have hle := h.length_lineOf_le b
          unfold Heap.HasLine at hnot
          omega
        -- back to the last byte, which is looked at again
        have hpos : (h.marked o).IsBytePosition b r'.byteIterator (h.lineOf b).length :=
          hs'.position
        obtain ⟨bi, hrun, hprev⟩ := bufferPrevByteIterator_run env (hl.marked o)
          (ht.marked o) (s.full b) hpos (by omega)
        rw [hsame.buffer, hbuf]
        refine Yields.step hrun ?_
        rw [hsame.terminated, hsame.terminatedCr]
        have hoffset : wrapSub r'.bufferOffset 1 = (h.content b).length - 1 := by
          rw [hs'.offset, wrapSub_of_le (by omega), hall]
        have hscans : ∀ cr line t tcr, Scans b ⟨b, bi, r'.bufferDataRevision,
            wrapSub r'.bufferOffset 1, cr, line, t, tcr⟩ h ((h.content b).length - 1) := by
          intro cr line t tcr
          exact ⟨hall ▸ hprev, hoffset, by omega, .inr (by omega)⟩
        have hsame' : ∀ cr line t tcr, r.isTerminated = t → r.isTerminatedWithCr = tcr →
            SameSetup r ⟨b, bi, r'.bufferDataRevision, wrapSub r'.bufferOffset 1, cr, line, t,
              tcr⟩ := by
          rintro cr line t tcr rfl rfl
          exact ⟨hbuf.symm, hsame.revision, rfl, rfl⟩
        cases hcrEnd : r.isTerminatedWithCr with
        | true =>
            rw [if_pos rfl]
            exact yields_pure.mpr ⟨⟨o, rfl⟩, .last hnot hne (hsame' _ _ _ _ rfl hcrEnd)
              (by simp [hcrEnd]) rfl (hscans _ _ _ _) (by simp [hcrEnd, hcr rfl])⟩
        | false =>
            rw [if_neg (by simp)]
            cases hend : r.isTerminated with
            | true =>
                rw [if_pos rfl]
                exact yields_pure.mpr ⟨⟨o, rfl⟩, .last hnot hne (hsame' _ _ _ _ hend hcrEnd)
                  (by simp [hend]) rfl (hscans _ _ _ _) (by simp [hcrEnd, hend])⟩
            | false =>
                rw [if_neg (by simp)]
                exact yields_pure.mpr ⟨⟨o, rfl⟩, .last hnot hne (hsame' _ _ _ _ hend hcrEnd)
                  (by simp [hcrEnd, hend]) hline' (hscans _ _ _ _) (by simp [hend, hcr rfl])⟩

/-- A line that was found is not searched for again. -/
theorem lineReaderHasLine_found (f : Found b r h) :
    lineReaderHasLine env r h = .ok ((true, r), h) := by
  unfold lineReaderHasLine
  refine (bind_run (Attends.sync env s ht (.inl f))).trans ?_
  rw [if_pos f.hasLine]
  rfl

/-- **`pb_line_reader_has_line`** is true exactly if a line feed has arrived. -/
theorem lineReaderHasLine_spec (hw : Resumes b r h) :
    Yields (lineReaderHasLine env r) h (fun q h' => (∃ o, h' = h.marked o) ∧
      (q.1 = true ↔ h.HasLine b) ∧
      (q.1 = true → Found b q.2 h) ∧ (q.1 = false → Waits b q.2 h)) := by
  obtain ⟨r', hsync, hstate, -⟩ := lineReaderSync_run env s ht hw
  refine Yields.of_eq (sameCalls_of_sync hsync (hstate.sync env s ht)).hasLine ?_
  rcases hstate with hfound | hwaits
  · refine Yields.intro (lineReaderHasLine_found s ht hfound) ?_
    exact ⟨⟨h.overread, rfl⟩, by simp [hfound.here], fun _ => hfound, fun hn => by simp at hn⟩
  · have hcur := hwaits.current
    refine (lineReaderHasLine_search s ht hcur.buffer hcur.revision hwaits.hasLine
      hwaits.scans).mono ?_
    rintro q h' ⟨hmark, hends⟩
    refine ⟨hmark, ?_⟩
    cases hends with
    | line hhere hsame hline hoffset hcr =>
        exact ⟨by simp [hhere], fun _ => ⟨hsame.current hcur, hline, hhere, hoffset, hcr⟩,
          fun hn => by simp at hn⟩
    | empty hnil =>
        refine ⟨?_, fun hn => by simp at hn, fun _ => hwaits⟩
        have hle := h.length_lineOf_le b
        unfold Heap.HasLine
        simp [hnil]
    | last hnot hne hsame hfound hline hscans hcr =>
        rw [hcur.terminated, hcur.terminatedCr] at hfound
        subst hfound
        refine ⟨by simp [hnot], fun hn => by simp at hn, fun _ => ?_⟩
        have hpos := List.length_pos_of_ne_nil hne
        exact ⟨hsame.current hcur, hline, _, hscans, .inr (by omega)⟩

/-! ## The line that was found -/

/-- The length of the line without the carriage return. -/
def Heap.lineLen (h : Heap) (b : Nat) : Nat :=
  if h.lineCrlf b then (h.lineOf b).length - 1 else (h.lineOf b).length

omit s ht in
theorem Heap.lineLen_le (h : Heap) (b : Nat) : h.lineLen b ≤ (h.lineOf b).length := by
  unfold Heap.lineLen
  split <;> omega

omit s in
/-- A reader that has a line tells its length as the flags say. -/
theorem lineReaderGetLineLen_at (hbuf : r.buffer = b)
    (hrev : r.bufferDataRevision = revisionValue (h.revOf b)) (hline : r.hasLine = true) :
    lineReaderGetLineLen env r h = .ok ((r.toldLen, r), h) := by
  unfold lineReaderGetLineLen
  refine (bind_run (lineReaderSync_same env ht hbuf hrev)).trans ?_
  rw [if_neg (by simp [hline]), LineReader.toldLen]
  by_cases hcr : r.hasCr = true
  · rw [if_pos hcr, if_pos hcr]
    rfl
  · rw [if_neg hcr, if_neg hcr]
    rfl

omit s ht in
/-- A line that was found is as long as the content says. -/
theorem Found.toldLen (f : Found b r h) : r.toldLen = h.lineLen b := by
  rw [LineReader.toldLen, f.cr, f.offset, Heap.lineLen]
  by_cases hcr : h.lineCrlf b = true
  · have hpos : 0 < (h.lineOf b).length := by
      refine List.length_pos_of_ne_nil fun hn => ?_
      simp [Heap.lineCrlf, hn, endsWithCr] at hcr
    rw [if_pos hcr, if_pos hcr, wrapSub_of_le hpos]
  · rw [if_neg hcr, if_neg hcr]

omit s in
/-- `pb_line_reader_get_line_len`. -/
theorem lineReaderGetLineLen_run (f : Found b r h) :
    lineReaderGetLineLen env r h = .ok ((h.lineLen b, r), h) := by
  rw [lineReaderGetLineLen_at ht f.current.buffer f.current.revision f.hasLine, f.toldLen]

/-- The pages are copied until the caller's memory or the line is full. -/
theorem getLineDataLoop_spec (lineLen : Nat) :
    Yields (loopM .diverges (getLineDataRound env b) (len + h.next + 1)
      ⟨(R b).headD b, len, lineLen, []⟩) h (fun out h' => (∃ o, h' = h.marked o) ∧
        out = (h.flat (R b)).take (min len lineLen)) := by
  have hl := s.inv.core.links
  have hb := ht.isSome
  refine Yields.loop
    (I := fun n t h' => n = t.len ∧ (∃ o, h' = h.marked o) ∧ ∃ m₁ m₂, R b = m₁ ++ m₂ ∧
      t.it = m₂.headD b ∧ t.out.length + t.len = len ∧ t.out.length + t.lineLen = lineLen ∧
      t.out = (h.flat (R b)).take t.out.length ∧
      (t.len ≠ 0 → t.lineLen ≠ 0 → t.out.length = (h.flat m₁).length))
    ?_ _ len _ _ ⟨rfl, ⟨h.overread, rfl⟩, [], R b, rfl, rfl, by simp, by simp, by simp,
      fun _ _ => rfl⟩ (by omega)
  intro n t h' hI
  obtain ⟨rfl, ⟨o, rfl⟩, m₁, m₂, hR, hit, hlen, hline, hout, hat⟩ := hI
  have hdone : t.it = b ↔ m₂ = [] := by
    rw [hit]
    exact hl.headD_eq_iff hb hR
  unfold getLineDataRound bufferIsEndIterator trivialBufferIsEndIterator
  by_cases hz : (t.len = 0 ∨ t.lineLen = 0) ∨ m₂ = []
  · rw [if_pos (by simpa [hdone] using hz)]
    refine yields_pure.mpr ⟨⟨o, rfl⟩, ?_⟩
    by_cases hfull : t.len = 0 ∨ t.lineLen = 0
    · rw [hout]
      congr 1
      omega
    · rw [not_or] at hfull
      have hend := hat hfull.1 hfull.2
      rw [hz.resolve_left (not_or.mpr hfull), List.append_nil] at hR
      rw [← hR] at hend
      rw [hout, hend, List.take_length, List.take_of_length_le]
      omega
  · rw [if_neg (by simpa [hdone] using hz)]
    rw [not_or, not_or] at hz
    obtain ⟨⟨hlen0, hline0⟩, hne⟩ := hz
    obtain ⟨m, rfl⟩ := Ring.exists_cons_of_headD hit hne
    have hpos := hat hlen0 hline0
    have hmem : t.it ∈ R b := by simp [hR]
    obtain ⟨P, hP⟩ := Option.isSome_iff_exists.mp
      (hl.node_live hb (List.mem_cons_of_mem b hmem))
    have hplen : P.dataVec.len = h.lenOf t.it := by rw [Heap.lenOf, Heap.vecOf_eq hP]
    have hbase : P.dataVec.base = (h.vecOf t.it).base := by rw [Heap.vecOf_eq hP]
    refine Yields.step (getPage_run (h := h.marked o) hP) ?_
    dsimp only
    rw [hplen, hbase]
    generalize hm : (if h.lenOf t.it < t.len then h.lenOf t.it else t.len) = i
    generalize hn : (if i < t.lineLen then i else t.lineLen) = n
    have hn' : n ≤ h.lenOf t.it ∧ n ≤ t.len ∧ n ≤ t.lineLen ∧ 0 < n ∧
        (n = h.lenOf t.it ∨ n = t.len ∨ n = t.lineLen) := by
      have hfull := s.full b t.it hmem
      rw [← hn, ← hm]
      split <;> split <;> omega
    obtain ⟨o', hread⟩ := memRead_marked (h := h) (o := o) (h.vecOf t.it).base n
    refine Yields.step hread (Yields.step (bufferNextIterator_run (ht.marked o') (hl.marked o') hR)
      (yields_pure.mpr ?_))
    refine ⟨t.len - n, by omega, rfl, ⟨o', rfl⟩, m₁ ++ [t.it], m, by simp [hR], rfl, ?_, ?_, ?_,
      ?_⟩
    · dsimp only
      rw [List.length_append, Heap.length_bytes]
      omega
    · dsimp only
      rw [List.length_append, Heap.length_bytes]
      omega
    · -- the bytes copied are the next ones of the content
      dsimp only
      have hnext : h.bytes (h.vecOf t.it).base n
          = ((h.flat (R b)).drop t.out.length).take n := by
        rw [hpos, hR, Heap.flat_append, List.drop_left, Heap.flat_cons,
          List.take_append_of_le_length (by simp; omega), Heap.pageBytes,
          Heap.bytes_take _ (by omega)]
      rw [List.length_append, Heap.length_bytes, List.take_add, ← hnext, ← hout]
    · intro hlen' hline'
      dsimp only at hlen' hline' ⊢
      rw [List.length_append, Heap.length_bytes, Heap.flat_append, Heap.flat_cons, Heap.flat_nil,
        List.append_nil, List.length_append, Heap.length_pageBytes]
      omega

/-- The bytes the reader delivers are the first ones of the content. -/
theorem lineReaderGetLineData_at (hbuf : r.buffer = b)
    (hrev : r.bufferDataRevision = revisionValue (h.revOf b)) (hline : r.hasLine = true)
    (len : Nat) :
    Yields (lineReaderGetLineData env r len) h (fun q h' => (∃ o, h' = h.marked o) ∧
      q.1 = (h.content b).take (min len r.toldLen) ∧ q.2 = r) := by
  have hl := s.inv.core.links
  unfold lineReaderGetLineData
  refine Yields.step (lineReaderSync_same env ht hbuf hrev) ?_
  rw [if_neg (by simp [hline])]
  refine Yields.step (lineReaderGetLineLen_at ht hbuf hrev hline) ?_
  dsimp only
  rw [hbuf]
  refine Yields.step (bufferGetIterator_run ht hl) (Yields.step get_run ?_)
  refine Yields.bind (getLineDataLoop_spec s ht r.toldLen) ?_
  intro out h' hpost
  obtain ⟨hmark, hout⟩ := hpost
  exact yields_pure.mpr ⟨hmark, by rw [hout, s.content ht.isSome], rfl⟩

/-- `pb_line_reader_get_line_data`. -/
theorem lineReaderGetLineData_spec (f : Found b r h) (len : Nat) :
    Yields (lineReaderGetLineData env r len) h (fun q h' => (∃ o, h' = h.marked o) ∧
      q.1 = (h.content b).take (min len (h.lineLen b)) ∧ q.2 = r) := by
  rw [← f.toldLen]
  exact lineReaderGetLineData_at s ht f.current.buffer f.current.revision f.hasLine len

/-- The reader drops what it takes for the line and its terminator, and starts
over. -/
theorem lineReaderSeekLine_at {B : Buffer} (hfits : h.Fits) (hB : h.buffers b = some B)
    (hbuf : r.buffer = b) (hrev : r.bufferDataRevision = revisionValue (h.revOf b))
    (hline : r.hasLine = true) :
    Yields (lineReaderSeekLine env r) h (fun q h' =>
      Removes b h R r.toSeek B.strategy.rejectsSeek (fun k => (h.flat (R b)).drop k) q.1 h' ∧
        Waits b q.2 h') := by
  have hop := ht.allocator hB
  unfold lineReaderSeekLine
  refine Yields.step (lineReaderSync_same env ht hbuf hrev) ?_
  rw [if_neg (by simp [hline]), hbuf]
  refine Yields.bind (P := Removes b h R r.toSeek B.strategy.rejectsSeek
    (fun k => (h.flat (R b)).drop k)) ?_ ?_
  · refine Yields.step (getBuffer_run hB) ?_
    rw [hop]
    exact trivialBufferSeek_spec s.inv hfits (s.full b) hB hop _
  · intro k h' hk
    obtain ⟨R', c, -⟩ := id hk.2.2
    obtain ⟨r', hrun, hwaits⟩ := lineReaderReset_run env (s.became c) (ht.congr c.frame.kind) hbuf
    exact Yields.step hrun (yields_pure.mpr ⟨hk, hwaits⟩)

/-- `pb_line_reader_seek_line` removes the line with its terminator, and starts
over. -/
theorem lineReaderSeekLine_spec {B : Buffer} (hfits : h.Fits) (hB : h.buffers b = some B)
    (f : Found b r h) :
    Yields (lineReaderSeekLine env r) h (fun q h' =>
      Removes b h R ((h.lineOf b).length + 1) B.strategy.rejectsSeek
        (fun k => (h.flat (R b)).drop k) q.1 h' ∧ Waits b q.2 h') := by
  have hseek : r.toSeek = (h.lineOf b).length + 1 := by
    rw [LineReader.toSeek, if_neg (by simp [f.current.terminated]), f.offset]
  rw [← hseek]
  exact lineReaderSeekLine_at s ht hfits hB f.current.buffer f.current.revision f.hasLine

/-- Unless the strategy rejects it the whole line is dropped. -/
theorem lineReaderSeekLine_drops {B : Buffer} (hfits : h.Fits) (hB : h.buffers b = some B)
    (hrej : B.strategy.rejectsSeek = false) (f : Found b r h) :
    Yields (lineReaderSeekLine env r) h (fun q h' => q.1 = (h.lineOf b).length + 1 ∧
      h'.content b = (h.content b).drop ((h.lineOf b).length + 1) ∧ Watches b q.2 h' ∧
        h'.kindOf b = h.kindOf b ∧ h'.Small ∧ ∃ R', Sound h' R') := by
  refine (lineReaderSeekLine_spec s ht hfits hB f).mono ?_
  intro q h' hpost
  obtain ⟨hremoves, hwaits⟩ := hpost
  obtain ⟨hdrop, -, hall⟩ := hremoves.dropped s ht
  have hcount : q.1 = (h.lineOf b).length + 1 := (hall hrej).trans (Nat.min_eq_left f.here)
  obtain ⟨-, -, R', c, -⟩ := hremoves
  refine ⟨hcount, hcount ▸ hdrop, hwaits.watches, congrFun c.frame.kind b, ?_⟩
  exact ⟨(c.fits hfits).small, R', s.became c⟩

/-! ## Calls on a reader that may have to start over -/

omit s in
/-- Without a line there is nothing to tell, and nothing is done. -/
theorem lineReader_nothing (hbuf : r.buffer = b)
    (hrev : r.bufferDataRevision = revisionValue (h.revOf b)) (hnone : r.hasLine = false) :
    lineReaderGetLineLen env r h = .ok ((0, r), h) ∧
      (∀ n, lineReaderGetLineData env r n h = .ok (([], r), h)) ∧
      lineReaderSeekLine env r h = .ok ((0, r), h) := by
  have hsync := lineReaderSync_same env ht hbuf hrev
  have hline : (!r.hasLine) = true := by simp [hnone]
  refine ⟨?_, fun n => ?_, ?_⟩
  · unfold lineReaderGetLineLen
    refine (bind_run hsync).trans ?_
    rw [if_pos hline]
    rfl
  · unfold lineReaderGetLineData
    refine (bind_run hsync).trans ?_
    rw [if_pos hline]
    rfl
  · unfold lineReaderSeekLine
    refine (bind_run hsync).trans ?_
    rw [if_pos hline]
    rfl

omit s in
theorem Waits.nothing (w : Waits b r h) :
    lineReaderGetLineLen env r h = .ok ((0, r), h) ∧
      (∀ n, lineReaderGetLineData env r n h = .ok (([], r), h)) ∧
      lineReaderSeekLine env r h = .ok ((0, r), h) :=
  lineReader_nothing ht w.current.buffer w.current.revision w.hasLine

/-- A call answers as the reader does once it has started over, if it has to. -/
theorem Resumes.settle (hw : Resumes b r h) : ∃ r', Attends b r' h ∧ SameCalls env r r' h := by
  obtain ⟨r', hsync, ha, -⟩ := lineReaderSync_run env s ht hw
  exact ⟨r', ha, sameCalls_of_sync hsync (ha.sync env s ht)⟩

end Calls

/-- A new reader waits for its first line. -/
theorem lineReaderCreate_spec {h₀ : Heap} {σ : Strategy} (s : Sound h₀ R) (hsmall₀ : h₀.Small)
    (hk : h₀.kindOf b = some (σ, .trivial))
    (hcreate : lineReaderCreate env b h₀ = .ok (some r, h)) :
    Sound h R ∧ h.Small ∧ h.kindOf b = h₀.kindOf b ∧ h.revOf b = h₀.revOf b ∧
      h.content b = h₀.content b ∧ Waits b r h := by
  have s' : Sound h₀.granted R := s.idle (Idle.granted h₀) rfl rfl
  have hsmall : h₀.granted.Small := ((s.fits hsmall₀).idle s.inv.core (Idle.granted h₀)).small
  have hb := isSome_of_kind hk
  obtain ⟨B, hB, -, hop⟩ := exists_buffer_of_kind hk
  unfold lineReaderCreate at hcreate
  rcases request_cases env h₀ with ⟨-, hreq⟩ | ⟨-, hreq⟩
  · rw [bind_run hreq] at hcreate
    dsimp only at hcreate
    obtain ⟨r', hreset, hwaits⟩ := lineReaderReset_run env
      (r := ⟨b, ⟨0, 0, none⟩, 0, 0, false, false, false, false⟩) s' ⟨B, hB, hop⟩ rfl
    rw [bind_run hreset] at hcreate
    cases hcreate
    refine ⟨s', hsmall, rfl, rfl, ?_, hwaits⟩
    rw [s'.content hb, s.content hb]
    rfl
  · rw [bind_run hreq] at hcreate
    cases hcreate

end Pb
