import PageBuf.Invariant.EveryCall
import PageBuf.Model.Wrapper
import PageBuf.Readers.LongLines

/-!
# Wrapper — two readers in step

The line reader of the C++ interface keeps a copy of the line that the one it
wraps has found, and a mark for it. The wrapped reader starts over when the
revision of the buffer has moved; the copy and its mark stay.
-/

namespace Pb

open StateRun

variable {env : Env} {h₀ h h' : Heap} {R R' : Nat → List Nat} {b v : Nat} {B : Buffer}
  {w w' : CppLineReader} {r r' : LineReader}

/-! ## Answers -/

/-- The two programs return, with one answer. -/
def SameAnswer {α β γ : Type} (m : PbM (α × β)) (m' : PbM (α × γ)) (h : Heap) : Prop :=
  ∃ a, Yields m h (fun q _ => q.1 = a) ∧ Yields m' h (fun q _ => q.1 = a)

/-- A client of a `pb_line_reader` that asks for a line, and then what `ask`
says; without a line the answer is `none`. -/
def ifLine {α : Type} (env : Env) (r : LineReader) (none : α)
    (ask : LineReader → PbM (α × LineReader)) : PbM (α × LineReader) := do
  let (found, r) ← lineReaderHasLine env r
  if found then ask r else pure (none, r)

/-- The bytes of the line that a `pb_line_reader` has. -/
def lineBytes (env : Env) (r : LineReader) : PbM (List UInt8 × LineReader) := do
  let (len, r) ← lineReaderGetLineLen env r
  lineReaderGetLineData env r len

/-- The wrapper answers as the reader it wraps, which answers for the bytes at
the head of the buffer. -/
structure InStep (env : Env) (b : Nat) (w : CppLineReader) (h : Heap) : Prop where
  hasLine : SameAnswer (cppLineReaderHasLine env w) (lineReaderHasLine env w.lineReader) h
  getLineLen : SameAnswer (cppLineReaderGetLineLen env w)
    (ifLine env w.lineReader 0 (lineReaderGetLineLen env)) h
  getLine : Yields (lineBytes env w.lineReader) h (fun q _ => q.1 = cppLineReaderGetLine w)
  isLineCrlf : SameAnswer (cppLineReaderIsLineCrlf env w)
    (ifLine env w.lineReader false (fun r => pure (lineReaderIsCrlf r, r))) h
  seekLine : SameAnswer (cppLineReaderSeekLine env w)
    (ifLine env w.lineReader 0 (lineReaderSeekLine env)) h
  head : Yields (cppLineReaderHasLine env w) h (fun q _ =>
    (q.1 = true ↔ LineFound (h.content b)) ∧ (q.1 = true →
      cppLineReaderGetLine q.2 = (h.content b).take (lineLength (h.content b))))

/-- The copy of the line, if there is one, is of the current revision. -/
def LineKept (b : Nat) (w : CppLineReader) (h : Heap) : Prop :=
  w.hasLine = true → w.lineReader.bufferDataRevision = revisionValue (h.revOf b)

/-! ## The invariant -/

/-- The wrapped reader has seen a revision since `v`. If it is the current one
the copy is of the line it has found. -/
structure CppLineReader.Follows (b v : Nat) (w : CppLineReader) (h : Heap) : Prop where
  buffer : w.lineReader.buffer = b
  idle : w.hasLine = false → w.line = [] ∧ w.lineReader.hasLine = false
  seen : ∃ n, v ≤ n ∧ n ≤ h.revOf b ∧ w.lineReader.bufferDataRevision = revisionValue n ∧
    (n = h.revOf b → Attends b w.lineReader h ∧ (w.hasLine = true →
      w.lineReader.hasLine = true ∧ w.line = (h.content b).take (h.lineLen b)))

theorem Attends.found (a : Attends b r h) (hline : r.hasLine = true) : Found b r h := by
  cases a with
  | inl f => exact f
  | inr w => exact absurd hline (by simp [w.hasLine])

instance (h : Heap) (b : Nat) : Decidable (h.HasLine b) := inferInstanceAs (Decidable (_ < _))

/-- The line and the copy of it in a wrapper. -/
structure Holds (b : Nat) (w : CppLineReader) (h : Heap) : Prop where
  found : Found b w.lineReader h
  hasLine : w.hasLine = true
  line : w.line = (h.content b).take (h.lineLen b)

/-- A wrapper without a line. -/
structure Lacks (b : Nat) (w : CppLineReader) (h : Heap) : Prop where
  waits : Waits b w.lineReader h
  hasLine : w.hasLine = false
  line : w.line = []

namespace CppLineReader.Follows

variable (f : w.Follows b v h)

include f

theorem le : v ≤ h.revOf b := by
  obtain ⟨n, hv, hn, -⟩ := f.seen
  exact Nat.le_trans hv hn

/-- The wrapped reader follows the buffer as any reader does. -/
theorem inner : w.lineReader.Follows b v h := by
  obtain ⟨n, hv, hn, hseen, ha⟩ := f.seen
  exact ⟨f.buffer, n, hv, hn, hseen, fun heq => (ha heq).1⟩

/-- A copy of the current revision is of the line. -/
theorem holds (hlt : h.revOf b < v + 2 ^ 64) (hkept : LineKept b w h)
    (hline : w.hasLine = true) : Holds b w h := by
  obtain ⟨n, hv, hn, hseen, ha⟩ := f.seen
  have hrev := hkept hline
  rw [hseen] at hrev
  unfold revisionValue at hrev
  obtain ⟨hattends, hcopy⟩ := ha (by omega)
  obtain ⟨hfound, hbytes⟩ := hcopy hline
  exact ⟨hattends.found hfound, hline, hbytes⟩

end CppLineReader.Follows

theorem Holds.follows (y : Holds b w h) (hv : v ≤ h.revOf b) : w.Follows b v h where
  buffer := y.found.current.buffer
  idle := fun hn => absurd hn (by simp [y.hasLine])
  seen := ⟨h.revOf b, hv, Nat.le_refl _, y.found.current.revision,
    fun _ => ⟨.inl y.found, fun _ => ⟨y.found.hasLine, y.line⟩⟩⟩

theorem Lacks.follows (y : Lacks b w h) (hv : v ≤ h.revOf b) : w.Follows b v h where
  buffer := y.waits.current.buffer
  idle := fun _ => ⟨y.line, y.waits.hasLine⟩
  seen := ⟨h.revOf b, hv, Nat.le_refl _, y.waits.current.revision,
    fun _ => ⟨.inr y.waits, fun hn => absurd hn (by simp [y.hasLine])⟩⟩

theorem Holds.marked (y : Holds b w h) (o : Bool) : Holds b w (h.marked o) :=
  ⟨y.found.marked o, y.hasLine, y.line⟩

theorem Lacks.marked (y : Lacks b w h) (o : Bool) : Lacks b w (h.marked o) :=
  ⟨y.waits.marked o, y.hasLine, y.line⟩

/-- The constructor wraps a new reader. -/
theorem exists_reader_of_create (hcreate : cppLineReaderCreate env b h₀ = .ok (some w, h)) :
    ∃ r, lineReaderCreate env b h₀ = .ok (some r, h) ∧ w = ⟨r, [], false⟩ := by
  unfold cppLineReaderCreate at hcreate
  cases hrun : lineReaderCreate env b h₀ with
  | error e =>
      rw [bind_fails hrun] at hcreate
      cases hcreate
  | ok a =>
      obtain ⟨r, h₁⟩ := a
      rw [bind_run hrun] at hcreate
      cases r with
      | none => cases hcreate
      | some r =>
          cases hcreate
          exact ⟨r, rfl, rfl⟩

/-! ## One call -/

theorem length_stringResize (s : List UInt8) (n : Nat) : (stringResize s n).length = n := by
  rw [stringResize, List.length_append, List.length_take, List.length_replicate]
  omega

section Calls

variable (s : Sound h R) (ht : h.IsTrivial b)

include s ht

variable (env) in
/-- `line_reader::reset` forgets the line. -/
theorem cppLineReaderReset_run (hbuf : w.lineReader.buffer = b) :
    ∃ w', cppLineReaderReset env w h = .ok (w', h) ∧ Lacks b w' h := by
  obtain ⟨r', hrun, hwaits⟩ := lineReaderReset_run env s ht hbuf
  exact ⟨⟨r', [], false⟩, (bind_run hrun).trans rfl, hwaits, rfl, rfl⟩

/-- **`line_reader::has_line`** finds the line at the head, and copies it. -/
theorem cppLineReaderHasLine_spec (f : w.Follows b v h) (hlt : h.revOf b < v + 2 ^ 64)
    (hkept : LineKept b w h) :
    Yields (cppLineReaderHasLine env w) h (fun q h' => (∃ o, h' = h.marked o) ∧
      (q.1 = true ↔ h.HasLine b) ∧ (q.1 = true → Holds b q.2 h) ∧
      (q.1 = false → Lacks b q.2 h)) := by
  unfold cppLineReaderHasLine
  cases hline : w.hasLine with
  | true =>
      have y := f.holds hlt hkept hline
      rw [if_pos rfl]
      exact yields_pure.mpr ⟨⟨h.overread, rfl⟩, by simp [y.found.here], fun _ => y,
        fun hn => by simp at hn⟩
  | false =>
      obtain ⟨hempty, -⟩ := f.idle hline
      rw [if_neg (by simp)]
      refine Yields.bind (lineReaderHasLine_spec s ht (f.inner.resumes hlt)) ?_
      rintro ⟨found, r₁⟩ h₁ ⟨⟨o, rfl⟩, hiff, hfound, hwaits⟩
      dsimp only at hiff hfound hwaits ⊢
      cases found with
      | false =>
          rw [if_pos (by simp)]
          exact yields_pure.mpr ⟨⟨o, rfl⟩, hiff, fun hn => by simp at hn,
            fun _ => ⟨hwaits rfl, rfl, hempty⟩⟩
      | true =>
          rw [if_neg (by simp)]
          have hf := (hfound rfl).marked o
          refine Yields.step (lineReaderGetLineLen_run (ht.marked o) hf) ?_
          refine Yields.bind (lineReaderGetLineData_spec (s.marked o) (ht.marked o) hf _) ?_
          rintro ⟨data, r₂⟩ h₂ ⟨⟨o', rfl⟩, hdata, rfl⟩
          dsimp only at hdata ⊢
          rw [Nat.min_self] at hdata
          refine yields_pure.mpr ⟨⟨o', rfl⟩, hiff, fun _ => ⟨hfound rfl, rfl, ?_⟩,
            fun hn => by simp at hn⟩
          -- the string has the length of the line, and every byte of it is written
          have hlen : data.length = h.lineLen b := by
            rw [hdata, List.length_take]
            exact Nat.min_eq_left (Nat.le_trans (h.lineLen_le b) (h.length_lineOf_le b))
          have hrest : (stringResize w.line (h.lineLen b)).drop data.length = [] := by
            rw [List.drop_eq_nil_iff, length_stringResize, hlen]
          show data ++ (stringResize w.line (h.lineLen b)).drop data.length = _
          rw [hrest, List.append_nil]
          exact hdata

/-- What a seek of a line that was found returns, and leaves. -/
theorem lineReaderSeekLine_returns (hfits : h.Fits) (hB : h.buffers b = some B)
    (f : Found b r h) : Yields (lineReaderSeekLine env r) h (fun q h' =>
      q.1 = (if B.strategy.rejectsSeek then 0 else (h.lineOf b).length + 1) ∧ Waits b q.2 h' ∧
        h'.kindOf b = h.kindOf b ∧ h.revOf b ≤ h'.revOf b ∧ h'.Small ∧ ∃ R', Sound h' R') := by
  refine (lineReaderSeekLine_keeps s ht hfits hB f).mono ?_
  intro q h' hpost
  obtain ⟨⟨hremoves, hwaits⟩, hkept⟩ := hpost
  obtain ⟨-, -, hall⟩ := hremoves.dropped s ht
  obtain ⟨-, -, R', c, -⟩ := hremoves
  refine ⟨?_, hwaits, congrFun c.frame.kind b, c.frame.revision, (c.fits hfits).small, R',
    s.became c⟩
  cases hrej : B.strategy.rejectsSeek with
  | true => exact hkept hrej
  | false => exact (hall hrej).trans (Nat.min_eq_left f.here)

/-- **`line_reader::seek_line`** seeks the line at the head, and forgets it. -/
theorem cppLineReaderSeekLine_spec (hfits : h.Fits) (hB : h.buffers b = some B)
    (f : w.Follows b v h) (hlt : h.revOf b < v + 2 ^ 64) (hkept : LineKept b w h) :
    Yields (cppLineReaderSeekLine env w) h (fun q h' =>
      (h.HasLine b → q.1 = if B.strategy.rejectsSeek then 0 else (h.lineOf b).length + 1) ∧
      (¬h.HasLine b → q.1 = 0) ∧ Lacks b q.2 h' ∧ h'.kindOf b = h.kindOf b ∧
      h.revOf b ≤ h'.revOf b ∧ h'.Small ∧ ∃ R', Sound h' R') := by
  unfold cppLineReaderSeekLine
  refine Yields.bind (cppLineReaderHasLine_spec s ht f hlt hkept) ?_
  rintro ⟨found, w₁⟩ h₁ ⟨⟨o, rfl⟩, hiff, hholds, hlacks⟩
  dsimp only at hiff hholds hlacks ⊢
  cases found with
  | false =>
      rw [if_pos (by simp)]
      have hnot : ¬h.HasLine b := fun hn => Bool.false_ne_true (hiff.mpr hn)
      exact yields_pure.mpr ⟨fun hn => absurd hn hnot, fun _ => rfl, (hlacks rfl).marked o, rfl,
        Nat.le_refl _, hfits.small, R, s.marked o⟩
  | true =>
      rw [if_neg (by simp)]
      have hfits' : (h.marked o).Fits := ⟨hfits.small, hfits.allocs⟩
      refine Yields.bind (lineReaderSeekLine_returns (s.marked o) (ht.marked o) hfits' hB
        ((hholds rfl).marked o).found) ?_
      rintro ⟨k, r₂⟩ h₂ ⟨hk, hwaits, hkind, hrev, hsmall, R', s'⟩
      have ht' : h₂.IsTrivial b := by
        refine s'.isTrivial ?_
        rw [← h₂.isSome_kindOf, hkind]
        exact (h.isSome_kindOf b).symm ▸ ht.isSome
      have hbuf : { w₁ with lineReader := r₂ }.lineReader.buffer = b := hwaits.current.buffer
      obtain ⟨w₃, hreset, hlacks'⟩ := cppLineReaderReset_run env s' ht' hbuf
      exact Yields.step hreset (yields_pure.mpr ⟨fun _ => hk, fun hn => absurd (hiff.mp rfl) hn,
        hlacks', hkind, hrev, hsmall, R', s'⟩)

omit s ht in
theorem answer_of_line {α : Type} {a x y : α} (hline : h.HasLine b → a = x)
    (hnone : ¬h.HasLine b → a = y) : a = if h.HasLine b then x else y := by
  by_cases hhere : h.HasLine b
  · rw [if_pos hhere, hline hhere]
  · rw [if_neg hhere, hnone hhere]

/-- A client that asks for a line first gets one answer if there is none. -/
theorem ifLine_spec {α : Type} {ask : LineReader → PbM (α × LineReader)} {none x : α}
    (hw : Resumes b r h) (hask : ∀ r' o, Found b r' h →
      Yields (ask r') (h.marked o) (fun q _ => q.1 = x)) :
    Yields (ifLine env r none ask) h (fun q _ => q.1 = if h.HasLine b then x else none) := by
  unfold ifLine
  refine Yields.bind (lineReaderHasLine_spec s ht hw) ?_
  rintro ⟨found, r'⟩ h' ⟨⟨o, rfl⟩, hiff, hfound, -⟩
  dsimp only at hiff hfound ⊢
  cases found with
  | true =>
      rw [if_pos rfl, if_pos (hiff.mp rfl)]
      exact hask r' o (hfound rfl)
  | false =>
      rw [if_neg (by simp), if_neg fun hn => Bool.false_ne_true (hiff.mpr hn)]
      exact yields_pure.mpr rfl

/-- A method of the wrapper that only tells asks for a line first as well. -/
theorem cppQuestion_spec {α : Type} {m : PbM (α × CppLineReader)} {none : α}
    {t : CppLineReader → α} (f : w.Follows b v h) (hlt : h.revOf b < v + 2 ^ 64)
    (hkept : LineKept b w h)
    (hm : m = do
      let (found, w) ← cppLineReaderHasLine env w
      if !found then pure (none, w) else pure (t w, w)) :
    Yields m h (fun q h' => ∃ o, h' = h.marked o ∧
      (h.HasLine b → Holds b q.2 h ∧ q.1 = t q.2) ∧
      (¬h.HasLine b → Lacks b q.2 h ∧ q.1 = none)) := by
  rw [hm]
  refine Yields.bind (cppLineReaderHasLine_spec s ht f hlt hkept) ?_
  rintro ⟨found, w'⟩ h' ⟨⟨o, rfl⟩, hiff, hholds, hlacks⟩
  dsimp only at hiff hholds hlacks ⊢
  cases found with
  | true =>
      rw [if_neg (by simp)]
      exact yields_pure.mpr ⟨o, rfl, fun _ => ⟨hholds rfl, rfl⟩,
        fun hn => absurd (hiff.mp rfl) hn⟩
  | false =>
      rw [if_pos (by simp)]
      exact yields_pure.mpr ⟨o, rfl, fun hn => absurd (hiff.mpr hn) Bool.false_ne_true,
        fun _ => ⟨hlacks rfl, rfl⟩⟩

/-- `line_reader::get_line_len`. -/
theorem cppLineReaderGetLineLen_spec (f : w.Follows b v h) (hlt : h.revOf b < v + 2 ^ 64)
    (hkept : LineKept b w h) :
    Yields (cppLineReaderGetLineLen env w) h (fun q h' => ∃ o, h' = h.marked o ∧
      (h.HasLine b → Holds b q.2 h ∧ q.1 = h.lineLen b) ∧
      (¬h.HasLine b → Lacks b q.2 h ∧ q.1 = 0)) := by
  refine (cppQuestion_spec (t := fun w => w.line.length) s ht f hlt hkept rfl).mono ?_
  rintro q h' ⟨o, rfl, hline, hnone⟩
  refine ⟨o, rfl, fun hhere => ?_, hnone⟩
  obtain ⟨y, hlen⟩ := hline hhere
  refine ⟨y, ?_⟩
  rw [hlen, y.line, List.length_take]
  exact Nat.min_eq_left (Nat.le_trans (h.lineLen_le b) (h.length_lineOf_le b))

/-- `line_reader::is_line_crlf`. -/
theorem cppLineReaderIsLineCrlf_spec (f : w.Follows b v h) (hlt : h.revOf b < v + 2 ^ 64)
    (hkept : LineKept b w h) :
    Yields (cppLineReaderIsLineCrlf env w) h (fun q h' => ∃ o, h' = h.marked o ∧
      (h.HasLine b → Holds b q.2 h ∧ q.1 = h.lineCrlf b) ∧
      (¬h.HasLine b → Lacks b q.2 h ∧ q.1 = false)) := by
  refine (cppQuestion_spec (t := fun w => lineReaderIsCrlf w.lineReader) s ht f hlt hkept
    rfl).mono ?_
  rintro q h' ⟨o, rfl, hline, hnone⟩
  refine ⟨o, rfl, fun hhere => ?_, hnone⟩
  obtain ⟨y, hcrlf⟩ := hline hhere
  exact ⟨y, hcrlf.trans y.found.cr⟩

/-- The copy is what the wrapped reader would tell. -/
theorem lineBytes_spec (f : w.Follows b v h) (hlt : h.revOf b < v + 2 ^ 64)
    (hkept : LineKept b w h) :
    Yields (lineBytes env w.lineReader) h (fun q _ => q.1 = cppLineReaderGetLine w) := by
  unfold lineBytes cppLineReaderGetLine
  cases hline : w.hasLine with
  | true =>
      have y := f.holds hlt hkept hline
      refine Yields.step (lineReaderGetLineLen_run ht y.found) ?_
      refine (lineReaderGetLineData_spec s ht y.found _).mono ?_
      intro q h' hpost
      rw [hpost.2.1, Nat.min_self, y.line]
  | false =>
      obtain ⟨hempty, hnone⟩ := f.idle hline
      obtain ⟨r', hwaits, hsame⟩ : ∃ r', Waits b r' h ∧ SameCalls env w.lineReader r' h := by
        by_cases hrev : w.lineReader.bufferDataRevision = revisionValue (h.revOf b)
        · cases f.inner.attends hlt hrev with
          | inl hf => exact absurd hf.hasLine (by simp [hnone])
          | inr hw => exact ⟨w.lineReader, hw, rfl, rfl, fun _ => rfl, rfl⟩
        · obtain ⟨r', hsync, hw⟩ := lineReaderSync_stale env s ht f.buffer hrev
          exact ⟨r', hw, sameCalls_of_sync hsync (Attends.sync env s ht (.inr hw))⟩
      obtain ⟨hlen, hdata, -⟩ := hwaits.nothing ht
      refine Yields.step (hsame.len.trans hlen) (.intro (hdata _) ?_)
      rw [hempty]

/-- **The wrapper is in step** with the reader it wraps. -/
theorem CppLineReader.Follows.inStep (f : w.Follows b v h) (hfits : h.Fits)
    (hlt : h.revOf b < v + 2 ^ 64) (hkept : LineKept b w h) : InStep env b w h := by
  obtain ⟨B, hB, hop⟩ := id ht
  have hw := f.inner.resumes hlt
  have hmarked : ∀ o, (h.marked o).Fits := fun o => ⟨hfits.small, hfits.allocs⟩
  refine ⟨?_, ?_, lineBytes_spec s ht f hlt hkept, ?_, ?_, ?_⟩
  · obtain ⟨q, h₁, hrun, -, hiff, -⟩ := cppLineReaderHasLine_spec s ht f hlt hkept
    obtain ⟨q', h₂, hrun', -, hiff', -⟩ := lineReaderHasLine_spec s ht hw
    refine ⟨q.1, .intro hrun rfl, .intro hrun' ?_⟩
    rw [Bool.eq_iff_iff, hiff, hiff']
  · refine ⟨if h.HasLine b then h.lineLen b else 0, ?_, ifLine_spec s ht hw fun r' o hf => ?_⟩
    · refine (cppLineReaderGetLineLen_spec s ht f hlt hkept).mono ?_
      rintro q h' ⟨o, -, hline, hnone⟩
      exact answer_of_line (fun hhere => (hline hhere).2) fun hn => (hnone hn).2
    · exact .intro (lineReaderGetLineLen_run (ht.marked o) (hf.marked o)) rfl
  · refine ⟨if h.HasLine b then h.lineCrlf b else false, ?_,
      ifLine_spec s ht hw fun r' o hf => yields_pure.mpr hf.cr⟩
    refine (cppLineReaderIsLineCrlf_spec s ht f hlt hkept).mono ?_
    rintro q h' ⟨o, -, hline, hnone⟩
    exact answer_of_line (fun hhere => (hline hhere).2) fun hn => (hnone hn).2
  · refine ⟨if h.HasLine b then (if B.strategy.rejectsSeek then 0 else (h.lineOf b).length + 1)
      else 0, ?_, ifLine_spec s ht hw fun r' o hf => ?_⟩
    · refine (cppLineReaderSeekLine_spec s ht hfits hB f hlt hkept).mono ?_
      intro q h' hpost
      exact answer_of_line hpost.1 hpost.2.1
    · exact (lineReaderSeekLine_returns (s.marked o) (ht.marked o) (hmarked o) hB
        (hf.marked o)).mono fun _ _ hpost => hpost.1
  · refine (cppLineReaderHasLine_spec s ht f hlt hkept).mono ?_
    intro q h' hpost
    obtain ⟨-, hiff, hholds, -⟩ := hpost
    refine ⟨hiff.trans (hasLine_iff_lineFound h b), fun htrue => ?_⟩
    rw [cppLineReaderGetLine, (hholds htrue).line, lineLen_eq]

end Calls

/-! ## Runs -/

/-- A wrapper and the buffers. -/
structure Wrapped where
  reader : CppLineReader
  heap : Heap

/-- Anything is done to the buffers, of which the one that is read stays, and
the methods of the wrapper are called in states with the property `ok`. -/
inductive WrapperStep (env : Env) (b : Nat) (ok : CppLineReader → Heap → Prop) (s : Wrapped) :
    Wrapped → Prop where
  | call {h' : Heap} : EveryCall env s.heap h' → (h'.buffers b).isSome →
      WrapperStep env b ok s { s with heap := h' }
  | hasLine {found w' h'} : ok s.reader s.heap →
      cppLineReaderHasLine env s.reader s.heap = .ok ((found, w'), h') →
      WrapperStep env b ok s ⟨w', h'⟩
  | getLineLen {len w' h'} : ok s.reader s.heap →
      cppLineReaderGetLineLen env s.reader s.heap = .ok ((len, w'), h') →
      WrapperStep env b ok s ⟨w', h'⟩
  | isLineCrlf {crlf w' h'} : ok s.reader s.heap →
      cppLineReaderIsLineCrlf env s.reader s.heap = .ok ((crlf, w'), h') →
      WrapperStep env b ok s ⟨w', h'⟩
  | seekLine {k w' h'} : ok s.reader s.heap →
      cppLineReaderSeekLine env s.reader s.heap = .ok ((k, w'), h') →
      WrapperStep env b ok s ⟨w', h'⟩
  | reset {w' : CppLineReader} {h' : Heap} :
      cppLineReaderReset env s.reader s.heap = .ok (w', h') → WrapperStep env b ok s ⟨w', h'⟩

/-- The runs through fewer than `2^64` revisions since `v`. -/
def WrapperRun (env : Env) (b v : Nat) (ok : CppLineReader → Heap → Prop) :
    Wrapped → Wrapped → Prop :=
  Relation.ReflTransGen fun s s' => WrapperStep env b ok s s' ∧ s'.heap.revOf b < v + 2 ^ 64

/-- What holds between the steps of a run. -/
structure WrapperInv (b v : Nat) (s : Wrapped) : Prop where
  sound : ∃ R, Sound s.heap R
  small : s.heap.Small
  alive : (s.heap.buffers b).isSome
  reader : s.reader.Follows b v s.heap

/-- What a call moves, it moves under the wrapper. -/
theorem CppLineReader.Follows.moved {target : Option Nat} (f : w.Follows b v h) (s : Sound h R)
    (s' : Sound h' R') (hb : (h.buffers b).isSome) (hb' : (h'.buffers b).isSome)
    (m : Moved target h h' R R') : w.Follows b v h' := by
  obtain ⟨-, hle, st⟩ := m.stable hb' (s.inv.core.links.buffer_fresh hb)
  obtain ⟨n, hv, hn, hseen, ha⟩ := f.seen
  refine ⟨f.buffer, f.idle, n, hv, Nat.le_trans hn hle, hseen, fun heq => ?_⟩
  have hrev : h'.revOf b = h.revOf b := by omega
  have g := st.grows s s' hb hb' hrev
  obtain ⟨hattends, hcopy⟩ := ha (heq.trans hrev)
  refine ⟨hattends.grow g hrev, fun hline => ?_⟩
  obtain ⟨hfound, hbytes⟩ := hcopy hline
  refine ⟨hfound, ?_⟩
  -- more bytes do not change a line that is complete
  obtain ⟨hline', -, hcr'⟩ := (hattends.found hfound).here.append g.content
  have hlen : h'.lineLen b = h.lineLen b := by rw [Heap.lineLen, Heap.lineLen, hcr', hline']
  obtain ⟨t, ht⟩ := g.content
  rw [hbytes, hlen, ← ht, List.take_append_of_le_length]
  exact Nat.le_trans (h.lineLen_le b) (h.length_lineOf_le b)

section Step

variable {s s' : Wrapped} (i : WrapperInv b v s) (hlt : s.heap.revOf b < v + 2 ^ 64)

include i

/-- A method that changes no buffer. -/
theorem WrapperInv.asked (o : Bool) (hline : s.heap.HasLine b → Holds b w s.heap)
    (hnone : ¬s.heap.HasLine b → Lacks b w s.heap) : WrapperInv b v ⟨w, s.heap.marked o⟩ := by
  obtain ⟨R, sound⟩ := i.sound
  refine ⟨⟨R, sound.marked o⟩, i.small, i.alive, ?_⟩
  by_cases hhere : s.heap.HasLine b
  · exact ((hline hhere).marked o).follows i.reader.le
  · exact ((hnone hhere).marked o).follows i.reader.le

include hlt

/-- **One step** keeps the invariant. -/
theorem WrapperInv.step (hstep : WrapperStep env b (LineKept b) s s') : WrapperInv b v s' := by
  obtain ⟨R, sound⟩ := i.sound
  have ht := sound.isTrivial i.alive
  cases hstep with
  | call call hb' =>
      obtain ⟨hsmall, R', target, sound', m⟩ := call.leads sound
      exact ⟨⟨R', sound'⟩, hsmall, hb', i.reader.moved sound sound' i.alive hb' m⟩
  | hasLine hkept hrun =>
      obtain ⟨⟨o, rfl⟩, hiff, hholds, hlacks⟩ :=
        (cppLineReaderHasLine_spec sound ht i.reader hlt hkept).of_run hrun
      exact i.asked o (fun hhere => hholds (hiff.mpr hhere)) fun hn =>
        hlacks (Bool.eq_false_iff.mpr fun htrue => hn (hiff.mp htrue))
  | getLineLen hkept hrun =>
      obtain ⟨o, rfl, hline, hnone⟩ :=
        (cppLineReaderGetLineLen_spec sound ht i.reader hlt hkept).of_run hrun
      exact i.asked o (fun hhere => (hline hhere).1) fun hn => (hnone hn).1
  | isLineCrlf hkept hrun =>
      obtain ⟨o, rfl, hline, hnone⟩ :=
        (cppLineReaderIsLineCrlf_spec sound ht i.reader hlt hkept).of_run hrun
      exact i.asked o (fun hhere => (hline hhere).1) fun hn => (hnone hn).1
  | seekLine hkept hrun =>
      obtain ⟨B, hB⟩ := Option.isSome_iff_exists.mp i.alive
      obtain ⟨-, -, hlacks, hkind, hrev, hsmall, hsound⟩ := (cppLineReaderSeekLine_spec sound ht
        (sound.fits i.small) hB i.reader hlt hkept).of_run hrun
      refine ⟨hsound, hsmall, ?_, hlacks.follows (Nat.le_trans i.reader.le hrev)⟩
      dsimp only
      rw [← Heap.isSome_kindOf, hkind, Heap.isSome_kindOf]
      exact i.alive
  | reset hrun =>
      obtain ⟨w', hreset, hlacks⟩ := cppLineReaderReset_run env sound ht i.reader.buffer
      rw [hreset] at hrun
      cases hrun
      exact ⟨⟨R, sound⟩, i.small, i.alive, hlacks.follows i.reader.le⟩

end Step

/-- **A run** keeps the invariant. -/
theorem WrapperInv.run {s s' : Wrapped} (i : WrapperInv b v s) (hlt : s.heap.revOf b < v + 2 ^ 64)
    (hrun : WrapperRun env b v (LineKept b) s s') :
    WrapperInv b v s' ∧ s'.heap.revOf b < v + 2 ^ 64 := by
  induction hrun with
  | refl => exact ⟨i, hlt⟩
  | tail _ hstep ih =>
      obtain ⟨i', hlt'⟩ := ih
      exact ⟨i'.step hlt' hstep.1, hstep.2⟩

/-! ## The law -/

/-- In every run of the buffers and a wrapper on `b` whose methods are called
in states with the property `ok` they answer as the wrapped reader does. -/
def WrapperLaw (env : Env) (b : Nat) (h₀ : Heap) (ok : CppLineReader → Heap → Prop) : Prop :=
  ∀ w h s, cppLineReaderCreate env b h₀ = .ok (some w, h) →
    WrapperRun env b (h₀.revOf b) ok ⟨w, h⟩ s → ok s.reader s.heap →
    InStep env b s.reader s.heap

/-- A wrapper that has copied the line `a`. -/
def CppLineReader.copiedA : CppLineReader :=
  ⟨⟨1, ⟨6, 1, some ⟨.heap 4, 1⟩⟩, 1, 1, false, true, false, false⟩, [97], true⟩

/-- The line is gone from the buffer. -/
def Heap.clearedA : Heap := (Heap.holding [97, 10]).granted.after .generous (.clear 1)

theorem call_clearedA :
    Call .generous (.clear 1) .unit (Heap.holding [97, 10]).granted .clearedA :=
  call_after (small_of_next (by decide)) ⟨_, rfl, rfl⟩ rfl (by decide)

end Pb
