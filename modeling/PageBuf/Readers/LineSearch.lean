import PageBuf.Readers.LineReader

/-!
# LineSearch — a resumed search answers as a fresh one

A line reader remembers how far it has searched. Between two of its calls the
buffer may be appended to, cut, overwritten or filled anew, in pages of any
size; what the reader says is what a search of the bytes that are there now,
from the first of them, would say.
-/

namespace Pb

open StateRun Framing

variable {env : Env} {h₀ h h' : Heap} {R R' : Nat → List Nat} {b v : Nat} {σ : Strategy}
  {r r' : LineReader} {bytes : List UInt8}

/-! ## The fresh search -/

/-- The first line feed of the content, or the longest a line may be. -/
def lineEnd (bytes : List UInt8) : Nat := min (bytes.idxOf 10) lineReaderMaxLineSize

/-- A line feed is in reach, or the content is longer than a line may be. -/
def LineFound (bytes : List UInt8) : Prop :=
  (∃ i, i ≤ lineReaderMaxLineSize ∧ bytes[i]? = some 10) ∨ lineReaderMaxLineSize < bytes.length

/-- The line feed stands behind a carriage return. -/
def LineCrlf (bytes : List UInt8) : Prop :=
  bytes[lineEnd bytes]? = some 10 ∧ 0 < lineEnd bytes ∧ bytes[lineEnd bytes - 1]? = some 13

instance : Decidable (LineCrlf bytes) := inferInstanceAs (Decidable (_ ∧ _ ∧ _))

def lineLength (bytes : List UInt8) : Nat :=
  if LineCrlf bytes then lineEnd bytes - 1 else lineEnd bytes

theorem length_lineOf (h : Heap) (b : Nat) : (h.lineOf b).length = lineEnd (h.content b) := by
  rw [Heap.lineOf, length_cut, length_front, lineEnd, Nat.min_comm]

theorem hasLine_iff_lineFound (h : Heap) (b : Nat) : h.HasLine b ↔ LineFound (h.content b) := by
  unfold Heap.HasLine LineFound
  rw [length_lineOf, lineEnd]
  have hle := List.idxOf_le_length (a := (10 : UInt8)) (l := h.content b)
  constructor
  · intro hlt
    by_cases hmax : lineReaderMaxLineSize < (h.content b).length
    · exact .inr hmax
    · refine .inl ⟨(h.content b).idxOf 10, by omega, ?_⟩
      rw [List.getElem?_eq_getElem (by omega), List.getElem_idxOf]
  · intro hfound
    rcases hfound with ⟨i, hi, hten⟩ | hmax
    · have hlt := (List.getElem?_eq_some_iff.mp hten).1
      have hfirst : (h.content b).idxOf 10 ≤ i := by
        by_contra hn
        rw [← length_front] at hn
        obtain ⟨c, hc, hne⟩ := getElem?_of_lt_front (Nat.lt_of_not_le hn)
        rw [hten] at hc
        exact hne (Option.some.inj hc).symm
      omega
    · omega

theorem lineCrlf_eq (h : Heap) (b : Nat) : h.lineCrlf b = decide (LineCrlf (h.content b)) := by
  rw [Bool.eq_iff_iff, decide_eq_true_iff, Heap.lineCrlf, length_lineOf, Bool.and_eq_true,
    decide_eq_true_iff, endsWithCr, decide_eq_true_iff]
  refine and_congr_right fun _ => ?_
  have hle : lineEnd (h.content b) ≤ (h.content b).length := by
    rw [← length_lineOf]
    exact h.length_lineOf_le b
  have hline : h.lineOf b = (h.content b).take (lineEnd (h.content b)) := by
    rw [← length_lineOf]
    exact cut_eq_take _ _ _
  rw [hline, List.getLast?_take]
  by_cases hz : lineEnd (h.content b) = 0
  · simp [hz]
  · rw [if_neg hz, List.getElem?_eq_getElem (by omega)]
    simp [Nat.pos_of_ne_zero hz]

theorem lineLen_eq (h : Heap) (b : Nat) : h.lineLen b = lineLength (h.content b) := by
  rw [Heap.lineLen, lineLength, lineCrlf_eq, length_lineOf]
  simp only [decide_eq_true_eq]

/-! ## Runs -/

/-- A reader and the buffers. -/
structure Search where
  reader : LineReader
  heap : Heap

/-- Anything is done to the buffers, of which the one that is read stays, and
the reader is asked anything but to end a line by force. -/
inductive SearchStep (env : Env) (b : Nat) (s : Search) : Search → Prop where
  | call {op a h'} : Call env op a s.heap h' → (h'.buffers b).isSome →
      SearchStep env b s { s with heap := h' }
  | hasLine {found r' h'} : lineReaderHasLine env s.reader s.heap = .ok ((found, r'), h') →
      SearchStep env b s ⟨r', h'⟩
  | getLineLen {len r' h'} : lineReaderGetLineLen env s.reader s.heap = .ok ((len, r'), h') →
      SearchStep env b s ⟨r', h'⟩
  | getLineData {n data r' h'} :
      lineReaderGetLineData env s.reader n s.heap = .ok ((data, r'), h') →
      SearchStep env b s ⟨r', h'⟩
  | seekLine {k r' h'} : lineReaderSeekLine env s.reader s.heap = .ok ((k, r'), h') →
      SearchStep env b s ⟨r', h'⟩
  | reset {r' : LineReader} {h' : Heap} : lineReaderReset env s.reader s.heap = .ok (r', h') →
      SearchStep env b s ⟨r', h'⟩

/-- The runs in which every state has the property `ok`. -/
def SearchRun (env : Env) (b : Nat) (ok : Search → Prop) : Search → Search → Prop :=
  Relation.ReflTransGen fun s s' => SearchStep env b s s' ∧ ok s'

/-- The reader tells the line of the content `bytes`. -/
structure TellsLine (env : Env) (r : LineReader) (h : Heap) (bytes : List UInt8) : Prop where
  len : Yields (lineReaderGetLineLen env r) h (fun q _ => q.1 = lineLength bytes)
  crlf : lineReaderIsCrlf r = true ↔ LineCrlf bytes
  data : ∀ n, Yields (lineReaderGetLineData env r n) h
    (fun q _ => q.1 = bytes.take (min n (lineLength bytes)))

/-- The reader finds a line if there is one, and tells it from then on, for as
long as it sees the revision in which it found it. -/
structure SearchHolds (env : Env) (b : Nat) (s : Search) : Prop where
  finds : Yields (lineReaderHasLine env s.reader) s.heap (fun q h' =>
    (q.1 = true ↔ LineFound (s.heap.content b)) ∧
      (q.1 = true → TellsLine env q.2 h' (s.heap.content b)))
  tells : s.reader.hasLine = true →
    s.reader.bufferDataRevision = revisionValue (s.heap.revOf b) →
    TellsLine env s.reader s.heap (s.heap.content b)

/-! ## The invariant -/

/-- The reader has seen a revision since `v`. If it is the current one the
reader has gone as far as it says. -/
structure LineReader.Follows (b v : Nat) (r : LineReader) (h : Heap) : Prop where
  buffer : r.buffer = b
  seen : ∃ w, v ≤ w ∧ w ≤ h.revOf b ∧ r.bufferDataRevision = revisionValue w ∧
    (w = h.revOf b → Attends b r h)

theorem Attends.follows (a : Attends b r h) (hv : v ≤ h.revOf b) : r.Follows b v h :=
  ⟨a.current.buffer, h.revOf b, hv, Nat.le_refl _, a.current.revision, fun _ => a⟩

theorem LineReader.Follows.le (f : r.Follows b v h) : v ≤ h.revOf b := by
  obtain ⟨w, hv, hw, -⟩ := f.seen
  exact Nat.le_trans hv hw

/-- Fewer than `2^64` revisions can be told apart. -/
theorem LineReader.Follows.attends (f : r.Follows b v h) (hlt : h.revOf b < v + 2 ^ 64)
    (hrev : r.bufferDataRevision = revisionValue (h.revOf b)) : Attends b r h := by
  obtain ⟨w, hv, hw, hseen, ha⟩ := f.seen
  refine ha ?_
  rw [hseen] at hrev
  unfold revisionValue at hrev
  omega

theorem LineReader.Follows.resumes (f : r.Follows b v h) (hlt : h.revOf b < v + 2 ^ 64) : Resumes b r h := by
  by_cases hrev : r.bufferDataRevision = revisionValue (h.revOf b)
  · exact ⟨f.buffer, .inr (f.attends hlt hrev)⟩
  · exact ⟨f.buffer, .inl hrev⟩

/-- What holds between the steps of a run. -/
structure SearchInv (b v : Nat) (s : Search) : Prop where
  sound : ∃ R, Sound s.heap R
  small : s.heap.Small
  alive : (s.heap.buffers b).isSome
  reader : s.reader.Follows b v s.heap

/-- A reader that knows its line tells it. -/
theorem Found.tells (f : Found b r h) (s : Sound h R) (ht : h.IsTrivial b) :
    TellsLine env r h (h.content b) := by
  refine ⟨.intro (lineReaderGetLineLen_run ht f) (lineLen_eq h b), ?_, fun n => ?_⟩
  · rw [lineReaderIsCrlf, f.cr, lineCrlf_eq, decide_eq_true_iff]
  · refine (lineReaderGetLineData_spec s ht f n).mono ?_
    intro q h' hpost
    rw [hpost.2.1, lineLen_eq]

/-- The law holds in every state of the invariant. -/
theorem SearchInv.holds {s : Search} (i : SearchInv b v s)
    (hlt : s.heap.revOf b < v + 2 ^ 64) : SearchHolds env b s := by
  obtain ⟨R, sound⟩ := i.sound
  have ht := sound.isTrivial i.alive
  refine ⟨?_, fun hline hrev => ?_⟩
  · refine (lineReaderHasLine_spec sound ht (i.reader.resumes hlt)).mono ?_
    intro q h' hpost
    obtain ⟨⟨o, rfl⟩, hfound, hf, -⟩ := hpost
    refine ⟨hfound.trans (hasLine_iff_lineFound _ _), fun htrue => ?_⟩
    exact ((hf htrue).marked o).tells (sound.marked o) (ht.marked o)
  · cases i.reader.attends hlt hrev with
    | inl f => exact f.tells sound ht
    | inr w => exact absurd hline (by simp [w.hasLine])

/-- What a call moves, it moves under the reader. -/
theorem LineReader.Follows.moved {target : Option Nat} (f : r.Follows b v h) (s : Sound h R)
    (s' : Sound h' R') (hb : (h.buffers b).isSome) (hb' : (h'.buffers b).isSome)
    (m : Moved target h h' R R') : r.Follows b v h' := by
  obtain ⟨-, hle, st⟩ := m.stable hb' (s.inv.core.links.buffer_fresh hb)
  obtain ⟨w, hv, hw, hseen, ha⟩ := f.seen
  refine ⟨f.buffer, w, hv, Nat.le_trans hw hle, hseen, fun heq => ?_⟩
  have hrev : h'.revOf b = h.revOf b := by omega
  exact (ha (heq.trans hrev)).grow (st.grows s s' hb hb' hrev) hrev

section Step

variable {s s' : Search} (i : SearchInv b v s) (hlt : s.heap.revOf b < v + 2 ^ 64)

include i

/-- A call of the reader that changes no buffer. -/
theorem SearchInv.attends (o : Bool) (ha : Attends b r' s.heap) :
    SearchInv b v ⟨r', s.heap.marked o⟩ := by
  obtain ⟨R, sound⟩ := i.sound
  exact ⟨⟨R, sound.marked o⟩, i.small, i.alive, (ha.marked o).follows i.reader.le⟩

include hlt

/-- **One step** keeps the invariant. -/
theorem SearchInv.step (hstep : SearchStep env b s s') : SearchInv b v s' := by
  obtain ⟨R, sound⟩ := i.sound
  have ht := sound.isTrivial i.alive
  have hresumes := i.reader.resumes hlt
  cases hstep with
  | call call hb' =>
      obtain ⟨R', sound', m⟩ := call.leads sound
      exact ⟨⟨R', sound'⟩, call.small', hb', i.reader.moved sound sound' i.alive hb' m⟩
  | @hasLine found r' h' hrun =>
      obtain ⟨⟨o, rfl⟩, -, hfound, hwaits⟩ := (lineReaderHasLine_spec sound ht hresumes).of_run hrun
      refine i.attends o ?_
      cases found with
      | true => exact .inl (hfound rfl)
      | false => exact .inr (hwaits rfl)
  | @getLineLen len r' h' hrun =>
      obtain ⟨r'', ha, hsame⟩ := hresumes.settle sound ht
      rw [hsame.len] at hrun
      cases ha with
      | inl f =>
          rw [lineReaderGetLineLen_run ht f] at hrun
          cases hrun
          exact i.attends s.heap.overread (.inl f)
      | inr w =>
          rw [(w.nothing ht).1] at hrun
          cases hrun
          exact i.attends s.heap.overread (.inr w)
  | @getLineData n data r' h' hrun =>
      obtain ⟨r'', ha, hsame⟩ := hresumes.settle sound ht
      rw [hsame.data] at hrun
      cases ha with
      | inl f =>
          obtain ⟨⟨o, rfl⟩, -, rfl⟩ := (lineReaderGetLineData_spec sound ht f n).of_run hrun
          exact i.attends o (.inl f)
      | inr w =>
          rw [(w.nothing ht).2.1 n] at hrun
          cases hrun
          exact i.attends s.heap.overread (.inr w)
  | @seekLine k r' h' hrun =>
      obtain ⟨r'', ha, hsame⟩ := hresumes.settle sound ht
      rw [hsame.seek] at hrun
      cases ha with
      | inl f =>
          obtain ⟨B, hB⟩ := Option.isSome_iff_exists.mp i.alive
          obtain ⟨hk, hwaits⟩ :=
            (lineReaderSeekLine_spec sound ht (sound.fits i.small) hB f).of_run hrun
          obtain ⟨-, -, R', c, -⟩ := hk
          have hb' : (h'.buffers b).isSome := by
            rw [Heap.buffers_isSome_congr c.frame.kind]
            exact i.alive
          refine ⟨⟨R', sound.became c⟩, (c.fits (sound.fits i.small)).small, hb', ?_⟩
          exact Attends.follows (.inr hwaits) (Nat.le_trans i.reader.le c.frame.revision)
      | inr w =>
          rw [(w.nothing ht).2.2] at hrun
          cases hrun
          exact i.attends s.heap.overread (.inr w)
  | @reset r' h' hrun =>
      obtain ⟨r'', hreset, hwaits⟩ := lineReaderReset_run env sound ht i.reader.buffer
      rw [hreset] at hrun
      cases hrun
      exact i.attends s.heap.overread (.inr hwaits)

end Step

/-- **A run** keeps the invariant while the revisions can be told apart. -/
theorem SearchInv.run {s s' : Search} (i : SearchInv b v s) (hlt : s.heap.revOf b < v + 2 ^ 64)
    (hrun : SearchRun env b (fun s => s.heap.revOf b < v + 2 ^ 64) s s') :
    SearchInv b v s' ∧ s'.heap.revOf b < v + 2 ^ 64 := by
  induction hrun with
  | refl => exact ⟨i, hlt⟩
  | tail _ hstep ih =>
      obtain ⟨i', hlt'⟩ := ih
      exact ⟨i'.step hlt' hstep.1, hstep.2⟩

/-! ## The law -/

/-- In every run of the buffers and a reader of `b` through states with the
property `ok` the reader answers as a search of the content would. -/
def SearchLaw (env : Env) (b : Nat) (h₀ : Heap) (ok : Search → Prop) : Prop :=
  ∀ r h s, lineReaderCreate env b h₀ = .ok (some r, h) → SearchRun env b ok ⟨r, h⟩ s →
    SearchHolds env b s

/-- What a run of a new reader comes to has the invariant. -/
theorem searchInv_of_run {h : Heap} {s : Search} (hr : Reachable env h₀) (ht : h₀.IsTrivial b)
    (hcreate : lineReaderCreate env b h₀ = .ok (some r, h))
    (hrun : SearchRun env b (fun s => s.heap.revOf b < h₀.revOf b + 2 ^ 64) ⟨r, h⟩ s) :
    SearchInv b (h₀.revOf b) s ∧ s.heap.revOf b < h₀.revOf b + 2 ^ 64 := by
  obtain ⟨B, hB, hop⟩ := ht
  have hk : h₀.kindOf b = some (B.strategy, .trivial) := by
    rw [Heap.kindOf, hB, Option.map_some, hop]
  obtain ⟨R, s₀⟩ := hr.sound
  obtain ⟨sound, hsmall, hkind, hrev, -, hwaits⟩ := lineReaderCreate_spec s₀ hr.small hk hcreate
  have i : SearchInv b (h₀.revOf b) ⟨r, h⟩ :=
    ⟨⟨R, sound⟩, hsmall, isSome_of_kind (hkind.trans hk),
      Attends.follows (.inr hwaits) (Nat.le_of_eq hrev.symm)⟩
  exact i.run (show h.revOf b < _ by omega) hrun

end Pb
