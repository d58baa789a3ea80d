import PageBuf.Readers.LineReader

/-!
# Codec — lines in, the same lines out

Lines are encoded into a stream, the stream is appended to a buffer in chunks
and pages of any size, and a line reader takes lines from the buffer whenever
it finds one. Whatever the schedule, it takes the lines that were encoded.
-/

namespace Pb

open StateRun Framing

variable {env : Env} {h₀ h h' : Heap} {R R' : Nat → List Nat} {b : Nat} {σ : Strategy}
  {r r' : LineReader}

/-! ## The encoding -/

/-- A line and the kind of its terminator. -/
structure Line where
  text : List UInt8
  crlf : Bool
deriving DecidableEq, Repr

/-- The bytes before the line feed. -/
def Line.body (l : Line) : List UInt8 := if l.crlf then l.text ++ [13] else l.text

def Line.encode (l : Line) : List UInt8 := l.body ++ [10]

def encode (lines : List Line) : List UInt8 := lines.flatMap Line.encode

/-- The lines that can be told apart: no line feed in the text, no carriage
return before a bare line feed, and not too long for the reader. -/
structure Line.Valid (l : Line) : Prop where
  text : 10 ∉ l.text
  bare : l.crlf = false → l.text.getLast? ≠ some 13
  short : l.body.length ≤ lineReaderMaxLineSize

theorem Line.Valid.body {l : Line} (hl : l.Valid) : 10 ∉ l.body := by
  have htext := hl.text
  unfold Line.body
  split
  · simpa using htext
  · exact htext

theorem Line.Valid.endsWithCr {l : Line} (hl : l.Valid) : endsWithCr l.body = l.crlf := by
  unfold Line.body
  cases hcr : l.crlf with
  | true => simp [Pb.endsWithCr]
  | false => simpa [Pb.endsWithCr] using hl.bare hcr

theorem Line.length_body (l : Line) :
    l.text.length = if l.crlf then l.body.length - 1 else l.body.length := by
  unfold Line.body
  split <;> simp

theorem Line.text_eq_take (l : Line) : l.text = l.body.take l.text.length := by
  unfold Line.body
  split <;> simp

theorem Line.length_encode (l : Line) : l.encode.length = l.body.length + 1 := by
  simp [Line.encode]

theorem encode_cons (l : Line) (lines : List Line) :
    encode (l :: lines) = l.body ++ 10 :: encode lines := by
  simp [encode, Line.encode]

theorem encode_append (lines lines' : List Line) :
    encode (lines ++ lines') = encode lines ++ encode lines' := by
  simp [encode]

/-- A line is found exactly if the next of the lines that are left is there. -/
theorem hasLine_iff {rest : List Line} (hv : ∀ l ∈ rest, l.Valid)
    (hp : h.content b <+: encode rest) :
    h.HasLine b ↔ ∃ l rest', rest = l :: rest' ∧ l.encode <+: h.content b := by
  cases rest with
  | nil =>
      have hnil : h.content b = [] := List.prefix_nil.mp hp
      unfold Heap.HasLine
      rw [hnil]
      simp
  | cons l rest =>
      have hl := hv l List.mem_cons_self
      rw [encode_cons] at hp
      obtain ⟨hle, hcomplete⟩ := front_of_isPrefix hl.body hp
      have hline : h.lineOf b = front 10 (h.content b) := cut_of_le (Nat.le_trans hle hl.short)
      unfold Heap.HasLine
      rw [hline]
      constructor
      · intro hhere
        obtain ⟨s, hs, -⟩ := hcomplete hhere
        exact ⟨l, rest, rfl, s, by simp [Line.encode, hs]⟩
      · intro hex
        obtain ⟨l', rest', heq, hl'⟩ := hex
        obtain ⟨rfl, rfl⟩ := List.cons.inj heq
        have hlong := hl'.length_le
        rw [l.length_encode] at hlong
        omega

/-- The line that is found is the next one. -/
theorem lineOf_of_hasLine {l : Line} {rest : List Line} (hl : l.Valid)
    (hp : h.content b <+: encode (l :: rest)) (hhere : h.HasLine b) :
    h.lineOf b = l.body ∧ ∃ s, h.content b = l.body ++ 10 :: s ∧ s <+: encode rest := by
  rw [encode_cons] at hp
  obtain ⟨hle, hcomplete⟩ := front_of_isPrefix hl.body hp
  have hline : h.lineOf b = front 10 (h.content b) := cut_of_le (Nat.le_trans hle hl.short)
  unfold Heap.HasLine at hhere
  rw [hline] at hhere ⊢
  obtain ⟨s, hs, hpre⟩ := hcomplete hhere
  exact ⟨by rw [hs, front_frame hl.body], s, hs, hpre⟩

/-! ## Runs -/

/-- What the reader said about a line. -/
structure Seen where
  len : Nat
  crlf : Bool
  data : List UInt8
  seeked : Nat
deriving DecidableEq, Repr

/-- What it should say. -/
def Line.seen (l : Line) : Seen := ⟨l.text.length, l.crlf, l.text, l.encode.length⟩

/-- How far the client has got with a line. -/
inductive Phase where
  | idle
  | found
  | sized (len : Nat)
  | copied (len : Nat) (crlf : Bool) (data : List UInt8)
deriving DecidableEq, Repr

structure Codec where
  fed : List UInt8
  seen : List Seen
  phase : Phase
  reader : LineReader
  heap : Heap

/-- Bytes are appended, anything is done to other buffers, and the client asks
the reader for a line: its length, its terminator, its bytes, and then the
seek. -/
inductive CodecStep (env : Env) (b : Nat) (s : Codec) : Codec → Prop where
  | append {op a h'} : Call env op a s.heap h' → op.AppendsTo b → CodecStep env b s
      { s with fed := s.fed ++ (h'.content b).drop (s.heap.content b).length, heap := h' }
  | other {op a h'} : Call env op a s.heap h' → op.target ≠ some b →
      CodecStep env b s { s with heap := h' }
  | hasLine {found r' h'} : s.phase = .idle →
      lineReaderHasLine env s.reader s.heap = .ok ((found, r'), h') → CodecStep env b s
        { s with phase := if found then .found else .idle, reader := r', heap := h' }
  | getLineLen {len r' h'} : s.phase = .found →
      lineReaderGetLineLen env s.reader s.heap = .ok ((len, r'), h') →
      CodecStep env b s { s with phase := .sized len, reader := r', heap := h' }
  | getLineData {len n data r' h'} : s.phase = .sized len → len ≤ n →
      lineReaderGetLineData env s.reader n s.heap = .ok ((data, r'), h') → CodecStep env b s
        { s with phase := .copied len (lineReaderIsCrlf s.reader) data, reader := r', heap := h' }
  | seekLine {len crlf data k r' h'} : s.phase = .copied len crlf data →
      lineReaderSeekLine env s.reader s.heap = .ok ((k, r'), h') →
      CodecStep env b s ⟨s.fed, s.seen ++ [⟨len, crlf, data, k⟩], .idle, r', h'⟩

/-- The next call of the client returns what it should about the lines that
are left. -/
def Answers (env : Env) (b : Nat) (rest : List Line) (s : Codec) : Prop :=
  match s.phase with
  | .idle => Yields (lineReaderHasLine env s.reader) s.heap (fun q _ =>
      q.1 = true ↔ ∃ l rest', rest = l :: rest' ∧ l.encode <+: s.heap.content b)
  | .found => ∃ l rest', rest = l :: rest' ∧
      Yields (lineReaderGetLineLen env s.reader) s.heap (fun q _ => q.1 = l.text.length)
  | .sized _ => ∃ l rest', rest = l :: rest' ∧ lineReaderIsCrlf s.reader = l.crlf ∧
      ∀ n, Yields (lineReaderGetLineData env s.reader n) s.heap (fun q _ => q.1 = l.text.take n)
  | .copied _ _ _ => ∃ l rest', rest = l :: rest' ∧
      Yields (lineReaderSeekLine env s.reader) s.heap (fun q _ => q.1 = l.encode.length)

/-- The reader has taken the first lines, each as it was encoded; the rest of
what was fed is in the buffer. -/
def CodecHolds (env : Env) (b : Nat) (lines : List Line) (s : Codec) : Prop :=
  ∃ taken rest, lines = taken ++ rest ∧ s.seen = taken.map Line.seen ∧
    encode taken ++ s.heap.content b = s.fed ∧ Answers env b rest s

/-! ## The invariant -/

/-- What the reader knows of the line it has found. -/
def PhaseHolds (b : Nat) (s : Codec) : Prop :=
  match s.phase with
  | .idle => Watches b s.reader s.heap
  | .found => Found b s.reader s.heap
  | .sized len => Found b s.reader s.heap ∧ len = s.heap.lineLen b
  | .copied len crlf data => Found b s.reader s.heap ∧ len = s.heap.lineLen b ∧
      crlf = s.heap.lineCrlf b ∧ data = (s.heap.content b).take len

structure CodecInv (σ : Strategy) (b : Nat) (taken : List Line) (s : Codec) : Prop where
  sound : ∃ R, Sound s.heap R
  small : s.heap.Small
  kind : s.heap.kindOf b = some (σ, .trivial)
  seen : s.seen = taken.map Line.seen
  fed : encode taken ++ s.heap.content b = s.fed
  phase : PhaseHolds b s

/-- Appending to the buffer, and calls on other buffers. -/
theorem Call.grows {op : Op} {a : Ret} (c : Call env op a h h') (s : Sound h R)
    (hk : h.kindOf b = some (σ, .trivial)) (hop : op.AppendsTo b ∨ op.target ≠ some b) :
    ∃ R', Sound h' R' ∧ h'.kindOf b = h.kindOf b ∧ Grows b h h' ∧
      (op.target ≠ some b → h'.content b = h.content b) := by
  have hb := isSome_of_kind hk
  obtain ⟨R', s', m⟩ := c.leads s
  have hvalid : h'.kindOf b = h.kindOf b → h'.revOf b = h.revOf b → StillValid b h h' := by
    intro hkind hrev
    have hb' := isSome_of_kind (hkind.trans hk)
    obtain ⟨-, -, st⟩ := m.stable hb' (s.inv.core.links.buffer_fresh hb)
    obtain ⟨hpre, hsame, -⟩ := st hrev
    exact s.stillValid s' hb hb' hpre hsame
  by_cases ht : op.target ≠ some b
  · have hun := m.unchanged s s' hb ht
    refine ⟨R', s', hun.kindOf, ⟨?_, ?_, hvalid hun.kindOf⟩, fun _ => hun.content⟩
    · rw [hun.content]
    · rw [hun.content, if_neg fun hc => hc.2 hc.1, Heap.revOf, Heap.revOf, hun.buffer]
      rfl
  · have happ := (exec_append s c.valid (hop.resolve_right ht)).of_run c.run (.inl c.small')
    exact ⟨R', s', happ.kind, ⟨happ.content, happ.revision, hvalid happ.kind⟩,
      fun hn => absurd hn ht⟩

theorem PhaseHolds.grow {s : Codec} {fed : List UInt8} (hp : PhaseHolds b s)
    (g : Grows b s.heap h') : PhaseHolds b { s with fed := fed, heap := h' } := by
  -- the found line is what it was
  have hsame : Found b s.reader s.heap →
      h'.lineLen b = s.heap.lineLen b ∧ h'.lineCrlf b = s.heap.lineCrlf b := fun f => by
    obtain ⟨hline, -, hcr⟩ := f.here.append g.content
    exact ⟨by rw [Heap.lineLen, Heap.lineLen, hline, hcr], hcr⟩
  unfold PhaseHolds at hp ⊢
  cases hphase : s.phase with
  | idle =>
      rw [hphase] at hp
      exact hp.grow g
  | found =>
      rw [hphase] at hp
      exact hp.grow g
  | sized len =>
      rw [hphase] at hp
      obtain ⟨f, hlen⟩ := hp
      exact ⟨f.grow g, hlen.trans (hsame f).1.symm⟩
  | copied len crlf data =>
      rw [hphase] at hp
      obtain ⟨f, hlen, hcr, hdata⟩ := hp
      refine ⟨f.grow g, hlen.trans (hsame f).1.symm, hcr.trans (hsame f).2.symm, ?_⟩
      have hle : len ≤ (s.heap.content b).length := by
        have hhere := f.here
        have hlt := s.heap.lineLen_le b
        unfold Heap.HasLine at hhere
        omega
      obtain ⟨t, ht⟩ := g.content
      rw [hdata, ← ht, List.take_append_of_le_length hle]

/-- What is left to feed and what is in the buffer. -/
theorem CodecInv.prefix_rest {taken rest : List Line} {s : Codec} (c : CodecInv σ b taken s)
    (hfed : s.fed <+: encode (taken ++ rest)) : s.heap.content b <+: encode rest := by
  rw [← c.fed, encode_append] at hfed
  exact (List.prefix_append_right_inj _).mp hfed

section Step

variable {taken rest : List Line} {s s' : Codec}

/-- The found line is the next of the lines that are left. -/
theorem CodecInv.next (c : CodecInv σ b taken s) (hfed : s.fed <+: encode (taken ++ rest))
    (hv : ∀ l ∈ rest, l.Valid) (f : Found b s.reader s.heap) :
    ∃ l rest', rest = l :: rest' ∧ l.Valid ∧ s.heap.lineOf b = l.body ∧
      s.heap.lineLen b = l.text.length ∧ s.heap.lineCrlf b = l.crlf ∧
      (s.heap.content b).take l.text.length = l.text ∧
      s.heap.content b = l.encode ++ (s.heap.content b).drop (l.body.length + 1) := by
  have hp := c.prefix_rest hfed
  obtain ⟨l, rest', rfl, -⟩ := (hasLine_iff hv hp).mp f.here
  have hl := hv l List.mem_cons_self
  obtain ⟨hline, t, ht, -⟩ := lineOf_of_hasLine hl hp f.here
  have hcr : s.heap.lineCrlf b = l.crlf := by
    rw [Heap.lineCrlf, hline, hl.endsWithCr, ht]
    simp
  refine ⟨l, rest', rfl, hl, hline, ?_, hcr, ?_, ?_⟩
  · rw [Heap.lineLen, hline, hcr, l.length_body]
  · have hle : l.text.length ≤ l.body.length := by
      rw [l.length_body]
      split <;> omega
    rw [ht, List.take_append_of_le_length hle, ← l.text_eq_take]
  · rw [ht, Line.encode, show l.body ++ 10 :: t = (l.body ++ [10]) ++ t by simp]
    rw [show l.body.length + 1 = (l.body ++ [10]).length by simp, List.drop_left]

/-- **One step** takes at most one line, the next one. -/
theorem CodecInv.step (c : CodecInv σ b taken s) (hσ : σ.rejectsSeek = false)
    (hfed : s.fed <+: encode (taken ++ rest)) (hv : ∀ l ∈ rest, l.Valid)
    (hstep : CodecStep env b s s') :
    CodecInv σ b taken s' ∨ ∃ l rest', rest = l :: rest' ∧ CodecInv σ b (taken ++ [l]) s' := by
  obtain ⟨R, sound⟩ := c.sound
  have ht := isTrivial_of_kind c.kind
  have hb := isSome_of_kind c.kind
  cases hstep with
  | append call ha =>
      obtain ⟨R', sound', hkind, g, -⟩ := call.grows sound c.kind (.inl ha)
      left
      refine ⟨⟨R', sound'⟩, call.small', hkind.trans c.kind, c.seen, ?_, c.phase.grow g⟩
      obtain ⟨t, ht⟩ := g.content
      dsimp only
      rw [← c.fed, ← ht, List.drop_left, List.append_assoc]
  | other call hne =>
      obtain ⟨R', sound', hkind, g, hcontent⟩ := call.grows sound c.kind (.inr hne)
      left
      refine ⟨⟨R', sound'⟩, call.small', hkind.trans c.kind, c.seen, ?_, c.phase.grow g⟩
      dsimp only
      rw [hcontent hne]
      exact c.fed
  | @hasLine found r' h' hphase hrun =>
      have hw : Watches b s.reader s.heap := by
        have := c.phase
        rwa [PhaseHolds, hphase] at this
      obtain ⟨⟨o, rfl⟩, -, hfound, hwaits⟩ := (lineReaderHasLine_spec sound ht hw.resumes).of_run hrun
      left
      refine ⟨⟨R, sound.marked o⟩, c.small, c.kind, c.seen, c.fed, ?_⟩
      cases found with
      | true => exact (hfound rfl).marked o
      | false => exact ((hwaits rfl).marked o).watches
  | @getLineLen len r' h' hphase hrun =>
      have f : Found b s.reader s.heap := by
        have := c.phase
        rwa [PhaseHolds, hphase] at this
      rw [lineReaderGetLineLen_run ht f] at hrun
      cases hrun
      exact .inl ⟨⟨R, sound⟩, c.small, c.kind, c.seen, c.fed, f, rfl⟩
  | @getLineData len n data r' h' hphase hn hrun =>
      obtain ⟨f, hlen⟩ : Found b s.reader s.heap ∧ len = s.heap.lineLen b := by
        have := c.phase
        rwa [PhaseHolds, hphase] at this
      obtain ⟨⟨o, rfl⟩, hdata, hsame⟩ := (lineReaderGetLineData_spec sound ht f n).of_run hrun
      dsimp only at hdata hsame
      left
      refine ⟨⟨R, sound.marked o⟩, c.small, c.kind, c.seen, c.fed, ?_, hlen, f.cr, ?_⟩
      · dsimp only
        rw [hsame]
        exact f.marked o
      · rw [hdata, hlen]
        exact congrArg (fun i => (s.heap.content b).take i) (Nat.min_eq_right (hlen ▸ hn))
  | @seekLine len crlf data k r' h' hphase hrun =>
      obtain ⟨f, hlen, hcr, hdata⟩ : Found b s.reader s.heap ∧ len = s.heap.lineLen b ∧
          crlf = s.heap.lineCrlf b ∧ data = (s.heap.content b).take len := by
        have := c.phase
        rwa [PhaseHolds, hphase] at this
      obtain ⟨B, hB, rfl, -⟩ := exists_buffer_of_kind c.kind
      obtain ⟨hk, hcontent, hw, hkind, hsmall, R', sound'⟩ :=
        (lineReaderSeekLine_drops sound ht (sound.fits c.small) hB hσ f).of_run hrun
      dsimp only at hk hw
      obtain ⟨l, rest', hrest, hl, hline, hlineLen, hends, htext, hcut⟩ := c.next hfed hv f
      right
      refine ⟨l, rest', hrest, ⟨R', sound'⟩, hsmall, hkind.trans c.kind, ?_, ?_, hw⟩
      · dsimp only
        rw [c.seen, List.map_append, hlen, hcr, hdata, hlen, hlineLen, hends, htext, hk, hline]
        simp [Line.seen, l.length_encode]
      · dsimp only
        rw [hcontent, hline, ← c.fed, encode_append, List.append_assoc]
        have hone : encode [l] = l.encode := by simp [encode]
        rw [hone, ← hcut]

end Step

/-! ## The law -/

/-- What has been fed stays the beginning of what will be. -/
theorem CodecStep.fed {s s' : Codec} (hstep : CodecStep env b s s') : s.fed <+: s'.fed := by
  cases hstep with
  | append => exact List.prefix_append _ _
  | other => exact List.prefix_refl _
  | hasLine => exact List.prefix_refl _
  | getLineLen => exact List.prefix_refl _
  | getLineData => exact List.prefix_refl _
  | seekLine => exact List.prefix_refl _

/-- What the reader knows is enough for what it answers next. -/
theorem CodecInv.answers {taken rest : List Line} {s : Codec} (c : CodecInv σ b taken s)
    (hσ : σ.rejectsSeek = false) (hfed : s.fed <+: encode (taken ++ rest))
    (hv : ∀ l ∈ rest, l.Valid) : Answers env b rest s := by
  obtain ⟨R, sound⟩ := c.sound
  have ht := isTrivial_of_kind c.kind
  have hphase := c.phase
  unfold Answers
  cases hp : s.phase with
  | idle =>
      rw [PhaseHolds, hp] at hphase
      refine (lineReaderHasLine_spec sound ht hphase.resumes).mono ?_
      intro q h' hpost
      exact hpost.2.1.trans (hasLine_iff hv (c.prefix_rest hfed))
  | found =>
      rw [PhaseHolds, hp] at hphase
      obtain ⟨l, rest', hrest, -, -, hlen, -⟩ := c.next hfed hv hphase
      exact ⟨l, rest', hrest, .intro (lineReaderGetLineLen_run ht hphase) hlen⟩
  | sized len =>
      rw [PhaseHolds, hp] at hphase
      obtain ⟨f, -⟩ := hphase
      obtain ⟨l, rest', hrest, -, -, hlen, hcr, htext, -⟩ := c.next hfed hv f
      refine ⟨l, rest', hrest, f.cr.trans hcr, fun n => ?_⟩
      refine (lineReaderGetLineData_spec sound ht f n).mono ?_
      intro q h' hpost
      rw [hpost.2.1, hlen, ← List.take_take, htext]
  | copied len crlf data =>
      rw [PhaseHolds, hp] at hphase
      obtain ⟨f, -⟩ := hphase
      obtain ⟨l, rest', hrest, -, hline, -⟩ := c.next hfed hv f
      obtain ⟨B, hB, rfl, -⟩ := exists_buffer_of_kind c.kind
      refine ⟨l, rest', hrest, ?_⟩
      refine (lineReaderSeekLine_drops sound ht (sound.fits c.small) hB hσ f).mono ?_
      intro q h' hpost
      rw [hpost.1, hline, l.length_encode]

/-- **A run** takes the lines one after the other. -/
theorem CodecInv.run {lines : List Line} {s s' : Codec} (hσ : σ.rejectsSeek = false)
    (hv : ∀ l ∈ lines, l.Valid) (hrun : Relation.ReflTransGen (CodecStep env b) s s')
    (hfed : s'.fed <+: encode lines) (c : CodecInv σ b [] s) :
    ∃ taken rest, lines = taken ++ rest ∧ CodecInv σ b taken s' := by
  induction hrun with
  | refl => exact ⟨[], lines, rfl, c⟩
  | tail _ hstep ih =>
      have hfed' := hstep.fed.trans hfed
      obtain ⟨taken, rest, rfl, c'⟩ := ih hfed'
      have hv' : ∀ l ∈ rest, l.Valid := fun l hl => hv l (List.mem_append_right _ hl)
      rcases c'.step hσ hfed' hv' hstep with hsame | ⟨l, rest', rfl, hnext⟩
      · exact ⟨taken, rest, rfl, hsame⟩
      · exact ⟨taken ++ [l], rest', by simp, hnext⟩

/-- Nothing more is fed, and the reader finds no line: all lines were taken. -/
def CodecEnds (env : Env) (lines : List Line) (s : Codec) : Prop :=
  s.fed = encode lines → s.phase = .idle → Yields (lineReaderHasLine env s.reader) s.heap
    (fun q _ => q.1 = false ↔ s.seen = lines.map Line.seen)

theorem CodecHolds.ends {lines : List Line} {s : Codec} (hs : CodecHolds env b lines s) :
    CodecEnds env lines s := by
  intro hfed hidle
  obtain ⟨taken, rest, rfl, hseen, hcontent, hanswers⟩ := hs
  rw [hfed, encode_append, List.append_cancel_left_eq] at hcontent
  rw [Answers, hidle] at hanswers
  refine hanswers.mono ?_
  intro q h' hq
  have hrest : (s.seen = (taken ++ rest).map Line.seen) ↔ rest = [] := by
    rw [hseen, List.map_append]
    simp
  rw [hrest]
  cases rest with
  | nil => simpa using hq
  | cons l rest =>
      have hfound : q.1 = true := by
        refine hq.mpr ⟨l, rest, rfl, encode rest, ?_⟩
        rw [hcontent, encode_cons]
        simp [Line.encode]
      simp [hfound]

/-- Every run of a line reader takes the lines out of the buffer as they were
encoded. -/
def CodecLaw (env : Env) (b : Nat) (h₀ : Heap) : Prop :=
  ∀ lines r h s, (∀ l ∈ lines, Line.Valid l) → lineReaderCreate env b h₀ = .ok (some r, h) →
    Relation.ReflTransGen (CodecStep env b) ⟨h₀.content b, [], .idle, r, h⟩ s →
    s.fed <+: encode lines → CodecHolds env b lines s ∧ CodecEnds env lines s

/-- A strategy under which nothing can be removed from the front. -/
def Strategy.unseekable : Strategy := { trivialBufferStrategy with rejectsSeek := true }

/-- The buffer 1 holds an empty line. -/
def Heap.emptyLine : Heap :=
  (Heap.twoBuffers Strategy.unseekable Strategy.unseekable).after .generous (.writeData 1 [10])

theorem reachable_emptyLine : Reachable .generous .emptyLine :=
  (reachable_twoBuffers _ _).after (isTrivial_twoBuffers _ _).1 rfl (by decide)

/-- A reader at the line, before and after it has found it. -/
def LineReader.atEmptyLine (found : Bool) : LineReader :=
  ⟨1, ⟨6, 0, some ⟨.heap 4, 0⟩⟩, 1, 0, false, found, false, false⟩

/-- The client has asked the reader of the line for all but the seek. -/
def Codec.emptyLine : Codec :=
  ⟨[10], [], .copied 0 false [], .atEmptyLine true, Heap.emptyLine.granted⟩

theorem run_emptyLine : Relation.ReflTransGen (CodecStep .generous 1)
    ⟨[10], [], .idle, .atEmptyLine false, Heap.emptyLine.granted⟩ .emptyLine := by
  have hfound : CodecStep .generous 1
      ⟨[10], [], .idle, .atEmptyLine false, Heap.emptyLine.granted⟩
      ⟨[10], [], .found, .atEmptyLine true, Heap.emptyLine.granted⟩ :=
    .hasLine rfl (show lineReaderHasLine _ _ _ = .ok ((true, _), _) from rfl)
  have hsized : CodecStep .generous 1
      ⟨[10], [], .found, .atEmptyLine true, Heap.emptyLine.granted⟩
      ⟨[10], [], .sized 0, .atEmptyLine true, Heap.emptyLine.granted⟩ := .getLineLen rfl rfl
  have hcopied : CodecStep .generous 1
      ⟨[10], [], .sized 0, .atEmptyLine true, Heap.emptyLine.granted⟩ .emptyLine :=
    .getLineData (n := 0) rfl (Nat.le_refl 0) rfl
  exact ((Relation.ReflTransGen.single hfound).tail hsized).tail hcopied

end Pb
