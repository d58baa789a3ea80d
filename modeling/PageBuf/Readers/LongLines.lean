import PageBuf.Readers.Termination

/-!
# LongLines — lines put together again

A client that reads line after line, each as a whole, and puts the lines and
their terminators together again has what it read. Behind a line that was cut
at the longest a line may be there is no terminator, but the reader drops a
byte there as well.
-/

namespace Pb

open StateRun Framing

variable {env : Env} {h₀ h h' : Heap} {R R' : Nat → List Nat} {b v : Nat} {B : Buffer}
  {r r' : LineReader} {bytes out : List UInt8}

/-! ## A round -/

/-- What stands behind the line in the content: a line feed, with the carriage
return before it that is no part of the line, or nothing where the line was
cut. -/
def lineTerminator (bytes : List UInt8) : List UInt8 :=
  if bytes[lineEnd bytes]? = some 10 then if LineCrlf bytes then [13, 10] else [10] else []

/-- One round of a client: it asks for a line, for its length, for all of its
bytes, and lets it go. -/
def readLine (env : Env) (r : LineReader) : PbM (Option (List UInt8) × LineReader) := do
  let (found, r) ← lineReaderHasLine env r
  if found then do
    let (len, r) ← lineReaderGetLineLen env r
    let (data, r) ← lineReaderGetLineData env r len
    let (_, r) ← lineReaderSeekLine env r
    pure (some data, r)
  else pure (none, r)

/-- A round takes from the front what it delivers, and the terminator. -/
def RoundExact (env : Env) (b : Nat) (r : LineReader) (h : Heap) : Prop :=
  Yields (readLine env r) h (fun q h' => ∀ data, q.1 = some data →
    h.content b = data ++ lineTerminator (h.content b) ++ h'.content b)

/-- The line and a line feed behind it are in the content as they are. -/
theorem take_append_terminator (hten : bytes[lineEnd bytes]? = some 10) :
    bytes.take (lineLength bytes) ++ lineTerminator bytes = bytes.take (lineEnd bytes + 1) := by
  have hlt := (List.getElem?_eq_some_iff.mp hten).1
  rw [lineTerminator, if_pos hten, lineLength, List.take_add_one, hten]
  by_cases hcrlf : LineCrlf bytes
  · rw [if_pos hcrlf, if_pos hcrlf]
    obtain ⟨-, hpos, hcr⟩ := hcrlf
    obtain ⟨k, hk⟩ := Nat.exists_eq_add_of_le' hpos
    rw [hk, Nat.add_sub_cancel] at hcr
    rw [hk, Nat.add_sub_cancel, List.take_add_one, hcr]
    simp
  · rw [if_neg hcrlf, if_neg hcrlf]
    rfl

theorem length_lineTerminator (hten : bytes[lineEnd bytes]? ≠ some 10) :
    lineTerminator bytes = [] ∧ lineLength bytes = lineEnd bytes := by
  have hcrlf : ¬LineCrlf bytes := fun hc => hten hc.1
  rw [lineTerminator, if_neg hten, lineLength, if_neg hcrlf]
  exact ⟨rfl, rfl⟩

theorem lineEnd_lt (hfound : LineFound bytes) : lineEnd bytes < bytes.length := by
  rcases hfound with ⟨i, -, hi⟩ | hlong
  · have hmem : (10 : UInt8) ∈ bytes := List.mem_of_getElem? hi
    exact Nat.lt_of_le_of_lt (Nat.min_le_left _ _) (List.idxOf_lt_length_of_mem hmem)
  · exact Nat.lt_of_le_of_lt (Nat.min_le_right _ _) hlong

/-- A line that was cut is as long as a line may be. -/
theorem lineEnd_eq_max (hfound : LineFound bytes) (hten : bytes[lineEnd bytes]? ≠ some 10) :
    lineEnd bytes = lineReaderMaxLineSize := by
  have hlt := lineEnd_lt hfound
  by_contra hn
  have hidx : lineEnd bytes = bytes.idxOf 10 := by
    unfold lineEnd at hn ⊢
    omega
  refine hten ?_
  rw [hidx] at hlt ⊢
  rw [List.getElem?_eq_getElem hlt, List.getElem_idxOf hlt]

section Round

variable (s : Sound h R) (ht : h.IsTrivial b) (hfits : h.Fits) (hB : h.buffers b = some B)

include s ht hfits hB

/-- The seek drops the line with its terminator, or nothing if it is rejected. -/
theorem lineReaderSeekLine_keeps (f : Found b r h) : Yields (lineReaderSeekLine env r) h
    (fun q h' => (Removes b h R ((h.lineOf b).length + 1) B.strategy.rejectsSeek
      (fun k => (h.flat (R b)).drop k) q.1 h' ∧ Waits b q.2 h') ∧
      (B.strategy.rejectsSeek = true → q.1 = 0)) := by
  by_cases hrej : B.strategy.rejectsSeek = true
  · refine Yields.and (lineReaderSeekLine_spec s ht hfits hB f) ?_
    unfold lineReaderSeekLine
    refine Yields.step (Attends.sync env s ht (.inl f)) ?_
    rw [if_neg (by simp [f.hasLine]), f.current.buffer]
    refine Yields.step (bufferSeek_rejected ht hB hrej _) ?_
    obtain ⟨r', hreset, -⟩ := lineReaderReset_run env s ht f.current.buffer
    exact Yields.step hreset (yields_pure.mpr fun _ => rfl)
  · exact (lineReaderSeekLine_spec s ht hfits hB f).mono
      fun _ _ hpost => ⟨hpost, fun hr => absurd hr hrej⟩

/-- What a round delivers and drops. -/
theorem readLine_spec (hw : Resumes b r h) :
    Yields (readLine env r) h (fun q h' =>
      ¬LineFound (h.content b) ∧ q.1 = none ∨
      LineFound (h.content b) ∧
        q.1 = some ((h.content b).take (lineLength (h.content b))) ∧
        ∃ o k, Removes b (h.marked o) R (lineEnd (h.content b) + 1) B.strategy.rejectsSeek
            (fun k => (h.flat (R b)).drop k) k h' ∧
          (B.strategy.rejectsSeek = true → k = 0) ∧ Waits b q.2 h') := by
  unfold readLine
  refine Yields.bind (lineReaderHasLine_spec s ht hw) ?_
  rintro ⟨found, r₁⟩ h₁ ⟨⟨o, rfl⟩, hiff, hfound, -⟩
  dsimp only at hiff hfound ⊢
  rw [hasLine_iff_lineFound] at hiff
  cases found with
  | false =>
      rw [if_neg (by simp)]
      exact yields_pure.mpr (.inl ⟨fun hn => Bool.false_ne_true (hiff.mpr hn), rfl⟩)
  | true =>
      rw [if_pos rfl]
      have f := (hfound rfl).marked o
      refine Yields.step (lineReaderGetLineLen_run (ht.marked o) f) ?_
      refine Yields.bind (lineReaderGetLineData_spec (s.marked o) (ht.marked o) f _) ?_
      rintro ⟨data, r₂⟩ h₂ ⟨⟨o', rfl⟩, hdata, rfl⟩
      dsimp only at hdata ⊢
      rw [Nat.min_self, lineLen_eq] at hdata
      have f' : Found b r₂ (h.marked o') := (hfound rfl).marked o'
      have hfits' : (h.marked o').Fits := ⟨hfits.small, hfits.allocs⟩
      refine Yields.bind (lineReaderSeekLine_keeps (s.marked o') (ht.marked o') hfits' hB f') ?_
      rintro ⟨k, r₃⟩ h₃ ⟨⟨hk, hwaits⟩, hkept⟩
      rw [length_lineOf] at hk
      exact yields_pure.mpr (.inr ⟨hiff.mp rfl, congrArg some hdata, o', k, hk, hkept, hwaits⟩)

/-- **A round is exact** if the line it finds ends with a line feed, and the
buffer lets it go. -/
theorem roundExact_iff (hw : Resumes b r h) : RoundExact env b r h ↔
    (LineFound (h.content b) → (h.content b)[lineEnd (h.content b)]? = some 10 ∧
      B.strategy.rejectsSeek = false) := by
  obtain ⟨q, h', hrun, hpost⟩ := readLine_spec s ht hfits hB hw
  have hexact : RoundExact env b r h ↔ ∀ data, q.1 = some data →
      h.content b = data ++ lineTerminator (h.content b) ++ h'.content b :=
    ⟨fun hy => hy.of_run hrun, fun hall => .intro hrun hall⟩
  rw [hexact]
  rcases hpost with ⟨hnot, hnone⟩ | ⟨hfound, hdata, o, k, hk, hrej, -⟩
  · rw [hnone]
    exact iff_of_true (fun data hd => by cases hd) fun hf => absurd hf hnot
  · have hlt := lineEnd_lt hfound
    obtain ⟨hdrop, hle, hall⟩ := hk.dropped (s.marked o) (ht.marked o)
    have hdrop' : h'.content b = (h.content b).drop k := hdrop
    have hle' : k ≤ (h.content b).length := hle
    have hall' : B.strategy.rejectsSeek = false → k = lineEnd (h.content b) + 1 :=
      fun hr => (hall hr).trans (Nat.min_eq_left hlt)
    have hlen : lineLength (h.content b) ≤ lineEnd (h.content b) := by
      unfold lineLength
      split <;> omega
    have hgoal : (∀ data, q.1 = some data →
        h.content b = data ++ lineTerminator (h.content b) ++ h'.content b) ↔
        (h.content b)[lineEnd (h.content b)]? = some 10 ∧ B.strategy.rejectsSeek = false := by
      rw [hdata, hdrop']
      constructor
      · intro hall''
        have heq := congrArg List.length (hall'' _ rfl)
        rw [List.length_append, List.length_append, List.length_take, List.length_drop] at heq
        by_cases hten : (h.content b)[lineEnd (h.content b)]? = some 10
        · refine ⟨hten, ?_⟩
          by_contra hr
          have hpos : 0 < (lineTerminator (h.content b)).length := by
            rw [lineTerminator, if_pos hten]
            split <;> simp
          have := hrej (by simpa using hr)
          omega
        · exfalso
          obtain ⟨hnil, hlen'⟩ := length_lineTerminator hten
          have hmax := lineEnd_eq_max hfound hten
          rw [hnil, List.length_nil] at heq
          unfold lineReaderMaxLineSize at hmax
          cases hr : B.strategy.rejectsSeek with
          | false =>
              have := hall' hr
              omega
          | true =>
              have := hrej hr
              omega
      · rintro ⟨hten, hr⟩ data hd
        rw [← Option.some.inj hd, take_append_terminator hten, hall' hr, List.take_append_drop]
    rw [hgoal]
    exact ⟨fun hg _ => hg, fun hg => hg hfound⟩

end Round

/-! ## Runs -/

/-- The rounds of a client that each begin with a content of the property
`ok`. It has put together `out`. -/
inductive LineRounds (env : Env) (b : Nat) (ok : List UInt8 → Prop) (s : Search) :
    List UInt8 → Search → Prop where
  | start : LineRounds env b ok s [] s
  | round {out data : List UInt8} {s' : Search} {r' : LineReader} {h' : Heap} :
      LineRounds env b ok s out s' → ok (s'.heap.content b) →
      readLine env s'.reader s'.heap = .ok ((some data, r'), h') →
      LineRounds env b ok s (out ++ (data ++ lineTerminator (s'.heap.content b))) ⟨r', h'⟩

/-- The line ends with a line feed. -/
def EndsWithLf (bytes : List UInt8) : Prop := bytes[lineEnd bytes]? = some 10

/-- What a client needs to go on reading lines. -/
structure Ready (b : Nat) (σ : Strategy) (s : Search) : Prop where
  sound : ∃ R, Sound s.heap R
  fits : s.heap.Fits
  kind : s.heap.kindOf b = some (σ, .trivial)
  reader : Resumes b s.reader s.heap

/-- One round takes the line and its terminator from the front. -/
theorem Ready.round {s : Search} {σ : Strategy} {data : List UInt8} (y : Ready b σ s)
    (hσ : σ.rejectsSeek = false) (hlf : EndsWithLf (s.heap.content b))
    (hrun : readLine env s.reader s.heap = .ok ((some data, r'), h')) :
    Ready b σ ⟨r', h'⟩ ∧
      s.heap.content b = data ++ lineTerminator (s.heap.content b) ++ h'.content b := by
  obtain ⟨R, sound⟩ := y.sound
  obtain ⟨B, hB, rfl, hop⟩ := exists_buffer_of_kind y.kind
  have ht : s.heap.IsTrivial b := ⟨B, hB, hop⟩
  have hexact : RoundExact env b s.reader s.heap :=
    (roundExact_iff sound ht y.fits hB y.reader).mpr fun _ => ⟨hlf, hσ⟩
  refine ⟨?_, hexact.of_run hrun data rfl⟩
  rcases (readLine_spec sound ht y.fits hB y.reader).of_run hrun with
    ⟨-, hnone⟩ | ⟨-, -, o, k, ⟨-, -, R', c, -⟩, -, hwaits⟩
  · cases hnone
  · have hfits : (s.heap.marked o).Fits := ⟨y.fits.small, y.fits.allocs⟩
    exact ⟨⟨R', (sound.marked o).became c⟩, c.fits hfits, (congrFun c.frame.kind b).trans y.kind,
      Attends.resumes (.inr hwaits)⟩

/-- **The lines and their terminators** give back what was read. -/
theorem Ready.rounds {s s' : Search} {σ : Strategy} (y : Ready b σ s)
    (hσ : σ.rejectsSeek = false) (hrun : LineRounds env b EndsWithLf s out s') :
    Ready b σ s' ∧ s.heap.content b = out ++ s'.heap.content b := by
  induction hrun with
  | start => exact ⟨y, rfl⟩
  | round _ hlf hround ih =>
      obtain ⟨y', hout⟩ := ih
      obtain ⟨y'', hexact⟩ := y'.round hσ hlf hround
      refine ⟨y'', ?_⟩
      rw [hout, List.append_assoc, ← hexact]

/-! ## The law -/

/-- In every run of the buffers and a reader of `b` a round is exact. -/
def RoundLaw (env : Env) (b : Nat) (h₀ : Heap) : Prop :=
  ∀ r h s, lineReaderCreate env b h₀ = .ok (some r, h) →
    SearchRun env b (fun s => s.heap.revOf b < h₀.revOf b + 2 ^ 64) ⟨r, h⟩ s →
    RoundExact env b s.reader s.heap

/-- **Line reading loses nothing** exactly where the lines end with a line
feed, in a buffer that lets go of what was read. -/
theorem lines_exact (hr : Reachable env h₀) (ht : h₀.IsTrivial b) {s : Search}
    (hcreate : lineReaderCreate env b h₀ = .ok (some r, h))
    (hrun : SearchRun env b (fun s => s.heap.revOf b < h₀.revOf b + 2 ^ 64) ⟨r, h⟩ s)
    (hB : s.heap.buffers b = some B) :
    (RoundExact env b s.reader s.heap ↔ (LineFound (s.heap.content b) →
      EndsWithLf (s.heap.content b) ∧ B.strategy.rejectsSeek = false)) ∧
    (B.strategy.rejectsSeek = false → ∀ out s', LineRounds env b EndsWithLf s out s' →
      s.heap.content b = out ++ s'.heap.content b) := by
  obtain ⟨i, hlt⟩ := searchInv_of_run hr ht hcreate hrun
  obtain ⟨R, sound⟩ := i.sound
  have ht' := sound.isTrivial i.alive
  have hfits := sound.fits i.small
  have hresumes := i.reader.resumes hlt
  refine ⟨roundExact_iff sound ht' hfits hB hresumes, fun hσ out s' hrounds => ?_⟩
  have hkind : s.heap.kindOf b = some (B.strategy, .trivial) := by
    rw [Heap.kindOf, hB, Option.map_some, ht'.allocator hB]
  have y : Ready b B.strategy s := ⟨⟨R, sound⟩, hfits, hkind, hresumes⟩
  exact (y.rounds hσ hrounds).2

theorem lines_exact_holding :
    (RoundExact .generous 1 .atHolding (Heap.holding [97, 10]).granted ↔
      (LineFound ((Heap.holding [97, 10]).granted.content 1) →
        EndsWithLf ((Heap.holding [97, 10]).granted.content 1) ∧
          trivialBufferStrategy.rejectsSeek = false)) ∧
    (trivialBufferStrategy.rejectsSeek = false → ∀ out s', LineRounds .generous 1 EndsWithLf
      ⟨.atHolding, (Heap.holding [97, 10]).granted⟩ out s' →
      (Heap.holding [97, 10]).granted.content 1 = out ++ s'.heap.content 1) := by
  have hr : Reachable .generous (.holding [97, 10]) :=
    (reachable_twoBuffers _ _).after (isTrivial_twoBuffers _ _).1 rfl (by decide)
  exact (@lines_exact .generous _ _ 1 ⟨trivialBufferStrategy, .trivial, 1, 2⟩) hr ⟨_, rfl, rfl⟩
    rfl .refl rfl

/-- A reader that begins with a line that was cut is not exact. -/
theorem not_roundLaw (hr : Reachable env h₀) (ht : h₀.IsTrivial b)
    (hcreate : lineReaderCreate env b h₀ = .ok (some r, h))
    (hfound : LineFound (h₀.content b)) (hcut : ¬EndsWithLf (h₀.content b)) :
    ¬RoundLaw env b h₀ := by
  intro hlaw
  obtain ⟨B, hB, hop⟩ := ht
  have hk : h₀.kindOf b = some (B.strategy, .trivial) := by
    rw [Heap.kindOf, hB, Option.map_some, hop]
  obtain ⟨R, s₀⟩ := hr.sound
  obtain ⟨sound, hsmall, hkind, -, hcontent, hwaits⟩ := lineReaderCreate_spec s₀ hr.small hk hcreate
  obtain ⟨B', hB', -, hop'⟩ := exists_buffer_of_kind (hkind.trans hk)
  have hexact : RoundExact env b r h := hlaw r h ⟨r, h⟩ hcreate .refl
  have hlf := (roundExact_iff sound ⟨B', hB', hop'⟩ (sound.fits hsmall) hB'
    (Attends.resumes (.inr hwaits))).mp hexact
  rw [hcontent] at hlf
  exact hcut (hlf hfound).1

/-! ## A line that is too long -/

/-- All bytes on one page. -/
def Strategy.unpaged : Strategy := { trivialBufferStrategy with pageSize := 0 }

/-- The caller has one byte more than a line may have, none a line feed. -/
def Heap.roomy : Heap := Heap.initial (fun _ _ => 97) (fun _ => 16777217) (fun _ => [])

/-- They are the content of the buffer 1. -/
def Heap.longLine : Heap :=
  (Heap.roomy.withBuffer .unpaged).after .generous (.writeDataRef 1 ⟨.caller 0, 0⟩ 16777217)

theorem reachable_longLine : Reachable .generous .longLine := by
  have hroomy : Reachable .generous .roomy := ⟨_, _, _, .refl⟩
  exact (hroomy.withBuffer (fun _ => rfl) .unpaged).after
    ⟨⟨_, rfl, rfl⟩, 0, rfl, by decide⟩ rfl (by decide)

/-- The page of the bytes. -/
theorem pages_longLine : Heap.longLine.pagesOf 1 = [3] := rfl

theorem content_longLine : Heap.longLine.content 1 = List.replicate 16777217 97 := by
  have hbyte : ∀ i, Heap.longLine.byteAt (.caller 0) (0 + i) = 97 := fun _ => rfl
  rw [Heap.content, pages_longLine, Heap.flat_cons, Heap.flat_nil, List.append_nil]
  show Heap.longLine.bytes ⟨.caller 0, 0⟩ 16777217 = _
  unfold Heap.bytes
  refine List.eq_replicate_iff.mpr ⟨?_, fun c hc => ?_⟩
  · rw [List.length_map, List.length_range]
  · obtain ⟨i, -, rfl⟩ := List.mem_map.mp hc
    exact hbyte i

/-- A new reader of it. -/
def LineReader.atLongLine : LineReader :=
  ⟨1, ⟨3, 0, some ⟨.caller 0, 0⟩⟩, 1, 0, false, false, false, false⟩

theorem create_longLine : lineReaderCreate .generous 1 .longLine
    = .ok (some .atLongLine, Heap.longLine.granted) := rfl

/-- It has a line, which no line feed ends. -/
theorem cut_longLine : LineFound (Heap.longLine.content 1) ∧
    ¬EndsWithLf (Heap.longLine.content 1) := by
  rw [content_longLine]
  refine ⟨.inr ?_, fun hten => ?_⟩
  · rw [List.length_replicate]
    decide
  · have hmem := List.mem_of_getElem? hten
    rw [List.mem_replicate] at hmem
    exact absurd hmem.2 (by decide)

/-- **A line that is too long** loses a byte. -/
theorem lines_lost : ¬∀ env b h₀, Reachable env h₀ → h₀.IsTrivial b → RoundLaw env b h₀ := by
  intro hlaw
  have ht : Heap.longLine.IsTrivial 1 := ⟨_, rfl, rfl⟩
  exact not_roundLaw reachable_longLine ht create_longLine cut_longLine.1 cut_longLine.2
    (hlaw .generous 1 .longLine reachable_longLine ht)

end Pb
