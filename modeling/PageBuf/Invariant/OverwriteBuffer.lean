import PageBuf.Lib.Fragments
import PageBuf.Invariant.Overwrite
import Mathlib.Logic.Relation

/-!
# OverwriteBuffer — two cursors over two rings

`overwrite_buffer` walks the pages of the source and of the target at once,
with an offset in either. The length of a piece is the smaller of the two whole
page lengths, so a piece that starts behind the head of a page may not fit into
what is left of it. As long as the pieces fit, the loop does what
`overwrite_data` does with the bytes of the source.
-/

namespace Pb

open StateRun Function Ring Sequence Fragments Relation

variable {env : Env} {h h' : Heap} {R : Nat → List Nat} {F l l₁ l₂ ts ss : List Nat}
  {b src it k len x n : Nat} {P : Place} {s : OverwriteBufferLoop}

/-! ## Places in a ring -/

/-- The iterator `it` of the pages `l` of `b`, with an offset, stands at the byte
`k`; the lengths of the pages from `it` on are those of the place. -/
def Heap.StandsAt (h : Heap) (b : Nat) (l : List Nat) (it k : Nat) (P : Place) : Prop :=
  ∃ l₁ l₂, l = l₁ ++ l₂ ∧ it = l₂.headD b ∧ P.left = l₂.map h.lenOf ∧
    (h.flat l₁).length + P.offset = k ∧ P.Inside

theorem Heap.StandsAt.start (b : Nat) (hfull : h.Full l) :
    h.StandsAt b l (l.headD b) 0 ⟨0, l.map h.lenOf⟩ := by
  refine ⟨[], l, rfl, rfl, rfl, rfl, ?_⟩
  cases l with
  | nil => rfl
  | cons p l => exact hfull p List.mem_cons_self

theorem Heap.StandsAt.atEnd_iff (hl : Links h R F) (hb : (h.buffers b).isSome)
    (st : h.StandsAt b (R b) it k P) : it = b ↔ P.left = [] := by
  obtain ⟨l₁, l₂, hR, rfl, hleft, -, -⟩ := st
  rw [hl.headD_eq_iff hb hR, hleft, List.map_eq_nil_iff]

/-- Behind the last page everything has been passed. -/
theorem Heap.StandsAt.eq_length (st : h.StandsAt b l it k P) (hnil : P.left = []) :
    k = (h.flat l).length := by
  obtain ⟨l₁, l₂, rfl, -, hleft, hk, hin⟩ := st
  rw [hnil, eq_comm, List.map_eq_nil_iff] at hleft
  obtain ⟨off, ts⟩ := P
  cases hnil
  have hoff : off = 0 := hin
  rw [hleft, List.append_nil, ← hk, hoff, Nat.add_zero]

/-- The page the iterator stands on. -/
theorem Heap.StandsAt.page (st : h.StandsAt b l it k P) (hleft : P.left ≠ []) :
    ∃ l₁ l₂, l = l₁ ++ it :: l₂ ∧ P.left = h.lenOf it :: l₂.map h.lenOf ∧
      (h.flat l₁).length + P.offset = k ∧ P.offset < h.lenOf it := by
  obtain ⟨off, ts⟩ := P
  obtain ⟨l₁, l₂, hl, hit, hts, hk, hin⟩ := st
  cases l₂ with
  | nil => exact absurd hts hleft
  | cons p l₂ =>
      have hp : it = p := hit
      have hcons : ts = h.lenOf p :: l₂.map h.lenOf := hts
      subst hp hcons
      exact ⟨l₁, l₂, hl, rfl, hk, hin⟩

theorem Heap.StandsAt.le_length (st : h.StandsAt b l it k P) : k ≤ (h.flat l).length := by
  by_cases hleft : P.left = []
  · exact Nat.le_of_eq (st.eq_length hleft)
  · obtain ⟨l₁, l₂, rfl, -, hk, hlt⟩ := st.page hleft
    rw [Heap.flat_append, Heap.flat_cons, List.length_append, List.length_append,
      Heap.length_pageBytes]
    omega

/-- The step of an iterator that has come to the end of its page. -/
theorem stepWhenFull_run (ht : h.IsTrivial b) (hl : Links h R F) (hR : R b = l₁ ++ x :: l₂)
    (off : Nat) : stepWhenFull env b x off h
      = .ok (if off = h.lenOf x then (l₂.headD b, 0) else (x, off), h) := by
  have hlive := hl.node_live ht.isSome (List.mem_cons_of_mem b (show x ∈ R b by simp [hR]))
  refine (bind_run (pageGetLen_run hlive)).trans ?_
  by_cases hend : off = h.lenOf x
  · rw [if_pos hend, if_pos hend]
    exact (bind_run (bufferNextIterator_run ht hl hR)).trans rfl
  · rw [if_neg hend, if_neg hend]
    rfl

/-! ## The loop -/

/-- The copy of the next round stays inside its source page and inside its
target page. -/
def CopyInside (b src : Nat) (s : OverwriteBufferLoop) (h : Heap) : Prop :=
  s.len ≠ 0 → s.it ≠ b → s.srcIt ≠ src →
    s.offset + overwriteLen (h.lenOf s.it) (h.lenOf s.srcIt) s.len ≤ h.lenOf s.it ∧
      s.srcOffset + overwriteLen (h.lenOf s.it) (h.lenOf s.srcIt) s.len ≤ h.lenOf s.srcIt

/-- The loop of `overwrite_buffer` after `s.written` bytes, at the places `P` of
the target and `Q` of the source. -/
structure OverwriteBufferInv (b src len : Nat) (h h' : Heap) (R : Nat → List Nat)
    (s : OverwriteBufferLoop) (P Q : Place) : Prop where
  sum : s.written + s.len = len
  target : h.StandsAt b (R b) s.it s.written P
  source : h.StandsAt src (R src) s.srcIt s.written Q
  offset : P.offset = s.offset
  srcOffset : Q.offset = s.srcOffset
  core : Core h' R [] []
  fits : h'.Fits
  frame : Frame b h h' R R
  len : ∀ p ∈ R b, h'.lenOf p = h.lenOf p
  content : h'.flat (R b)
    = (h.flat (R src)).take s.written ++ (h.flat (R b)).drop s.written
  buffers : h'.buffers = h.buffers

theorem overwriteLen_eq (pageLen srcLen len : Nat) :
    overwriteLen pageLen srcLen len = piece pageLen srcLen len := by
  unfold overwriteLen piece
  grind

/-- The loop state after a piece of `n` bytes. -/
def OverwriteBufferLoop.next (s : OverwriteBufferLoop) (n : Nat) (place srcPlace : Nat × Nat) :
    OverwriteBufferLoop :=
  ⟨place.1, srcPlace.1, s.len - n, s.written + n, place.2, srcPlace.2⟩

/-- Where an iterator and its offset stand `n` bytes on; `l₂` are the pages
behind that of the iterator. -/
def Heap.placeAfter (h : Heap) (b it off n : Nat) (l₂ : List Nat) : Nat × Nat :=
  if off + n = h.lenOf it then (l₂.headD b, 0) else (it, off + n)

/-- `n` bytes on, inside the page or to the next one. -/
theorem Heap.StandsAt.move {off : Nat} (hfull : h.Full l) (hl : l = l₁ ++ it :: l₂)
    (hk : (h.flat l₁).length + off = k) (hfit : off + n ≤ h.lenOf it) :
    h.StandsAt b l (h.placeAfter b it off n l₂).1 (k + n)
        (Place.move n ⟨off, h.lenOf it :: l₂.map h.lenOf⟩) ∧
      (Place.move n ⟨off, h.lenOf it :: l₂.map h.lenOf⟩).offset
        = (h.placeAfter b it off n l₂).2 := by
  have hin : (Place.move n ⟨off, h.lenOf it :: l₂.map h.lenOf⟩).Inside := by
    refine Place.Inside.move hfit (fun u hu => ?_)
    obtain ⟨p, hp, rfl⟩ := List.mem_map.mp hu
    exact hfull p (by simp [hl, hp])
  unfold Heap.placeAfter
  rw [Place.move_cons] at hin ⊢
  by_cases hend : off + n = h.lenOf it
  · rw [if_pos hend] at hin ⊢
    rw [if_pos hend]
    refine ⟨⟨l₁ ++ [it], l₂, by simp [hl], rfl, rfl, ?_, hin⟩, rfl⟩
    rw [Heap.flat_append, Heap.flat_cons, Heap.flat_nil, List.append_nil, List.length_append,
      Heap.length_pageBytes]
    dsimp only
    omega
  · rw [if_neg hend] at hin ⊢
    rw [if_neg hend]
    exact ⟨⟨l₁, it :: l₂, hl, rfl, rfl, by dsimp only; omega, hin⟩, rfl⟩

section Piece

variable {h'' : Heap} {m₁ m₂ : List Nat}
  (hfull : h.Full (R b)) (hsfull : h.Full (R src)) (hR : R b = l₁ ++ s.it :: l₂)
  (hS : R src = m₁ ++ s.srcIt :: m₂) (hk : (h.flat l₁).length + s.offset = s.written)
  (hsk : (h.flat m₁).length + s.srcOffset = s.written) (hfit : s.offset + n ≤ h.lenOf s.it)
  (hsfit : s.srcOffset + n ≤ h.lenOf s.srcIt)

include hS hsk hsfit

/-- The bytes a round reads are the next ones of the source. -/
theorem source_stretch : ((h.pageBytes s.srcIt).drop s.srcOffset).take n
    = ((h.flat (R src)).drop s.written).take n := by
  rw [hS, Heap.flat_append, Heap.flat_cons, ← hsk]
  exact (stretch_append (by rwa [Heap.length_pageBytes]) _ _).symm

theorem length_source_stretch : (((h.flat (R src)).drop s.written).take n).length = n := by
  rw [List.length_take, List.length_drop, hS, Heap.flat_append, Heap.flat_cons,
    List.length_append, List.length_append, Heap.length_pageBytes]
  omega

include hfull hsfull hR hk hfit

/-- **A piece that fits**, written to the page of the target and to nothing
else, takes the loop on. -/
theorem OverwriteBufferInv.advance (t : OverwriteBufferInv b src len h h' R s P Q)
    (hb : (h.buffers b).isSome) (hn : n ≤ s.len) (hc : Core h'' R [] []) (hf : h''.Fits)
    (q : Quiet (fun p => p ≠ s.it) h' h'') (hlen : h''.lenOf s.it = h'.lenOf s.it)
    (hbytes : h''.pageBytes s.it = overwrite (h'.pageBytes s.it) s.offset
      (((h.flat (R src)).drop s.written).take n)) :
    OverwriteBufferInv b src len h h'' R
      (s.next n (h.placeAfter b s.it s.offset n l₂) (h.placeAfter src s.srcIt s.srcOffset n m₂))
      (Place.move n ⟨s.offset, h.lenOf s.it :: l₂.map h.lenOf⟩)
      (Place.move n ⟨s.srcOffset, h.lenOf s.srcIt :: m₂.map h.lenOf⟩) := by
  have hx : s.it ∈ R b := by simp [hR]
  have hsum := t.sum
  obtain ⟨hmove, hoff⟩ := Heap.StandsAt.move (b := b) hfull hR hk hfit
  obtain ⟨hsmove, hsoff⟩ := Heap.StandsAt.move (b := src) hsfull hS hsk hsfit
  have hsrc : ((h.flat (R src)).take s.written).length = s.written := by
    rw [List.length_take]
    have := t.source.le_length
    omega
  have hpiece := length_source_stretch hS hsk hsfit
  have hpage : s.offset + n ≤ (h'.pageBytes s.it).length := by
    rw [Heap.length_pageBytes, t.len _ hx]
    exact hfit
  have hbefore : (h'.flat l₁).length = (h.flat l₁).length := by
    rw [Heap.length_flat, Heap.length_flat]
    exact congrArg List.sum (List.map_congr_left (fun p hp => t.len p (by simp [hR, hp])))
  have hbuf' : (h'.buffers b).isSome := by rwa [t.buffers]
  refine
    { sum := ?_, target := hmove, source := hsmove, offset := hoff, srcOffset := hsoff
      core := hc, fits := hf, frame := t.frame.trans (q.frame_of_mem t.core.links hx), len := ?_
      content := ?_, buffers := q.buffers.trans t.buffers }
  · dsimp only [OverwriteBufferLoop.next]
    omega
  · intro p hp
    rw [← t.len p hp]
    by_cases hpx : p = s.it
    · rw [hpx, hlen]
    · exact (q.same hpx).len
  · have hcontent := t.content
    rw [hR, Heap.flat_append, Heap.flat_cons, ← List.append_assoc, ← hR] at hcontent
    rw [flat_of_quiet t.core.links hbuf' q hR hbytes, overwrite_append (by rwa [hpiece]), hcontent,
      hbefore, hk]
    exact overwrite_next _ hsrc n hpiece

end Piece

/-- Where both iterators stand on a page, the copy of the round stays inside
exactly if its length fits into what is left of both pages. -/
theorem OverwriteBufferInv.copyInside_iff (t : OverwriteBufferInv b src len h h' R s P Q)
    (hi : Core h R [] []) (hb : (h.buffers b).isSome) (hs : (h.buffers src).isSome)
    (hne : src ≠ b) : CopyInside b src s h' ↔ PieceFits s.len P Q := by
  have hend := t.target.atEnd_iff hi.links hb
  have hsend := t.source.atEnd_iff hi.links hs
  have hoff := t.offset
  have hsoff := t.srcOffset
  by_cases hnil : P.left = [] ∨ Q.left = []
  · constructor
    · intro _
      exact pieceFits_of_nil hnil
    · intro _ _ hx hy
      rcases hnil with hnil | hnil
      · exact absurd (hend.mpr hnil) hx
      · exact absurd (hsend.mpr hnil) hy
  · rw [not_or] at hnil
    have hx : s.it ≠ b := fun he => hnil.1 (hend.mp he)
    have hy : s.srcIt ≠ src := fun he => hnil.2 (hsend.mp he)
    obtain ⟨l₁, l₂, hR, hts, -, -⟩ := t.target.page hnil.1
    obtain ⟨m₁, m₂, hS, hss, -, -⟩ := t.source.page hnil.2
    have hlen := t.len s.it (by simp [hR])
    have hslen := (t.frame.same hne (show s.srcIt ∈ R src by simp [hS])).len
    obtain ⟨off, ts⟩ := P
    obtain ⟨off', ss⟩ := Q
    cases hts
    cases hss
    cases hoff
    cases hsoff
    rw [CopyInside, hlen, hslen, overwriteLen_eq]
    simp only [hx, hy, PieceFits, ne_eq, not_false_eq_true, forall_const]

/-! ## Nested fragmentations -/

/-- The loop ends: all bytes are written, or one of the iterators is at the end. -/
def OverwriteBufferLoop.Over (s : OverwriteBufferLoop) (P Q : Place) : Prop :=
  s.len = 0 ∨ P.left = [] ∨ Q.left = []

theorem OverwriteBufferInv.over_run (t : OverwriteBufferInv b src len h h' R s P Q)
    (hi : Core h R [] []) (hb : (h.buffers b).isSome) (hs : (h.buffers src).isSome)
    (hover : s.Over P Q) : overwriteBufferRound env b src s h' = .ok (.inr s.written, h') := by
  have hend := t.target.atEnd_iff hi.links hb
  have hsend := t.source.atEnd_iff hi.links hs
  unfold overwriteBufferRound bufferIsEndIterator trivialBufferIsEndIterator
  rw [if_pos (by simpa [hend, hsend, OverwriteBufferLoop.Over, or_assoc] using hover)]
  rfl

/-- Until then the iterators stand on pages. -/
theorem OverwriteBufferInv.going (t : OverwriteBufferInv b src len h h' R s P Q)
    (hgo : ¬s.Over P Q) : s.len ≠ 0 ∧ ∃ off u us off' v vs, P = ⟨off, u :: us⟩ ∧
      Q = ⟨off', v :: vs⟩ := by
  obtain ⟨off, ts⟩ := P
  obtain ⟨off', ss⟩ := Q
  simp only [OverwriteBufferLoop.Over, not_or] at hgo
  obtain ⟨hlen, hx, hy⟩ := hgo
  obtain ⟨u, us, rfl⟩ := List.exists_cons_of_ne_nil hx
  obtain ⟨v, vs, rfl⟩ := List.exists_cons_of_ne_nil hy
  exact ⟨hlen, off, u, us, off', v, vs, rfl, rfl⟩

/-- One piece of the two fragmentations. -/
theorem OverwriteBufferInv.nested_iff {off off' u v : Nat} {us vs : List Nat}
    (t : OverwriteBufferInv b src len h h' R s ⟨off, u :: us⟩ ⟨off', v :: vs⟩)
    (hlen : s.len ≠ 0) (hal : off = 0 ∨ off' = 0) :
    NestedFrom len s.written ⟨off, u :: us⟩ ⟨off', v :: vs⟩ ↔
      PieceFits s.len ⟨off, u :: us⟩ ⟨off', v :: vs⟩ ∧
        NestedFrom len (s.written + piece u v s.len)
          (Place.move (piece u v s.len) ⟨off, u :: us⟩)
          (Place.move (piece u v s.len) ⟨off', v :: vs⟩) := by
  obtain ⟨l₁, l₂, -, hus, hk, hlt⟩ := t.target.page (List.cons_ne_nil u us)
  obtain ⟨m₁, m₂, -, hvs, hsk, hslt⟩ := t.source.page (List.cons_ne_nil v vs)
  dsimp only at hus hk hlt hvs hsk hslt
  cases hus
  cases hvs
  rw [← t.sum]
  exact nestedFrom_step hal hlt hslt (by omega) (by omega) hlen

/-- One round of the loop, on its variables and the heap. -/
def OverwriteBufferStep (env : Env) (b src : Nat) (x y : OverwriteBufferLoop × Heap) : Prop :=
  overwriteBufferRound env b src x.1 x.2 = .ok (.inl y.1, y.2)

/-- The loop has come so far, over fragmentations that are nested from there on. -/
def OverwriteBufferNested (b src len : Nat) (h : Heap) (R : Nat → List Nat)
    (x : OverwriteBufferLoop × Heap) : Prop :=
  ∃ P Q, OverwriteBufferInv b src len h x.2 R x.1 P Q ∧
    (x.1.len = 0 ∨ P.offset = 0 ∨ Q.offset = 0) ∧ NestedFrom len x.1.written P Q

section Loop

variable (hi : Core h R [] []) (ht : h.IsTrivial b) (hts : h.IsTrivial src) (hne : src ≠ b)
  (hfull : h.Full (R b)) (hsfull : h.Full (R src)) (hno : ¬Refused env)

include hi ht hts hne hfull hsfull hno

/-- **One round** copies one piece, if it fits. -/
theorem overwriteBufferRound_spec {off off' u v : Nat} {us vs : List Nat}
    (t : OverwriteBufferInv b src len h h' R s ⟨off, u :: us⟩ ⟨off', v :: vs⟩)
    (hlen : s.len ≠ 0) (hfits : PieceFits s.len ⟨off, u :: us⟩ ⟨off', v :: vs⟩) :
    Yields (overwriteBufferRound env b src s) h' (fun r h'' => ∃ s', r = .inl s' ∧
      s'.len = s.len - piece u v s.len ∧ s'.len < s.len ∧
      OverwriteBufferInv b src len h h'' R s' (Place.move (piece u v s.len) ⟨off, u :: us⟩)
        (Place.move (piece u v s.len) ⟨off', v :: vs⟩)) := by
  -- the two pages
  obtain ⟨l₁, l₂, hR, hus, hk, hlt⟩ := t.target.page (List.cons_ne_nil u us)
  obtain ⟨m₁, m₂, hS, hvs, hsk, hslt⟩ := t.source.page (List.cons_ne_nil v vs)
  have hoff := t.offset
  have hsoff := t.srcOffset
  dsimp only at hus hk hlt hvs hsk hslt hoff hsoff
  cases hus
  cases hvs
  subst hoff hsoff
  obtain ⟨hfit, hsfit⟩ := hfits hlen
  have hx : s.it ∈ R b := by simp [hR]
  have hy : s.srcIt ∈ R src := by simp [hS]
  have hxy : s.srcIt ≠ s.it := fun he => hne (hi.links.disj (he ▸ hy) hx)
  have hb := ht.isSome
  have hxb : s.it ≠ b := fun he => hi.links.notMem_self hb (he ▸ hx)
  have hyb : s.srcIt ≠ src := fun he => hi.links.notMem_self hts.isSome (he ▸ hy)
  have ht' := ht.congr t.frame.kind
  obtain ⟨B', hB', hop'⟩ := ht'
  unfold overwriteBufferRound bufferIsEndIterator trivialBufferIsEndIterator
  rw [if_neg (by simp [hlen, hxb, hyb])]
  refine Yields.bind (ensureWritable_spec t.core t.fits hB' hop' hx) ?_
  intro r h₁ hw
  have hr : r = true := by
    cases r with
    | true => rfl
    | false => exact absurd (hw.failed rfl).1 hno
  subst hr
  obtain ⟨n, lo⟩ := hw.lone rfl
  rw [if_pos rfl]
  have f₁ := hw.quiet.frame_of_mem t.core.links hx
  have ht₁ := ht.congr (f₁.kind.trans t.frame.kind)
  have hts₁ := hts.congr (f₁.kind.trans t.frame.kind)
  have hlive := hw.core.links.node_live ht₁.isSome (List.mem_cons_of_mem b hx)
  have hslive := hw.core.links.node_live hts₁.isSome (List.mem_cons_of_mem src hy)
  -- neither length has changed, nor have the bytes of the source page
  have hlen₁ : h₁.lenOf s.it = h.lenOf s.it := hw.len.trans (t.len _ hx)
  have hsame : Same h h₁ s.srcIt := (t.frame.same hne hy).trans (hw.quiet.same hxy)
  refine Yields.step (pageGetLen_run hlive) (Yields.step (pageGetLen_run hslive) ?_)
  rw [hlen₁, hsame.len, overwriteLen_eq]
  generalize hm : piece (h.lenOf s.it) (h.lenOf s.srcIt) s.len = m at hfit hsfit ⊢
  have hpos : 0 < m ∧ m ≤ s.len := by
    unfold piece at hm
    omega
  dsimp only
  rw [if_neg (by omega)]
  refine Yields.step (pageGetBase_run hslive) (Yields.step (memRead_run _ _) ?_)
  have hread : h₁.bytes ((h₁.vecOf s.srcIt).base.add s.srcOffset) m
      = ((h.flat (R src)).drop s.written).take m := by
    rw [Heap.bytes_add_offset (by rwa [hsame.len]), hsame.bytes]
    exact source_stretch hS hsk hsfit
  rw [hread]
  have hpiece := length_source_stretch hS hsk hsfit
  generalize hbs : ((h.flat (R src)).drop s.written).take m = piece at hpiece ⊢
  generalize (h₁.overread || !h₁.inBounds ((h₁.vecOf s.srcIt).base.add s.srcOffset) m) = flag
  have i₂ : Idle h₁ { h₁ with overread := flag } := { Idle.refl h₁ with }
  have q₂ := Core.idle_quiet i₂ rfl rfl (fun p => p ≠ s.it)
  have lo₂ : Lone { h₁ with overread := flag } s.it n := ⟨lo.region, lo.inBounds, lo.alone⟩
  have hstore : s.offset + piece.length ≤ Heap.lenOf { h₁ with overread := flag } s.it := by
    rw [hpiece]
    exact hfit.trans (Nat.le_of_eq hlen₁.symm)
  obtain ⟨i₃, q₃, hbytes⟩ := lo₂.storeAt hstore
  refine Yields.step (pageGetBase_run (h := { h₁ with overread := flag }) hlive) ?_
  refine Yields.step (memWrite_run (lo₂.inBoundsAt hstore)) ?_
  generalize Heap.store { h₁ with overread := flag }
    ((Heap.vecOf { h₁ with overread := flag } s.it).base.add s.offset) piece = h₃ at *
  have hc₃ := (hw.core.idle i₂).idle i₃
  have q := hw.quiet.trans (q₂.trans q₃)
  have f := q.frame_of_mem t.core.links hx
  have ht₃ := ht.congr (f.kind.trans t.frame.kind)
  have hts₃ := hts.congr (f.kind.trans t.frame.kind)
  have hlen₃ : h₃.lenOf s.it = h₁.lenOf s.it := congrFun (Heap.lenOf_congr i₃.pages) s.it
  refine Yields.step (stepWhenFull_run ht₃ hc₃.links hR _) ?_
  refine Yields.step (stepWhenFull_run hts₃ hc₃.links hS _) ?_
  rw [hlen₃, hlen₁, ((t.frame.same hne hy).trans (q.same hxy)).len]
  refine yields_pure.mpr ⟨_, rfl, rfl, by dsimp only; omega, ?_⟩
  refine t.advance hfull hsfull hR hS hk hsk hfit hsfit hb hpos.2 hc₃ ?_ q ?_ ?_
  · exact (hw.fits.idle hw.core i₂).idle (hw.core.idle i₂) i₃
  · rw [hlen₃, hw.len]
  · rw [hbytes, hbs]
    exact congrArg (overwrite · s.offset piece) hw.bytes

/-- **A round** in a state that comes from nested fragmentations copies inside
both pages and leads to such a state again. -/
theorem nested_round (t : OverwriteBufferInv b src len h h' R s P Q) (hgo : ¬s.Over P Q)
    (hal : P.offset = 0 ∨ Q.offset = 0) (hn : NestedFrom len s.written P Q) :
    Yields (overwriteBufferRound env b src s) h' (fun r h'' => ∃ s' P' Q', r = .inl s' ∧
      s'.len < s.len ∧ OverwriteBufferInv b src len h h'' R s' P' Q' ∧
      (s'.len = 0 ∨ P'.offset = 0 ∨ Q'.offset = 0) ∧ NestedFrom len s'.written P' Q') := by
  obtain ⟨hlen, off, u, us, off', v, vs, rfl, rfl⟩ := t.going hgo
  obtain ⟨hfits, hnext⟩ := (t.nested_iff hlen hal).mp hn
  refine (overwriteBufferRound_spec hi ht hts hne hfull hsfull hno t hlen hfits).mono ?_
  rintro r h'' ⟨s', rfl, hlen', hlt, t'⟩
  have hsum := t.sum
  have hsum' := t'.sum
  have hple : piece u v s.len ≤ s.len := by
    unfold piece
    omega
  refine ⟨s', _, _, rfl, hlt, t', ?_, ?_⟩
  · rw [hlen']
    exact offset_move hfits hlen
  · rwa [show s'.written = s.written + piece u v s.len by omega]

/-- **The copies of a loop** over nested fragmentations stay inside their pages. -/
theorem copies_of_nested {x y : OverwriteBufferLoop × Heap}
    (hreach : ReflTransGen (OverwriteBufferStep env b src) x y)
    (hx : OverwriteBufferNested b src len h R x) : CopyInside b src y.1 y.2 := by
  have hstep : ∀ {u v}, OverwriteBufferNested b src len h R u →
      OverwriteBufferStep env b src u v → OverwriteBufferNested b src len h R v := by
    intro u v hu hrun
    obtain ⟨P, Q, t, hal, hn⟩ := hu
    by_cases hover : u.1.Over P Q
    · have hend := (t.over_run hi ht.isSome hts.isSome hover).symm.trans hrun
      cases hend
    · have hround := nested_round hi ht hts hne hfull hsfull hno t hover
        (hal.resolve_left (fun hz => hover (.inl hz))) hn
      obtain ⟨s', P', Q', he, -, t', hal', hn'⟩ := hround.of_run hrun
      cases he
      exact ⟨P', Q', t', hal', hn'⟩
  have hy : OverwriteBufferNested b src len h R y := by
    induction hreach with
    | refl => exact hx
    | tail _ hrun ih => exact hstep ih hrun
  obtain ⟨P, Q, t, hal, hn⟩ := hy
  by_cases hover : y.1.Over P Q
  · rcases hover with hz | hnil
    · exact fun hne => absurd hz hne
    · exact (t.copyInside_iff hi ht.isSome hts.isSome hne).mpr (pieceFits_of_nil hnil)
  · have hal' := hal.resolve_left (fun hz => hover (.inl hz))
    have hiff := t.copyInside_iff hi ht.isSome hts.isSome hne
    obtain ⟨hlen, off, u, us, off', v, vs, rfl, rfl⟩ := t.going hover
    exact hiff.mpr ((t.nested_iff hlen hal').mp hn).1

/-- **Conversely**, where no copy of the loop leaves a page, the fragmentations
are nested. -/
theorem nested_of_copies (t : OverwriteBufferInv b src len h h' R s P Q)
    (hal : s.len = 0 ∨ P.offset = 0 ∨ Q.offset = 0)
    (hcopies : ∀ y, ReflTransGen (OverwriteBufferStep env b src) (s, h') y →
      CopyInside b src y.1 y.2) : NestedFrom len s.written P Q := by
  induction hk : s.len using Nat.strong_induction_on generalizing s h' P Q with
  | _ k ih =>
      by_cases hover : s.Over P Q
      · rcases hover with hz | hnil
        · have hsum := t.sum
          obtain ⟨l₁, l₂, -, -, -, hP, hin⟩ := t.target
          obtain ⟨m₁, m₂, -, -, -, hQ, hin'⟩ := t.source
          rw [show len = s.written by omega]
          exact nestedFrom_zero hin hin' (by omega) (by omega)
        · exact NestedFrom.of_nil hnil
      · have hal' := hal.resolve_left (fun hz => hover (.inl hz))
        have hhere := (t.copyInside_iff hi ht.isSome hts.isSome hne).mp (hcopies _ .refl)
        obtain ⟨hlen, off, u, us, off', v, vs, rfl, rfl⟩ := t.going hover
        obtain ⟨_, h'', hrun, s', rfl, hlen', hlt, t'⟩ :=
          overwriteBufferRound_spec hi ht hts hne hfull hsfull hno t hlen hhere
        have hstep : OverwriteBufferStep env b src (s, h') (s', h'') := hrun
        have hsum := t.sum
        have hsum' := t'.sum
        have hple : piece u v s.len ≤ s.len := by
          unfold piece
          omega
        refine (t.nested_iff hlen hal').mpr ⟨hhere, ?_⟩
        rw [← show s'.written = s.written + piece u v s.len by omega]
        refine ih s'.len (by omega) t' ?_ (fun y hy => hcopies y (.head hstep hy)) rfl
        rw [hlen']
        exact offset_move hhere hlen

/-- **The loop** over nested fragmentations comes to its end. -/
theorem nested_loop (hx : OverwriteBufferNested b src len h R (s, h')) {fuel : Nat}
    (hfuel : s.len < fuel) :
    Yields (loopM .diverges (overwriteBufferRound env b src) fuel s) h' (fun n h'' =>
      ∃ s' P Q, n = s'.written ∧ OverwriteBufferInv b src len h h'' R s' P Q ∧ s'.Over P Q) := by
  refine Yields.loop
    (I := fun n s h' => n = s.len ∧ OverwriteBufferNested b src len h R (s, h'))
    ?_ fuel s.len s h' ⟨rfl, hx⟩ hfuel
  rintro n s h' ⟨rfl, P, Q, t, hal, hn⟩
  by_cases hover : s.Over P Q
  · exact Yields.intro (t.over_run hi ht.isSome hts.isSome hover) ⟨s, P, Q, rfl, t, hover⟩
  · refine (nested_round hi ht hts hne hfull hsfull hno t hover
      (hal.resolve_left (fun hz => hover (.inl hz))) hn).mono ?_
    rintro r h'' ⟨s', P', Q', rfl, hlt, t', hal', hn'⟩
    exact ⟨s'.len, hlt, rfl, P', Q', t', hal', hn'⟩

end Loop

/-- What the loop has done once it is over. -/
theorem OverwriteBufferInv.finish {B : Buffer} (hi : Inv h R) (hB : h.buffers b = some B)
    (t : OverwriteBufferInv b src len h h' R s P Q) :
    Yields (do
      bumpIfPositive b s.written
      pure s.written) h' (fun n h'' => n = s.written ∧
        Became b h h'' R R (if n = 0 then 0 else 1)
          ((h.flat (R src)).take n ++ (h.flat (R b)).drop n)) := by
  have hbuf : (h'.buffers b).isSome := by
    rw [t.buffers, hB]
    rfl
  have hbecame : Became b h h' R R 0
      ((h.flat (R src)).take s.written ++ (h.flat (R b)).drop s.written) := by
    refine ⟨t.core, fun c C hC => ?_, t.frame, t.content, fun hfl p hp => ?_, fun _ => t.fits, ?_⟩
    · rw [t.buffers] at hC
      rw [hi.totals c C hC]
      refine congrArg List.sum (List.map_congr_left (fun p hp => ?_))
      rcases eq_or_ne c b with rfl | hcb
      · exact (t.len p hp).symm
      · exact (t.frame.same hcb hp).len.symm
    · rw [t.len p hp]
      exact hfl p hp
    · rw [Heap.revOf, Heap.revOf, t.buffers]
      rfl
  refine Yields.bind (bumpIfPositive_spec hbecame hbuf s.written) ?_
  intro _ h'' hbump
  exact yields_pure.mpr ⟨rfl, hbump.2⟩

end Pb
