import PageBuf.Invariant.PageCalls

/-!
# EmptyPages — which insertions leave a page without bytes

An insertion splits the page it names at the offset it names. The offset is
clamped to the length of the page, and a split at the very end leaves a page
without bytes behind. Nothing else does: where insertions name a byte of their
page, every linked page has bytes.
-/

namespace Pb

open StateRun Function Ring

variable {env : Env} {h h' : Heap} {R : Nat → List Nat} {b : Nat} {c c' : Layout}

namespace Heap

/-- No linked page is without bytes. -/
def NoEmptyPages (h : Heap) : Prop :=
  ∀ b p, (h.buffers b).isSome → p ∈ h.pagesOf b → 0 < h.lenOf p

/-- An insertion at the end of a buffer or before a byte of a page. -/
def IsInside (h : Heap) (b it off : Nat) : Prop := it = b ∨ off < h.lenOf it

end Heap

/-- An insertion that goes ahead names the end iterator or a byte of the page
it names. -/
def InsertsInside (h : Heap) : Action → Prop
  | .op (.insertData b it off buf) => h.IsInside b it off ∨ buf = [] ∨ h.RejectsInsert b
  | .op (.insertDataRef b it off _ len) => h.IsInside b it off ∨ len = 0 ∨ h.RejectsInsert b
  | .op (.insertBuffer b it off src len) =>
      h.IsInside b it off ∨ len = 0 ∨ h.pagesOf src = [] ∨ h.RejectsInsert b
  | _ => True

/-! ## Steps -/

/-- No page is without bytes. -/
def Layout.Filled (c : Layout) : Prop := ∀ p, c.Holds p → 0 < c.heap.lenOf p

/-- Pages may be shared freely and split before their end. -/
def splitInside : Allowance where
  share := fun _ _ _ _ => True
  split := fun len off _ => off < len

/-- **The step lemma.** -/
theorem Layout.Filled.step (hc : c.Filled) (ft : Footing c.heap c.rings c.flight)
    (s : PageStep splitInside c c') : c'.Filled := by
  intro q hq
  rcases (s.held ft hq).len with hpos | ⟨hold, hsame⟩ | ⟨off, k, hlt, hle⟩
  · exact hpos
  · rw [hsame]
    exact hc q hold
  · have hlt' : off < c.heap.lenOf q := hlt
    omega

/-! ## Runs -/

theorem maySplit_inside {it off : Nat} {shared : Option Nat} (ft : Footing h R [])
    (hb : (h.buffers b).isSome) (hin : h.IsInside b it off) :
    MaySplit splitInside h it off shared := by
  intro hpos d _
  show min off (h.lenOf it) < h.lenOf it
  rcases hin with rfl | hlt
  · rw [(ft.sentinel hb).2] at hpos
    omega
  · omega

/-- What an insertion into `b` that goes ahead is known not to be. -/
theorem IsInside.of_accepted {it off : Nat} {P : Prop}
    (hin : h.IsInside b it off ∨ P ∨ h.RejectsInsert b) (hP : ¬P)
    (hacc : it ≠ b → ¬h.RejectsInsert b) : h.IsInside b it off := by
  by_cases he : it = b
  · exact .inl he
  · rcases hin with hin | hp | hrej
    · exact hin
    · exact absurd hp hP
    · exact absurd hrej (hacc he)

/-- The rounds of a transfer whose insertion is inside. -/
theorem transferAllowed_inside {it off src len : Nat} (ft : Footing h R [])
    (hc : Layout.Filled ⟨h, R, []⟩) (hb : (h.buffers b).isSome) (hsrc : (h.buffers src).isSome)
    (hin : len ≠ 0 → h.pagesOf src ≠ [] → h.IsInside b it off) :
    TransferAllowed env splitInside h R b it off src len := by
  intro B Start s g R' hB _ t _ hl hs
  obtain ⟨hc', ft'⟩ : Layout.Filled ⟨g, R', []⟩ ∧ Footing g R' [] :=
    t.steps.invariant ft hc fun _ _ ft hc s => hc.step ft s
  refine ⟨hc' s.srcIt (.inl ⟨src, hs⟩), fun _ _ _ => trivial, ?_⟩
  rcases t.first with h0 | ⟨rfl, rfl, rfl⟩
  · rw [h0]
    exact maySplit_zero _
  · refine maySplit_inside ft' hb (hin hl ?_)
    intro hnil
    rw [ft'.links.pagesOf hsrc] at hnil
    rw [hnil] at hs
    cases hs

theorem filled_run : RunInvariant env splitInside InsertsInside Layout.Filled where
  initial := fun mem callerLen files p hp => by
    rcases hp with ⟨c, hc⟩ | hF
    · cases hc
    · cases hF
  step := fun c c' ft hc s => hc.step ft s
  view := fun h h' R _ v hc p hp => by
    show 0 < h'.lenOf p
    rw [v.len]
    exact hc p hp
  allowed := fun h R a ft hc hn hM => by
    cases a with
    | overwriteBuffer b src len => trivial
    | op o =>
        cases o with
        | insertData b it off buf =>
            intro hne hacc
            exact maySplit_inside ft hn.1.isSome (IsInside.of_accepted hM hne hacc)
        | insertDataRef b it off buf len =>
            intro hne hacc
            exact maySplit_inside ft hn.1.isSome (IsInside.of_accepted hM hne hacc)
        | insertBuffer b it off src len =>
            obtain ⟨ht, -, hsrc, -⟩ := hn
            intro hacc
            refine transferAllowed_inside ft hc ht.isSome hsrc.isSome fun hl hp => ?_
            refine IsInside.of_accepted (P := len = 0 ∨ h.pagesOf src = []) ?_ (by simp [hl, hp]) hacc
            rw [or_assoc]
            exact hM
        | writeBuffer b src len =>
            obtain ⟨ht, hsrc, -⟩ := hn
            intro _
            exact transferAllowed_inside ft hc ht.isSome hsrc.isSome fun _ _ => .inl rfl
        | _ => trivial

/-- **Where insertions that go ahead name the end iterator or a byte of a
page**, no linked page is without bytes, in any state of any run. -/
theorem no_empty_pages (hr : ReachableBy env InsertsInside h) : h.NoEmptyPages := by
  obtain ⟨R, ft, hc⟩ := hr.invariant filled_run
  intro b p hb hp
  rw [ft.links.pagesOf hb] at hp
  exact hc p (.inl ⟨b, hp⟩)

/-! ## The page that is split at its end -/

/-- Three bytes on the page 6 of the buffer 1. -/
def Heap.threeBytes : Heap :=
  (Heap.twoBuffers trivialBufferStrategy trivialBufferStrategy).after .generous
    (.writeData 1 [1, 2, 3])

theorem reachableBy_threeBytes {M : Heap → Action → Prop} (hcreate : ∀ h σ, M h (.op (.create σ)))
    (hwrite : ∀ h b buf, M h (.op (.writeData b buf))) :
    ReachableBy .generous M .threeBytes :=
  (reachableBy_twoBuffers hcreate _ _).after (isTrivial_twoBuffers _ _).1 (hwrite _ _ _) (by decide)

/-- The three bytes with another one inserted at an offset in their page. -/
def Heap.insertedAt (off : Nat) : Heap :=
  Heap.threeBytes.after .generous (.insertData 1 6 off [9])

theorem no_empty_pages_insertedAt : (Heap.insertedAt 1).NoEmptyPages :=
  no_empty_pages <|
    (reachableBy_threeBytes (fun _ _ => trivial) (fun _ _ _ => trivial)).after
      ⟨⟨_, rfl, rfl⟩, .inr (by decide)⟩ (.inl (.inr (by decide))) (by decide)

/-- With the offset 3, the page 6 is split after its last byte. -/
theorem empty_page_at_end : ¬∀ env h, ReachableBy env (fun _ _ => True) h → h.NoEmptyPages := by
  intro hall
  have hr : ReachableBy .generous (fun _ _ => True) (.insertedAt 3) :=
    (reachableBy_threeBytes (fun _ _ => trivial) (fun _ _ _ => trivial)).after
      ⟨⟨_, rfl, rfl⟩, .inr (by decide)⟩ trivial (by decide)
  have hpos := hall .generous (.insertedAt 3) hr 1 6 (by decide) (by decide)
  exact absurd hpos (by decide)

end Pb
