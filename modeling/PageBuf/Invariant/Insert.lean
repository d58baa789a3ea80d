import PageBuf.Invariant.Iterators

/-!
# Insert — `pb_trivial_buffer_insert`

A position in a buffer is a cut of its ring and an offset in the page behind
the cut. Inserting a page splits the page behind the cut if the offset is not
zero, and links the new page; what was before the position and what was after
it stay as they are.
-/

namespace Pb

open StateRun Function Ring RefCount

variable {env : Env} {h h' : Heap} {R : Nat → List Nat} {F X k₁ k₂ : List Nat}
  {b d it offset x y : Nat} {B : Buffer}

/-! ## The revision -/

/-- The revision of `b` is incremented `k` times. -/
def Heap.bump (h : Heap) (b : Nat) (B : Buffer) (k : Nat) : Heap :=
  h.setBuffer b (some { B with dataRevision := B.dataRevision + k })

theorem Heap.bump_zero (hB : h.buffers b = some B) : h.bump b B 0 = h := by
  simp [bump, setBuffer, ← hB]

theorem kindOf_setBuffer {B' : Buffer} (hB : h.buffers b = some B)
    (hk : (B'.strategy, B'.operations) = (B.strategy, B.operations)) :
    (h.setBuffer b (some B')).kindOf = h.kindOf := by
  funext c
  rcases eq_or_ne c b with rfl | hc
  · simp [Heap.kindOf, Heap.setBuffer, hB, hk]
  · simp [Heap.kindOf, Heap.setBuffer, hc]

theorem Idle.setBuffer {B' : Buffer} (hB : h.buffers b = some B)
    (hk : (B'.strategy, B'.operations) = (B.strategy, B.operations)) :
    Idle h (h.setBuffer b (some B')) :=
  { Idle.refl h with kind := kindOf_setBuffer hB hk }

theorem Same.setBuffer (o : Option Buffer) (p : Nat) : Same h (h.setBuffer b o) p :=
  ⟨rfl, rfl, Heap.bytes_congr (Heap.byteAt_congr rfl rfl rfl)⟩

/-- New counters of `b`, the revision not lower. -/
theorem Frame.setBuffer {B' : Buffer} (hB : h.buffers b = some B)
    (hk : (B'.strategy, B'.operations) = (B.strategy, B.operations))
    (hr : B.dataRevision ≤ B'.dataRevision) : Frame b h (h.setBuffer b (some B')) R R where
  world := (Idle.setBuffer hB hk).world
  kind := kindOf_setBuffer hB hk
  ring := fun _ => rfl
  buffer := fun hc => update_of_ne hc _ _
  same := fun _ _ => Same.setBuffer _ _
  revision := by
    rw [Heap.revOf_eq hB, Heap.revOf_eq (B := B') (update_self _ _ _)]
    exact hr

theorem Heap.kindOf_bump (hB : h.buffers b = some B) (k : Nat) :
    (h.bump b B k).kindOf = h.kindOf := by
  unfold Heap.bump
  exact kindOf_setBuffer hB rfl

theorem Idle.bump (hB : h.buffers b = some B) (k : Nat) : Idle h (h.bump b B k) := by
  unfold Heap.bump
  exact Idle.setBuffer hB rfl

theorem Core.bump (hc : Core h R F X) (hB : h.buffers b = some B) (k : Nat) :
    Core (h.bump b B k) R F X :=
  hc.idle (Idle.bump hB k)

@[simp] theorem Heap.buffers_setBuffer (o : Option Buffer) :
    (h.setBuffer b o).buffers = update h.buffers b o := rfl

/-- New counters of `b` that agree with its pages. -/
theorem Totals.setBuffer {R' : Nat → List Nat} {B' : Buffer} (ht : Totals h R)
    (hs : B'.dataSize = ((R' b).map h'.lenOf).sum)
    (hb : h'.buffers = update h.buffers b (some B'))
    (ho : ∀ c, c ≠ b → R' c = R c ∧ ∀ p ∈ R c, h'.lenOf p = h.lenOf p) : Totals h' R' := by
  intro c C hC
  rw [hb] at hC
  rcases eq_or_ne c b with rfl | hne
  · rw [update_self] at hC
    cases hC
    exact hs
  · rw [update_of_ne hne] at hC
    rw [ht c C hC, (ho c hne).1, List.map_congr_left (ho c hne).2]

theorem Totals.bump (ht : Totals h R) (hB : h.buffers b = some B) (k : Nat) :
    Totals (h.bump b B k) R := by
  have hb : (h.bump b B k).buffers
      = update h.buffers b (some { B with dataRevision := B.dataRevision + k }) := rfl
  refine ht.setBuffer ?_ hb (fun _ _ => ⟨rfl, fun _ _ => rfl⟩)
  exact ht b B hB

theorem Frame.bump (hB : h.buffers b = some B) (k : Nat) : Frame b h (h.bump b B k) R R :=
  Frame.setBuffer hB rfl (Nat.le_add_right _ _)

theorem Heap.revOf_bump (hB : h.buffers b = some B) (k : Nat) :
    (h.bump b B k).revOf b = h.revOf b + k := by
  rw [revOf_eq hB, revOf_eq (h := h.bump b B k) (update_self _ _ _)]

/-- Appending to a buffer that is not empty is the one insertion that leaves
the revision as it is. -/
def bumpOf (B : Buffer) (b it : Nat) : Nat := if it = b ∧ B.dataSize ≠ 0 then 0 else 1

theorem trivialBufferInsertBump_run (hc : Core h R F X) (ht : Totals h R)
    (hB : h.buffers b = some B) (hop : B.operations = .trivial) :
    trivialBufferInsertBump env b it h = .ok ((), h.bump b B (bumpOf B b it)) := by
  have hinc : trivialBufferIncrementDataRevision b h = .ok ((), h.bump b B 1) :=
    modifyBuffer_run hB _
  unfold trivialBufferInsertBump bufferIsEndIterator trivialBufferIsEndIterator bumpOf
  by_cases hit : it = b
  · have hsize : bufferGetDataSize env b h = .ok (B.dataSize, h) := by
      refine (bind_run (getBuffer_run hB)).trans ?_
      rw [hop]
      exact trivialBufferGetDataSize_run hc ht hB
    simp only [hit, decide_true, if_true, true_and]
    refine (bind_run hsize).trans ?_
    by_cases hz : B.dataSize = 0
    · rw [if_pos hz, if_neg (by simp [hz])]
      exact hinc
    · rw [if_neg hz, if_pos hz, Heap.bump_zero hB]
      rfl
  · simp only [hit, decide_false, Bool.false_eq_true, if_false, false_and]
    exact hinc

/-! ## Splitting a page -/

theorem Heap.InData.sub {p q off len : Nat} (hi : h.InData p) (hd : h'.dataOf q = h.dataOf p)
    (hs : h'.shapeOf = h.shapeOf) (hv : h'.vecOf q = ⟨(h.vecOf p).base.add off, len⟩)
    (hle : off + len ≤ h.lenOf p) : h'.InData q := by
  obtain ⟨d, s, hd', hs', hop, hlo, hhi⟩ := hi
  refine ⟨d, s, hd.trans hd', by rw [hs, hs'], hop, ?_, ?_⟩
  · rw [hv]
    exact Nat.le_trans hlo (Nat.le_add_right _ _)
  · rw [Heap.lenOf, hv]
    show (h.vecOf p).base.offset + off + len ≤ _
    omega

theorem Writable.edit {R' : Nat → List Nat} (hw : Writable h R) (e : Edited h h')
    (hp : ∀ c, h.WritesInPlace c → (∀ p ∈ R c, h.InData p) → ∀ p ∈ R' c, h'.InData p) :
    Writable h' R' := by
  intro c hcw p hpR
  have hcw' : h.WritesInPlace c := hcw.congr (by
    show (h'.buffers c).map _ = _
    rw [e.buffers]
    rfl)
  exact hp c hcw' (hw c hcw') p hpR

theorem Edited.shape (e : Edited h h') : h'.shapeOf = h.shapeOf := by
  rw [e.rest]
  rfl

/-- The assignments of a split: the new page `y` is linked in front of `it`
and takes the bytes before the offset. -/
theorem cutPage_run (hl : Links h R (y :: F)) (hb : (h.buffers b).isSome)
    (hR : R b = k₁ ++ it :: k₂) (hvy : h.vecOf y = h.vecOf it) :
    Yields (do
      let N ← getPage it
      modifyPage y (fun P => { P with
        dataVec := { P.dataVec with len := offset }
        prev := N.prev
        next := some it })
      modifyPage it (fun P => { P with
        dataVec := ⟨P.dataVec.base.add offset, P.dataVec.len - offset⟩ })
      modifyPage (← deref N.prev) (fun P => { P with next := some y })
      modifyPage it (fun P => { P with prev := some y })
      pure (some y)) h (fun r h' => r = some y ∧ Edited h h' ∧
        Links h' (update R b (k₁ ++ y :: it :: k₂)) F ∧
        h'.vecOf = update (update h.vecOf y ⟨(h.vecOf it).base, offset⟩) it
          ⟨(h.vecOf it).base.add offset, h.lenOf it - offset⟩) := by
  have hitR : it ∈ R b := by simp [hR]
  have hitb : h.buffers it = none := hl.page hitR
  have hlive : (h.pages it).isSome := hl.node_live hb (List.mem_cons_of_mem b hitR)
  have hring := hl.ring hb
  rw [hR] at hring
  have hylive : (h.pages y).isSome := (hl.live y).mpr (by simp)
  obtain ⟨hyb, hyR⟩ := hl.apart (p := y) (by simp)
  have hne : it ≠ y := fun he => hyR b (he ▸ hitR)
  have hplast : k₁.getLastD b ∈ b :: R b := by
    rw [hR]
    exact List.cons_subset_cons b (List.subset_append_left _ _) (getLastD_mem b k₁)
  obtain ⟨N, hN⟩ := Option.isSome_iff_exists.mp hlive
  obtain ⟨Y, hY⟩ := Option.isSome_iff_exists.mp hylive
  have hNprev : N.prev = some (k₁.getLastD b) := by
    rw [← Heap.prevOf_eq hN, hring.prev_mem]
  rw [Heap.vecOf_eq hY] at hvy
  refine Yields.step (getPage_run hN) (Yields.step (modifyPage_run hY _) ?_)
  have e₁ : Edited h (h.setPage y (some { Y with
      dataVec := { Y.dataVec with len := offset }, prev := N.prev, next := some it })) :=
    Edited.of_setPage hY rfl rfl (fun hs => by simp [hyb] at hs)
  have n₁ := Heap.nextOf_setPage (h := h) (p := y) (o := some { Y with
    dataVec := { Y.dataVec with len := offset }, prev := N.prev, next := some it })
  have p₁ := Heap.prevOf_setPage (h := h) (p := y) (o := some { Y with
    dataVec := { Y.dataVec with len := offset }, prev := N.prev, next := some it })
  have v₁ := Heap.vecOf_setPage (h := h) (p := y) (o := some { Y with
    dataVec := { Y.dataVec with len := offset }, prev := N.prev, next := some it })
  simp only [Option.bind_some, Option.getD_some, hvy] at n₁ p₁ v₁
  rw [hvy] at e₁ ⊢
  generalize h.setPage y _ = h₁ at e₁ n₁ p₁ v₁ ⊢
  have hv₁ : h₁.vecOf it = h.vecOf it := by rw [v₁, update_of_ne hne]
  obtain ⟨h₂, hr₂, e₂, v₂, n₂, p₂⟩ := setVec_run (h := h₁) (p := it)
    (f := fun P => { P with
      dataVec := ⟨P.dataVec.base.add offset, P.dataVec.len - offset⟩ })
    (v := ⟨(h.vecOf it).base.add offset, h.lenOf it - offset⟩)
    (by rw [e₁.live]; exact hlive)
    (fun P hP => by rw [← Heap.vecOf_eq hP, hv₁]; rfl)
    (by rw [hv₁]; rfl) (by rw [e₁.buffers]; exact hitb)
  obtain ⟨h₃, hr₃, e₃, v₃, n₃, p₃⟩ := setNext_run (h := h₂) (p := k₁.getLastD b)
    (by rw [e₂.live, e₁.live]; exact hl.node_live hb hplast) (some y)
  obtain ⟨h₄, hr₄, e₄, v₄, n₄, p₄⟩ := setPrev_run (h := h₃) (p := it)
    (by rw [e₃.live, e₂.live, e₁.live]; exact hlive) (some y)
  have e : Edited h h₄ := e₁.trans (e₂.trans (e₃.trans e₄))
  refine Yields.step hr₂ (Yields.step (deref_run hNprev) (Yields.step hr₃ (Yields.step hr₄ ?_)))
  refine yields_pure.mpr ⟨rfl, e, ?_, by rw [v₄, v₃, v₂, v₁]⟩
  refine hl.link hR hb ?_ ?_ e.live e.buffers (by rw [e.rest])
  · rw [n₄, n₃, n₂, n₁]
    rfl
  · rw [p₄, p₃, p₂, p₁, hNprev]
    rfl

/-- What is written in place still lies in its data after a split. -/
theorem Writable.cutPage (hc : Core h R (y :: F) X) (hR : R b = k₁ ++ it :: k₂)
    (hdy : h.dataOf y = h.dataOf it) (ho : offset ≤ h.lenOf it) (e : Edited h h')
    (hvec : h'.vecOf = update (update h.vecOf y ⟨(h.vecOf it).base, offset⟩) it
      ⟨(h.vecOf it).base.add offset, h.lenOf it - offset⟩) :
    Writable h' (update R b (k₁ ++ y :: it :: k₂)) := by
  have hitR : it ∈ R b := by simp [hR]
  obtain ⟨hyb, hyR⟩ := hc.links.apart (p := y) (by simp)
  have hne : it ≠ y := fun he => hyR b (he ▸ hitR)
  refine hc.writable.edit e ?_
  intro c _ hin p hp
  have hold : ∀ q ∈ R c, h'.InData q := by
    intro q hq
    rcases eq_or_ne q it with rfl | hqi
    · have hvq : h'.vecOf q = ⟨(h.vecOf q).base.add offset, h.lenOf q - offset⟩ := by
        rw [hvec, update_self]
      exact (hin q hq).sub (congrFun e.dataOf q) e.shape hvq (by omega)
    · refine (hin q hq).congr (congrFun e.dataOf q) ?_ (fun _ hs => by rwa [e.shape])
      rw [hvec, update_of_ne hqi, update_of_ne]
      rintro rfl
      exact hyR c hq
  rcases eq_or_ne c b with rfl | hcb
  · rw [update_self] at hp
    rcases eq_or_ne p y with rfl | hpy'
    · have hvp : h'.vecOf p = ⟨(h.vecOf it).base.add 0, offset⟩ := by
        rw [hvec, update_of_ne hne.symm, update_self]
        rfl
      refine (hin it hitR).sub ?_ e.shape hvp (by omega)
      rw [e.dataOf, hdy]
    · refine hold p ?_
      rw [hR]
      simp only [List.mem_append, List.mem_cons] at hp ⊢
      tauto
  · rw [update_of_ne hcb] at hp
    exact hold p hp

/-- The ring and the pages after a split. -/
structure Split (h h' : Heap) (R : Nat → List Nat) (F X : List Nat) (b : Nat) (k₁ k₂ : List Nat)
    (y it offset : Nat) : Prop where
  core : Core h' (update R b (k₁ ++ y :: it :: k₂)) F X
  quiet : Quiet (fun p => p ≠ y ∧ p ≠ it) h h'
  fresh : h.pages y = none
  front : h'.vecOf y = ⟨(h.vecOf it).base, offset⟩
  back : h'.vecOf it = ⟨(h.vecOf it).base.add offset, h.lenOf it - offset⟩
  frontBytes : h'.pageBytes y = (h.pageBytes it).take offset
  backBytes : h'.pageBytes it = (h.pageBytes it).drop offset
  dataOf : h'.dataOf = update h.dataOf y (h.dataOf it)
  shape : h'.shapeOf = h.shapeOf

theorem trivialBufferSplit_spec (hc : Core h R F X) (hb : (h.buffers b).isSome)
    (hR : R b = k₁ ++ it :: k₂) (ho : offset ≤ h.lenOf it) :
    Yields (trivialBufferSplit env it offset) h (fun r h' => match r with
      | none => Refused env ∧ h' = h.refused
      | some y => Split h h' R F X b k₁ k₂ y it offset) := by
  have hitR : it ∈ R b := by simp [hR]
  have hlive : (h.pages it).isSome := hc.links.node_live hb (List.mem_cons_of_mem b hitR)
  obtain ⟨d, hd⟩ := Option.isSome_iff_exists.mp (hc.views.data hlive (hc.links.page hitR))
  obtain ⟨s, hs⟩ := hc.data_live hd
  obtain ⟨D, hD⟩ := Heap.exists_data (h := h) (d := d) (by rw [hs]; rfl)
  have hreg : (h.vecOf it).base.region = D.dataVec.base.region :=
    hc.views.region hd (Heap.shapeOf_eq hD)
  have hne : it ≠ h.next := Nat.ne_of_lt (hc.page_fresh hd)
  unfold trivialBufferSplit
  refine Yields.step (pageGetLen_run hlive) ?_
  rcases pageTransfer_cases env hd hD hne (h.lenOf it) 0 with hrun | ⟨hr, hrun⟩
  · refine Yields.step hrun ?_
    have hc₁ := hc.addPage hD (v := ⟨(h.vecOf it).base.add 0, h.lenOf it⟩) hreg
    have hvec := Heap.vecOf_addPage (h := h) (v := ⟨(h.vecOf it).base.add 0, h.lenOf it⟩)
      (d := d) (D := D)
    have hdata := Heap.dataOf_addPage (h := h) (v := ⟨(h.vecOf it).base.add 0, h.lenOf it⟩)
      (d := d) (D := D)
    have q₁ := Core.addPage_quiet (h := h) (v := ⟨(h.vecOf it).base.add 0, h.lenOf it⟩) hD
    have hshape := Heap.shape_addPage (v := ⟨(h.vecOf it).base.add 0, h.lenOf it⟩) hD
    have hbuf : (h.addPage ⟨(h.vecOf it).base.add 0, h.lenOf it⟩ d D).buffers = h.buffers := rfl
    generalize h.addPage ⟨(h.vecOf it).base.add 0, h.lenOf it⟩ d D = h₁ at *
    have hvit : h₁.vecOf it = h.vecOf it := by rw [hvec, update_of_ne hne]
    have hlit : h₁.lenOf it = h.lenOf it := by rw [Heap.lenOf, hvit, Heap.lenOf]
    have hsit := q₁.same hne
    have hdy : h₁.dataOf h.next = h₁.dataOf it := by
      rw [hdata, update_self, update_of_ne hne, hd]
    refine (cutPage_run hc₁.links (by rw [hbuf]; exact hb) hR ?_).mono ?_
    · rw [hvit, hvec, update_self]
      rfl
    · rintro _ h' ⟨rfl, e, hl', hv'⟩
      have hc' := hc₁.edit e hl' (Writable.cutPage hc₁ hR hdy (by rw [hlit]; exact ho) e hv')
      rw [hvit, hlit] at hv'
      refine ⟨hc', ?_, hc.next_none, ?_, ?_, ?_, ?_, ?_, ?_⟩
      · refine ⟨q₁.world.trans e.world, e.buffers.trans q₁.buffers, fun {p} hp => ?_⟩
        refine (q₁.same hp.1).trans (e.same ?_)
        rw [hv', update_of_ne hp.2, update_of_ne hp.1, hvec, update_of_ne hp.1]
      · rw [hv', update_of_ne hne.symm, update_self]
      · rw [hv', update_self]
      · rw [Heap.pageBytes, Heap.lenOf, hv', update_of_ne hne.symm, update_self, e.bytes]
        show h₁.bytes (h.vecOf it).base offset = _
        rw [← hvit, ← Heap.bytes_take _ (show offset ≤ h₁.lenOf it by omega)]
        show List.take offset (h₁.pageBytes it) = _
        rw [hsit.bytes]
      · rw [Heap.pageBytes, Heap.lenOf, hv', update_self, e.bytes]
        show h₁.bytes ((h.vecOf it).base.add offset) (h.lenOf it - offset) = _
        rw [← hvit, ← hlit, ← Heap.bytes_drop _ (show offset ≤ h₁.lenOf it by omega)]
        show List.drop offset (h₁.pageBytes it) = _
        rw [hsit.bytes]
      · rw [e.dataOf, hdata, hd]
      · rw [e.shape, hshape]
  · exact Yields.step hrun (yields_pure.mpr ⟨hr, rfl⟩)

/-! ## Linking the page -/

variable {l₁ l₂ : List Nat}

/-- The page is linked at the cut and its length added to the data size. -/
structure Linked (h h' : Heap) (R : Nat → List Nat) (F X : List Nat) (b x : Nat)
    (l₁ l₂ : List Nat) : Prop where
  core : Core h' (update R b (l₁ ++ x :: l₂)) F X
  totals : Totals h' (update R b (l₁ ++ x :: l₂))
  world : World h h'
  same : ∀ p, Same h h' p
  shape : h'.shapeOf = h.shapeOf
  buffers : ∀ B, h.buffers b = some B →
    h'.buffers = update h.buffers b (some { B with dataSize := B.dataSize + h.lenOf x })

theorem linkPage_spec (hc : Core h R (x :: F) X) (ht : Totals h R) (hB : h.buffers b = some B)
    (hR : R b = l₁ ++ l₂) (hw : h.WritesInPlace b → h.InData x) :
    Yields (do
      linkPage (l₁.getLastD b) (l₂.headD b) x
      let len ← pageGetLen x
      trivialBufferIncrementDataSize b len
      pure len) h (fun n h' => n = h.lenOf x ∧ Linked h h' R F X b x l₁ l₂) := by
  have hb : (h.buffers b).isSome := by rw [hB]; rfl
  have hlast : l₁.getLastD b ∈ b :: R b := by
    rw [hR]
    exact List.cons_subset_cons b (List.subset_append_left l₁ l₂) (getLastD_mem b l₁)
  have hhead : l₂.headD b ∈ b :: R b := by
    rw [hR]
    exact List.cons_subset_cons b (List.subset_append_right l₁ l₂) (headD_mem b l₂)
  have hxlive : (h.pages x).isSome := (hc.links.live x).mpr (by simp)
  obtain ⟨h₁, hr₁, e, v₁, n₁, p₁⟩ := linkPage_run hxlive (hc.links.node_live hb hlast)
    (hc.links.node_live hb hhead)
  have hlen : h₁.lenOf = h.lenOf := by
    funext p
    simp only [Heap.lenOf, v₁]
  have hc₁ : Core h₁ (update R b (l₁ ++ x :: l₂)) F X := by
    refine hc.edit e (hc.links.link hR hb n₁ p₁ e.live e.buffers (by rw [e.rest]))
      (hc.writable.edit e ?_)
    intro c hcw hin p hp
    have hnew : ∀ {q}, h.InData q → h₁.InData q := fun hq =>
      hq.congr (congrFun e.dataOf _) (congrFun v₁ _) (fun _ hs => by rwa [e.shape])
    rcases eq_or_ne c b with rfl | hcb
    · rw [update_self] at hp
      rcases eq_or_ne p x with rfl | hpx
      · exact hnew (hw hcw)
      · refine hnew (hin p ?_)
        rw [hR]
        simp only [List.mem_append, List.mem_cons] at hp ⊢
        tauto
    · rw [update_of_ne hcb] at hp
      exact hnew (hin p hp)
  have hB₁ : h₁.buffers b = some B := by rw [e.buffers, hB]
  refine Yields.step hr₁ (Yields.step (pageGetLen_run (by rw [e.live]; exact hxlive)) ?_)
  refine Yields.step (modifyBuffer_run hB₁ _) (yields_pure.mpr ⟨by rw [hlen], ?_⟩)
  have i : Idle h₁ (h₁.setBuffer b (some { B with dataSize := B.dataSize + h₁.lenOf x })) :=
    Idle.setBuffer hB₁ rfl
  refine ⟨hc₁.idle i, ?_, e.world.trans i.world, fun p => ?_, ?_, ?_⟩
  · refine Totals.setBuffer (R := R) (h := h₁) ?_ ?_ rfl ?_
    · intro c C hC
      rw [e.buffers] at hC
      rw [hlen]
      exact ht c C hC
    · show B.dataSize + h₁.lenOf x = (List.map h₁.lenOf _).sum
      rw [update_self, hlen, ht b B hB, hR]
      simp only [List.map_append, List.map_cons, List.sum_append, List.sum_cons]
      omega
    · exact fun c hcb => ⟨update_of_ne hcb _ _, fun _ _ => rfl⟩
  · exact (e.same (congrFun v₁ p)).trans (Same.setBuffer _ p)
  · exact e.shape
  · intro B' hB'
    rw [hB] at hB'
    cases hB'
    rw [Heap.buffers_setBuffer, e.buffers, hlen]

/-- A page with the bytes `bs` is in the ring: `l₁` and `l₂` are what was
before and after the position. The revision was incremented `r` times. -/
structure Inserted (h h' : Heap) (R : Nat → List Nat) (F X : List Nat)
    (b it offset x r : Nat) (bs : List UInt8) (k₁ k₂ l₁ l₂ : List Nat) : Prop where
  core : Core h' (update R b (l₁ ++ x :: l₂)) F X
  totals : Totals h' (update R b (l₁ ++ x :: l₂))
  frame : Frame b h h' R (update R b (l₁ ++ x :: l₂))
  bytes : h'.pageBytes x = bs
  place : it = l₂.headD b
  front : h'.flat l₁ = h.flat k₁ ++ (h.flat k₂).take offset
  back : h'.flat l₂ = (h.flat k₂).drop offset
  full : h.Full (k₁ ++ k₂) → (it ≠ b → offset < h.lenOf it) → h'.Full (l₁ ++ l₂)
  revision : h'.revOf b = h.revOf b + r
  append : it = b → l₁ = R b ∧ l₂ = [] ∧ ∀ p ∈ R b, Same h h' p
  sub : k₁ ++ k₂ ⊆ l₁ ++ l₂

theorem Linked.frame (l : Linked h h' R F X b x l₁ l₂) (hB : h.buffers b = some B) :
    Frame b h h' R (update R b (l₁ ++ x :: l₂)) where
  world := l.world
  kind := by
    funext c
    simp only [Heap.kindOf, l.buffers B hB]
    rcases eq_or_ne c b with rfl | hne <;> simp [*]
  ring := fun hc => update_of_ne hc _ _
  buffer := fun hc => by rw [l.buffers B hB, update_of_ne hc]
  same := fun _ _ => l.same _
  revision := by
    rw [Heap.revOf_eq hB, Heap.revOf_eq (h := h') (by rw [l.buffers B hB, update_self])]

theorem Linked.revision (l : Linked h h' R F X b x l₁ l₂) (hB : h.buffers b = some B) :
    h'.revOf b = h.revOf b := by
  rw [Heap.revOf_eq hB, Heap.revOf_eq (h := h') (by rw [l.buffers B hB, update_self])]

/-- Insertion without a split. -/
theorem Linked.inserted (l : Linked h h' R F X b x k₁ k₂) (hB : h.buffers b = some B)
    (hl : Links h R (x :: F)) (hR : R b = k₁ ++ k₂) (hit : it = k₂.headD b) :
    Inserted h h' R F X b it 0 x 0 (h.pageBytes x) k₁ k₂ k₁ k₂ where
  core := l.core
  totals := l.totals
  frame := l.frame hB
  bytes := (l.same x).bytes
  place := hit
  front := by
    rw [flat_of_same (fun p _ => l.same p)]
    simp
  back := flat_of_same (fun p _ => l.same p)
  full := fun hf _ p hp => by
    rw [(l.same p).len]
    exact hf p hp
  revision := l.revision hB
  append := fun he => by
    have hk₂ := (hl.headD_eq_iff (by rw [hB]; rfl) hR).mp (by rw [← hit, he])
    exact ⟨by rw [hR, hk₂, List.append_nil], hk₂, fun p _ => l.same p⟩
  sub := List.Subset.refl _

/-- Insertion behind a split. -/
theorem Linked.inserted_split {h₁ : Heap} {k : List Nat}
    (sp : Split h h₁ R (x :: F) X b k₁ k y it offset)
    (l : Linked h₁ h' (update R b (k₁ ++ y :: it :: k)) F X b x (k₁ ++ [y]) (it :: k))
    (hl : Links h R (x :: F)) (hB : h.buffers b = some B) (hR : R b = k₁ ++ it :: k)
    (ho : offset ≤ h.lenOf it) (hpos : 0 < offset) :
    Inserted h h' R F X b it offset x 0 (h.pageBytes x) k₁ (it :: k) (k₁ ++ [y])
      (it :: k) := by
  have hb : (h.buffers b).isSome := by rw [hB]; rfl
  have hitR : it ∈ R b := by simp [hR]
  have hBy : h₁.buffers b = some B := by rw [sp.quiet.buffers, hB]
  have hout : ∀ {p c}, p ∈ R c → p ≠ it → p ≠ y ∧ p ≠ it := by
    intro p c hp hne
    refine ⟨?_, hne⟩
    rintro rfl
    have := (hl.live p).mpr (.inr (.inl ⟨c, hp⟩))
    simp [sp.fresh] at this
  have hnd := hl.nodup hb
  rw [hR] at hnd
  have hk₁ : ∀ p ∈ k₁, Same h h₁ p := fun p hp =>
    sp.quiet.same (hout (c := b) (by simp [hR, hp]) (fun he =>
      (List.nodup_append.mp hnd).2.2 p hp it (by simp) he))
  have hk : ∀ p ∈ k, Same h h₁ p := fun p hp =>
    sp.quiet.same (hout (c := b) (by simp [hR, hp]) (fun he =>
      (List.nodup_cons.mp (List.nodup_append.mp hnd).2.1).1 (he ▸ hp)))
  have hleny : h'.lenOf y = offset := by
    rw [(l.same y).len, Heap.lenOf, sp.front]
  have hlenit : h'.lenOf it = h.lenOf it - offset := by
    rw [(l.same it).len, Heap.lenOf, sp.back]
  have hset : update (update R b (k₁ ++ y :: it :: k)) b (k₁ ++ [y] ++ x :: it :: k)
      = update R b (k₁ ++ [y] ++ x :: it :: k) := update_idem _ _ _
  have f₂ := l.frame hBy
  have hcore := l.core
  have htot := l.totals
  rw [hset] at f₂ hcore htot
  have hx : x ≠ y ∧ x ≠ it := by
    have hxlive := (hl.live x).mpr (by simp)
    refine ⟨?_, fun he => (hl.apart (p := x) (by simp)).2 b (he ▸ hitR)⟩
    rintro rfl
    simp [sp.fresh] at hxlive
  have hsame : ∀ p ∈ k₁ ++ k, Same h h' p := fun p hp =>
    ((List.mem_append.mp hp).elim (hk₁ p) (hk p)).trans (l.same p)
  exact
    { core := hcore
      totals := htot
      frame :=
        { world := sp.quiet.world.trans f₂.world
          kind := by
            rw [f₂.kind]
            funext c
            simp [Heap.kindOf, sp.quiet.buffers]
          ring := fun hc => update_of_ne hc _ _
          buffer := fun hc => by rw [f₂.buffer hc, sp.quiet.buffers]
          same := fun {c p} hc hp => by
            refine (sp.quiet.same (hout hp ?_)).trans (l.same p)
            rintro rfl
            exact hc (hl.disj hp hitR)
          revision := by
            rw [l.revision hBy, Heap.revOf, Heap.revOf, sp.quiet.buffers] }
      bytes := ((sp.quiet.same hx).trans (l.same x)).bytes
      place := rfl
      front := by
        rw [Heap.flat_append, Heap.flat_cons, Heap.flat_nil, List.append_nil,
          flat_of_same (fun p hp => hsame p (List.mem_append_left k hp)), (l.same y).bytes,
          sp.frontBytes, Heap.flat_cons, List.take_append_of_le_length (by simpa using ho)]
      back := by
        rw [Heap.flat_cons, Heap.flat_cons, (l.same it).bytes, sp.backBytes,
          flat_of_same (fun p hp => hsame p (List.mem_append_right k₁ hp)),
          List.drop_append_of_le_length (by simpa using ho)]
      full := fun hf hlt p hp => by
        have hitb : it ≠ b := fun he => hl.notMem_self hb (he ▸ hitR)
        simp only [List.append_assoc, List.singleton_append, List.mem_append, List.mem_cons]
          at hp
        rcases hp with hp | rfl | rfl | hp
        · rw [(hsame p (List.mem_append_left k hp)).len]
          exact hf p (by simp [hp])
        · rw [hleny]
          exact hpos
        · rw [hlenit]
          have := hlt hitb
          omega
        · rw [(hsame p (List.mem_append_right k₁ hp)).len]
          exact hf p (by simp [hp])
      revision := by rw [l.revision hBy, Heap.revOf, Heap.revOf, sp.quiet.buffers]; rfl
      append := fun he => absurd (he ▸ hitR) (hl.notMem_self hb)
      sub := by
        intro p hp
        simp only [List.mem_append, List.mem_cons] at hp ⊢
        tauto }

/-- `pb_trivial_buffer_insert` after the revision: the page is linked, or the
page behind the position could not be split and nothing has happened. -/
theorem insertRest_spec (hc : Core h R (x :: F) X) (ht : Totals h R)
    (hB : h.buffers b = some B) (hR : R b = k₁ ++ k₂) (hit : it = k₂.headD b)
    (hw : h.WritesInPlace b → h.InData x) :
    Yields (do
      let nextLen ← pageGetLen it
      let offset := if offset > nextLen then nextLen else offset
      let prevPage ←
        if offset ≠ 0 then trivialBufferSplit env it offset
        else do
          let N ← getPage it
          pure N.prev
      match prevPage with
      | none => if offset ≠ 0 then pure 0 else throw .dangling
      | some prevPage => do
          linkPage prevPage it x
          let len ← pageGetLen x
          trivialBufferIncrementDataSize b len
          pure len) h (fun n h' =>
        (n = 0 ∧ Refused env ∧ h' = h.refused ∧ it ≠ b ∧ 0 < offset) ∨
        (n = h.lenOf x ∧ ∃ l₁ l₂,
          Inserted h h' R F X b it (min offset (h.lenOf it)) x 0 (h.pageBytes x) k₁ k₂
            l₁ l₂)) := by
  have hb : (h.buffers b).isSome := by rw [hB]; rfl
  have hitmem : it ∈ b :: R b := by
    rw [hR, hit]
    exact List.cons_subset_cons b (List.subset_append_right k₁ k₂) (headD_mem b k₂)
  have hitlive := hc.links.node_live hb hitmem
  obtain ⟨N, hN⟩ := Option.isSome_iff_exists.mp hitlive
  have hring := hc.links.ring hb
  rw [hR] at hring
  have hNprev : N.prev = some (k₁.getLastD b) := by
    rw [← Heap.prevOf_eq hN, hit, hring.prev_cut]
  refine Yields.step (pageGetLen_run hitlive) ?_
  have hclamp : (if offset > h.lenOf it then h.lenOf it else offset)
      = min offset (h.lenOf it) := by
    split <;> omega
  rw [hclamp]
  by_cases hz : min offset (h.lenOf it) = 0
  · simp only [hz, ne_eq, not_true_eq_false, if_false]
    refine Yields.step (getPage_run hN) ?_
    rw [hNprev, hit]
    refine (linkPage_spec hc ht hB hR hw).mono ?_
    rintro n h' ⟨rfl, hl⟩
    exact .inr ⟨rfl, k₁, k₂, hl.inserted hB hc.links hR rfl⟩
  · simp only [hz, ne_eq, not_false_eq_true, if_true]
    have hle : min offset (h.lenOf it) ≤ h.lenOf it := Nat.min_le_right _ _
    have hitb : it ≠ b := by
      intro he
      have := (hc.views.sentinel hb).2
      rw [← he] at this
      omega
    have hitR : it ∈ R b := (List.mem_cons.mp hitmem).resolve_left hitb
    obtain ⟨k, rfl⟩ : ∃ k, k₂ = it :: k := by
      cases k₂ with
      | nil => exact absurd hit hitb
      | cons p k =>
          simp only [List.headD_cons] at hit
          exact ⟨k, by rw [hit]⟩
    refine Yields.bind (trivialBufferSplit_spec hc hb hR hle) ?_
    rintro (- | y) h₁ hpost
    · obtain ⟨hr, rfl⟩ := hpost
      exact yields_pure.mpr (.inl ⟨rfl, hr, rfl, hitb, by omega⟩)
    · have hB₁ : h₁.buffers b = some B := by rw [hpost.quiet.buffers, hB]
      have hx : x ≠ y ∧ x ≠ it := by
        have hxlive := (hc.links.live x).mpr (by simp)
        refine ⟨?_, fun he => (hc.links.apart (p := x) (by simp)).2 b (he ▸ hitR)⟩
        rintro rfl
        simp [hpost.fresh] at hxlive
      have ht₁ : Totals h₁ (update R b (k₁ ++ y :: it :: k)) := by
        have hnd := hc.links.nodup hb
        rw [hR] at hnd
        have hout : ∀ {p c}, p ∈ R c → p ≠ it → h₁.lenOf p = h.lenOf p := by
          intro p c hp hne
          refine (hpost.quiet.same ⟨?_, hne⟩).len
          rintro rfl
          have := (hc.links.live p).mpr (.inr (.inl ⟨c, hp⟩))
          simp [hpost.fresh] at this
        refine ht.setBuffer (b := b) ?_ (by rw [hpost.quiet.buffers, ← hB, update_eq_self]) ?_
        · have hk₁ : k₁.map h₁.lenOf = k₁.map h.lenOf := List.map_congr_left (fun p hp =>
            hout (c := b) (by simp [hR, hp]) (fun he =>
              (List.nodup_append.mp hnd).2.2 p hp it (by simp) he))
          have hk : k.map h₁.lenOf = k.map h.lenOf := List.map_congr_left (fun p hp =>
            hout (c := b) (by simp [hR, hp]) (fun he =>
              (List.nodup_cons.mp (List.nodup_append.mp hnd).2.1).1 (he ▸ hp)))
          have hy : h₁.lenOf y = min offset (h.lenOf it) := by rw [Heap.lenOf, hpost.front]
          have hi : h₁.lenOf it = h.lenOf it - min offset (h.lenOf it) := by
            rw [Heap.lenOf, hpost.back]
          rw [ht b B hB, hR, update_self]
          simp only [List.map_append, List.map_cons, List.sum_append, List.sum_cons, hk₁, hk,
            hy, hi]
          omega
        · intro c hcb
          refine ⟨update_of_ne hcb _ _, fun p hp => hout hp ?_⟩
          rintro rfl
          exact hcb (hc.links.disj hp hitR)
      have hlinked := linkPage_spec hpost.core ht₁ hB₁
        (show update R b (k₁ ++ y :: it :: k) b = (k₁ ++ [y]) ++ it :: k by
          rw [update_self, List.append_assoc, List.singleton_append]) (fun hcw => by
          have hcw' : h.WritesInPlace b := hcw.congr (by
            show (h₁.buffers b).map _ = _
            rw [hpost.quiet.buffers]
            rfl)
          have hs := hpost.quiet.same hx
          exact (hw hcw').congr hs.data hs.vec (fun _ hsh => by rwa [hpost.shape]))
      rw [getLastD_concat, List.headD_cons] at hlinked
      refine hlinked.mono ?_
      rintro n h' ⟨rfl, hl⟩
      exact .inr ⟨(hpost.quiet.same hx).len, _, _,
        hl.inserted_split hpost hc.links hB hR hle (by omega)⟩

/-- While the revision stands the page was appended. -/
theorem Inserted.stable {r : Nat} {bs : List UInt8}
    (i : Inserted h h' R F X b it offset x r bs k₁ k₂ l₁ l₂)
    (hr : it ≠ b ∨ R b = [] → 0 < r) : Stable b h h' R (update R b (l₁ ++ x :: l₂)) := by
  intro he
  have hkeeps : ¬(it ≠ b ∨ R b = []) := by
    intro hmoves
    have := hr hmoves
    have := i.revision
    omega
  have hit : it = b := not_not.mp fun hne => hkeeps (.inl hne)
  obtain ⟨rfl, rfl, hsame⟩ := i.append hit
  rw [update_self]
  exact ⟨List.prefix_append _ _, hsame, fun hnil => absurd (.inr hnil) hkeeps⟩

/-- The insertion seen from before the increment of the revision. -/
theorem Inserted.of_bump {r : Nat} {bs : List UInt8} (hB : h.buffers b = some B)
    (i : Inserted (h.bump b B r) h' R F X b it offset x 0 bs k₁ k₂ l₁ l₂) :
    Inserted h h' R F X b it offset x r bs k₁ k₂ l₁ l₂ :=
  { i with
    frame := (Frame.bump hB r).trans i.frame
    revision := i.revision.trans (Heap.revOf_bump hB r)
    append := fun he => by
      obtain ⟨h₁, h₂, hs⟩ := i.append he
      exact ⟨h₁, h₂, fun p hp => (Same.setBuffer _ p).trans (hs p hp)⟩ }

/-- **`pb_trivial_buffer_insert`** of a trivial buffer. -/
theorem trivialBufferInsert_spec (hc : Core h R (x :: F) X) (ht : Totals h R)
    (hB : h.buffers b = some B) (hop : B.operations = .trivial) (hR : R b = k₁ ++ k₂)
    (hit : it = k₂.headD b) (hw : h.WritesInPlace b → h.InData x) :
    Yields (trivialBufferInsert env b it offset x) h (fun n h' =>
      (n = 0 ∧ Refused env ∧ h' = (h.bump b B 1).refused ∧ it ≠ b ∧ 0 < offset) ∨
      (n = h.lenOf x ∧ ∃ l₁ l₂,
        Inserted h h' R F X b it (min offset (h.lenOf it)) x (bumpOf B b it) (h.pageBytes x)
          k₁ k₂ l₁ l₂)) := by
  have hBb : (h.bump b B (bumpOf B b it)).buffers b
      = some { B with dataRevision := B.dataRevision + bumpOf B b it } := update_self _ _ _
  refine Yields.step (trivialBufferInsertBump_run hc ht hB hop) ?_
  refine (insertRest_spec (hc.bump hB _) (ht.bump hB _) hBb hR hit (fun hcw => ?_)).mono ?_
  · refine (hw (hcw.congr ?_)).congr rfl rfl (fun _ hs => hs)
    exact congrFun (Heap.kindOf_bump hB _) b
  · rintro n h' (⟨rfl, hr, rfl, hne, hpos⟩ | ⟨rfl, l₁, l₂, i⟩)
    · refine .inl ⟨rfl, hr, ?_, hne, hpos⟩
      rw [bumpOf, if_neg (fun hc => hne hc.1)]
    · exact .inr ⟨rfl, l₁, l₂, i.of_bump hB⟩

/-- The insertion seen from before the page was made. -/
theorem Inserted.of_made {h₁ : Heap} {r : Nat} {bs : List UInt8} {v : DataVec}
    (m : Made h h₁ R F X x v) (hl : Links h R F) (hb : (h.buffers b).isSome)
    (hR : R b = k₁ ++ k₂) (hit : it = k₂.headD b)
    (i : Inserted h₁ h' R F X b it offset x r bs k₁ k₂ l₁ l₂) :
    Inserted h h' R F X b it offset x r bs k₁ k₂ l₁ l₂ := by
  have hout : ∀ {c p}, p ∈ R c → p ≠ x := by
    rintro c p hp rfl
    have := (hl.live p).mpr (.inr (.inl ⟨c, hp⟩))
    simp [m.fresh] at this
  have hsame : ∀ p ∈ k₁ ++ k₂, Same h h₁ p := fun p hp =>
    m.quiet.same (hout (c := b) (by rw [hR]; exact hp))
  have hitx : it ≠ x := by
    have : it ∈ b :: R b := by
      rw [hR, hit]
      exact List.cons_subset_cons b (List.subset_append_right k₁ k₂) (headD_mem b k₂)
    rintro rfl
    have := hl.node_live hb this
    simp [m.fresh] at this
  exact
    { i with
      frame := (m.quiet.frame hout b).trans i.frame
      front := by
        rw [i.front, flat_of_same (fun p hp => hsame p (List.mem_append_left k₂ hp)),
          flat_of_same (fun p hp => hsame p (List.mem_append_right k₁ hp))]
      back := by
        rw [i.back, flat_of_same (fun p hp => hsame p (List.mem_append_right k₁ hp))]
      full := fun hf hlt => by
        refine i.full (fun p hp => ?_) (fun hne => ?_)
        · rw [(hsame p hp).len]
          exact hf p hp
        · rw [(m.quiet.same hitx).len]
          exact hlt hne
      revision := by
        rw [i.revision, Heap.revOf, Heap.revOf, m.quiet.buffers]
      append := fun he => by
        obtain ⟨h₁, h₂, hs⟩ := i.append he
        exact ⟨h₁, h₂, fun p hp => (m.quiet.same (hout hp)).trans (hs p hp)⟩ }

end Pb
