import PageBuf.Invariant.Release

/-!
# Pages — making a page that is not linked yet

The functions that hand a new page to an insertion: with data of its own,
with the caller's memory, sharing the data of a source page, or holding a
copy of its bytes. `Made` says what they have in common.
-/

namespace Pb

open StateRun Function Ring RefCount

variable {env : Env} {h h' h₁ : Heap} {R : Nat → List Nat} {F X : List Nat} {d x b : Nat}
  {D : Data} {v : DataVec}

/-- The page `x` is new and stands for `v`; every other page is as it was. -/
structure Made (h h' : Heap) (R : Nat → List Nat) (F X : List Nat) (x : Nat) (v : DataVec) :
    Prop where
  core : Core h' R (x :: F) X
  quiet : Quiet (fun p => p ≠ x) h h'
  fresh : h.pages x = none
  vec : h'.vecOf x = v

/-- The page is the only user of its data, which is not mapped and in which
it lies. -/
structure Sole (h : Heap) (X : List Nat) (x : Nat) : Prop where
  inData : h.InData x
  one : ∀ {d}, h.dataOf x = some d → h.count X d = 1

theorem Made.bytes (m : Made h h' R F X x v) : h'.pageBytes x = h'.bytes v.base v.len := by
  simp only [Heap.pageBytes, Heap.lenOf, m.vec]

theorem Made.len (m : Made h h' R F X x v) : h'.lenOf x = v.len := by
  simp only [Heap.lenOf, m.vec]

/-- Making a page frees none. -/
theorem Made.live (m : Made h h' R F X x v) (hc : Core h R F X) {p : Nat}
    (hp : (h.pages p).isSome) : (h'.pages p).isSome := by
  refine (m.core.links.live p).mpr ?_
  rw [m.quiet.buffers]
  exact ((hc.links.live p).mp hp).imp id (Or.imp id (List.mem_cons_of_mem x))

/-- Nothing was made. -/
structure NotMade (env : Env) (h h' : Heap) (R : Nat → List Nat) (F X : List Nat) : Prop where
  refused : Refused env
  core : Core h' R F X
  quiet : ∀ P, Quiet P h h'

theorem Core.idle_quiet (i : Idle h h') (hm : h'.mem = h.mem) (hb : h'.buffers = h.buffers)
    (P : Nat → Prop) : Quiet P h h' :=
  ⟨i.world, hb, fun {p} _ => i.same hm p⟩

theorem Core.notMade (hc : Core h R F X) (hr : Refused env) (i : Idle h h')
    (hm : h'.mem = h.mem) (hb : h'.buffers = h.buffers) : NotMade env h h' R F X :=
  ⟨hr, hc.idle i, Core.idle_quiet i hm hb⟩

/-- New data has the one reference its creator holds. -/
theorem NewData.count_one (nd : NewData h h₁ d D) (hc : Core h R F X) :
    h₁.count X d = 0 := by
  have h₀ : h.count X d = 0 := by
    by_contra hn
    have := hc.objs.freshData ((hc.objs.live d).mpr (by omega))
    have := nd.next
    omega
  rw [Heap.count] at h₀ ⊢
  rw [Heap.refs_congr (Heap.dataOf_congr nd.pages) nd.le hc.links.fresh]
  exact h₀

theorem Heap.canRelease_of_trivial {s : Shape} (hs : h.shapeOf d = some s)
    (hop : s.operations = .trivial) : h.CanRelease d := by
  intro a ha
  obtain ⟨t, off, ob, ht, hop'⟩ := Heap.allocatorOf_eq_some.mp ha
  rw [hs] at ht
  cases ht
  simp [hop] at hop'

/-- A page for data that was just created, by `pb_page_create` and
`pb_data_put`. -/
theorem pageCreate_new (hc : Core h R F X) (nd : NewData h h₁ d D) :
    Yields (do
      match ← pageCreate env d with
      | none => do
          dataPut d
          pure none
      | some page => do
          dataPut d
          pure (some page)) h₁ (fun r h' => match r with
        | none => NotMade env h h' R F X
        | some x => Made h h' R F X x D.dataVec ∧ Sole h' X x ∧ h'.dataOf x = some d ∧
            h'.shapeOf d = some D.shape) := by
  have hc₁ := nd.core hc
  have hzero := nd.count_one hc
  have hD : h₁.datas d = some D := by rw [nd.datas, update_self]
  have hcr : ∀ {k : Heap}, k.shapeOf d = some D.shape → k.CanRelease d :=
    fun hs => Heap.canRelease_of_trivial hs nd.operations
  rcases pageCreate_cases env hD with hrun | ⟨hr, hrun⟩
  · refine Yields.step hrun ?_
    have hc₂ := hc₁.addPage hD (v := D.dataVec) rfl
    have hs₂ : (h₁.addPage D.dataVec d D).shapeOf d = some D.shape := by
      rw [Heap.shape_addPage hD, Heap.shapeOf_eq hD]
    have htwo : (h₁.addPage D.dataVec d D).count (d :: X) d = 2 := by
      rw [Heap.count] at hzero ⊢
      rw [Heap.refs_addPage, if_pos rfl, List.count_cons_self]
      omega
    refine Yields.bind (dataPut_hand hc₂) ?_
    rintro _ h' ⟨dr, hput⟩
    have hc' := hput (by omega) (by omega)
    have hdx : h'.dataOf h₁.next = some d := by
      rw [Heap.dataOf_congr dr.pages, Heap.dataOf_addPage, update_self]
    have hvx : h'.vecOf h₁.next = D.dataVec := by
      rw [Heap.vecOf_congr dr.pages, Heap.vecOf_addPage, update_self]
    have hs' : h'.shapeOf d = some D.shape := by
      obtain ⟨s, hs⟩ := hc'.data_live hdx
      have := dr.survivor hs
      rw [hs₂] at this
      rw [hs, this]
    refine yields_pure.mpr ⟨⟨hc', ?_, ?_, hvx⟩, ⟨?_, ?_⟩, hdx, hs'⟩
    · exact (nd.quiet _).trans ((Core.addPage_quiet hD).trans (dr.quiet hc₂ hc' _))
    · by_contra hn
      have hlt := hc.links.fresh (Option.isSome_iff_ne_none.mpr hn)
      have := nd.le
      omega
    · exact ⟨d, D.shape, hdx, hs', nd.operations, by rw [hvx]; exact Nat.le_refl _,
        by rw [Heap.lenOf, hvx]; exact Nat.le_refl _⟩
    · intro e he
      rw [hdx] at he
      cases he
      have hrefs : h'.refs d = (h₁.addPage D.dataVec d D).refs d :=
        Heap.refs_congr (Heap.dataOf_congr dr.pages) (Nat.le_of_eq dr.next.symm)
          hc₂.links.fresh d
      rw [Heap.count, List.count_cons_self] at htwo
      rw [Heap.count, hrefs]
      omega
  · refine Yields.step hrun ?_
    have hc₂ := hc₁.idle (Idle.refused h₁)
    refine Yields.bind (dataPut_hand hc₂) ?_
    rintro _ h' ⟨dr, hput⟩
    have hone : h₁.refused.count (d :: X) d = 1 := by
      show h₁.refs d + _ = 1
      rw [Heap.count] at hzero
      rw [List.count_cons_self]
      omega
    have hc' := hput (by omega) (fun _ => hcr (by
      show h₁.shapeOf d = _
      exact Heap.shapeOf_eq hD))
    exact yields_pure.mpr ⟨hr, hc', fun P => (nd.quiet P).trans
      ((Quiet.refused P h₁).trans (dr.quiet hc₂ hc' P))⟩

/-- A trivial buffer. -/
theorem Heap.IsTrivial.allocator {B : Buffer} (ht : h.IsTrivial b) (hB : h.buffers b = some B) :
    B.operations = .trivial := by
  obtain ⟨B', hB', hop⟩ := ht
  rw [hB] at hB'
  cases hB'
  exact hop

/-- `pb_trivial_buffer_page_create`: a page that is all of a new block. -/
theorem trivialBufferPageCreate_spec (hc : Core h R F X) (hb : h.IsTrivial b) (len : Nat) :
    Yields (trivialBufferPageCreate env b len) h (fun r h' => match r with
      | none => NotMade env h h' R F X
      | some x => ∃ n, Made h h' R F X x ⟨⟨.heap n, 0⟩, len⟩ ∧ Sole h' X x ∧
          h'.blocks n = some len ∧ ∀ p, p ≠ x → (h'.vecOf p).base.region = .heap n →
            h'.lenOf p = 0) := by
  obtain ⟨B, hB, hop⟩ := hb
  unfold trivialBufferPageCreate
  refine Yields.step (getBuffer_run hB) ?_
  rw [hop]
  refine Yields.bind (trivialDataCreate_spec hc len) ?_
  rintro (- | d) h₁ h₁post
  · obtain ⟨hr, i, hm, hbuf⟩ := h₁post
    exact yields_pure.mpr (hc.notMade hr i hm hbuf)
  · obtain ⟨n, nd⟩ := h₁post
    refine (pageCreate_new hc nd).mono ?_
    rintro (- | x) h' hpost
    · exact hpost
    · obtain ⟨hmade, hsole, hdx, hs⟩ := hpost
      obtain ⟨m, hm, hblock⟩ := hmade.core.objs.owned hs rfl rfl
      cases hm
      refine ⟨_, hmade, hsole, hblock, fun p hp hr => ?_⟩
      cases hdp : h'.dataOf p with
      | none => exact hmade.core.views.lenOf_none hdp
      | some e =>
          exfalso
          obtain ⟨t, ht⟩ := hmade.core.data_live hdp
          have hreg := hmade.core.views.region hdp ht
          rw [hr] at hreg
          rcases hmade.core.objs.excl ht hs hreg.symm with ⟨k, hk⟩ | rfl
          · rw [← hreg] at hk
            simp at hk
          · have hone := hsole.one hdx
            have hpos := Heap.refs_pos (hmade.core.page_fresh hdx) hdx
            rw [Heap.count] at hone
            exact hp (eq_of_holders_eq_one (show h'.refs e = 1 by omega)
              (hmade.core.page_fresh hdp) (hmade.core.page_fresh hdx) hdp hdx)

/-- `pb_trivial_buffer_page_create_ref`: a page on the caller's memory. -/
theorem trivialBufferPageCreateRef_spec (hc : Core h R F X) {buf : Ptr} {k : Nat}
    (hk : buf.region = .caller k) (len : Nat) :
    Yields (trivialBufferPageCreateRef env buf len) h (fun r h' => match r with
      | none => NotMade env h h' R F X
      | some x => Made h h' R F X x ⟨buf, len⟩ ∧ Sole h' X x) := by
  unfold trivialBufferPageCreateRef
  refine Yields.bind (trivialDataCreateRef_spec hk len) ?_
  rintro (- | d) h₁ h₁post
  · obtain ⟨hr, i, hm, hbuf⟩ := h₁post
    exact yields_pure.mpr (hc.notMade hr i hm hbuf)
  · refine (pageCreate_new hc h₁post).mono ?_
    rintro (- | x) h' hpost
    · exact hpost
    · exact ⟨hpost.1, hpost.2.1⟩

/-! ## Filling a page -/

/-- A store changes nothing but the bytes of one region. -/
theorem Idle.store {q : Ptr} {bs : List UInt8} {n : Nat} (hq : q.region = .heap n) :
    Idle h (h.store q bs) := by
  rw [Heap.store_eq (by simp [hq])]
  refine { Idle.refl h with caller := fun k => ?_ }
  simp [hq]

theorem Same.store {q : Ptr} {bs : List UInt8} {n p : Nat} (hq : q.region = .heap n)
    (hp : (h.vecOf p).base.region = .heap n → h.lenOf p = 0) : Same h (h.store q bs) p := by
  have i : Idle h (h.store q bs) := Idle.store hq
  refine ⟨congrFun (Heap.vecOf_congr i.pages) p, congrFun (Heap.dataOf_congr i.pages) p, ?_⟩
  simp only [Heap.pageBytes, Heap.lenOf, Heap.vecOf_congr i.pages]
  by_cases hr : (h.vecOf p).base.region = .heap n
  · rw [show (h.vecOf p).len = 0 from hp hr]
    rfl
  · exact Heap.bytes_store_of_ne (by simp [hq]) (by rwa [hq])

/-- Filling a page of a new block. -/
theorem Made.fill {n len : Nat} {bs : List UInt8}
    (m : Made h h' R F X x ⟨⟨.heap n, 0⟩, len⟩) (hs : Sole h' X x)
    (ho : ∀ p, p ≠ x → (h'.vecOf p).base.region = .heap n → h'.lenOf p = 0)
    (hlen : bs.length = len) :
    Made h (h'.store ⟨.heap n, 0⟩ bs) R F X x ⟨⟨.heap n, 0⟩, len⟩ ∧
      Sole (h'.store ⟨.heap n, 0⟩ bs) X x ∧
      (h'.store ⟨.heap n, 0⟩ bs).pageBytes x = bs := by
  have i : Idle h' (h'.store ⟨.heap n, 0⟩ bs) := Idle.store rfl
  have hvec := Heap.vecOf_congr i.pages
  have hdata := Heap.dataOf_congr i.pages
  have hbuf : (h'.store ⟨.heap n, 0⟩ bs).buffers = h'.buffers := by
    rw [Heap.store_eq (by simp)]
  refine ⟨⟨m.core.idle i, m.quiet.trans ⟨i.world, hbuf, fun {p} hp => Same.store rfl (ho p hp)⟩,
    m.fresh, by rw [hvec, m.vec]⟩, ⟨?_, ?_⟩, ?_⟩
  · exact hs.inData.congr (congrFun hdata x) (congrFun hvec x)
      (fun _ hs' => by rwa [i.shape])
  · intro d hd
    rw [hdata] at hd
    have := hs.one hd
    rw [Heap.count] at this ⊢
    rw [Heap.refs_congr hdata i.next m.core.links.fresh]
    exact this
  · rw [Heap.pageBytes, Heap.lenOf, hvec, m.vec]
    subst hlen
    exact Heap.bytes_store_self (by simp)

/-- A page filled with bytes of the caller's memory. -/
theorem makeDataPage_spec (hc : Core h R F X) (hb : h.IsTrivial b) {buf : List UInt8}
    {i n : Nat} (hn : i + n ≤ buf.length) :
    Yields (makeDataPage env b buf i n) h (fun r h' => match r with
      | none => NotMade env h h' R F X
      | some x => ∃ v, Made h h' R F X x v ∧ Sole h' X x ∧ v.len = n ∧
          h'.pageBytes x = (buf.drop i).take n) := by
  unfold makeDataPage
  refine Yields.bind (trivialBufferPageCreate_spec hc hb n) ?_
  rintro (- | x) h₁ hpost
  · exact yields_pure.mpr hpost
  · obtain ⟨m, hmade, hsole, hblock, ho⟩ := hpost
    have hlive : (h₁.pages x).isSome := (hmade.core.links.live x).mpr (by simp)
    have hlen : (List.take n (List.drop i buf)).length = n := by
      rw [List.length_take, List.length_drop]
      omega
    refine Yields.step (pageGetLen_run hlive) ?_
    rw [hmade.len]
    refine Yields.step (callerSlice_run hn) (Yields.step (pageGetBase_run hlive) ?_)
    rw [hmade.vec]
    refine Yields.step (memWrite_run ?_) ?_
    · rw [hlen]
      simp [Heap.inBounds, Heap.regionSize, hblock]
    · obtain ⟨hmade', hsole', hbytes⟩ := hmade.fill hsole ho hlen
      exact yields_pure.mpr ⟨_, hmade', hsole', rfl, hbytes⟩

/-! ## Pages made from a source page -/

/-- A page that shares the data of a source page. -/
theorem makeSharedPage_spec (hc : Core h R F X) {src : Nat} (hd : h.dataOf src = some d)
    (len off : Nat) :
    Yields (makeSharedPage env src len off) h (fun r h' => match r with
      | none => NotMade env h h' R F X
      | some x => Made h h' R F X x ⟨(h.vecOf src).base.add off, len⟩ ∧
          (off + len ≤ h.lenOf src →
            h'.pageBytes x = ((h.pageBytes src).drop off).take len) ∧
          h'.dataOf x = some d ∧ h'.shapeOf = h.shapeOf ∧
          ∀ e, h'.refs e = h.refs e + if e = d then 1 else 0) := by
  obtain ⟨s, hs⟩ := hc.data_live hd
  obtain ⟨D, hD⟩ := Heap.exists_data (h := h) (d := d) (by rw [hs]; rfl)
  have hv : (h.vecOf src).base.region = D.dataVec.base.region :=
    hc.views.region hd (Heap.shapeOf_eq hD)
  have hne : src ≠ h.next := Nat.ne_of_lt (hc.page_fresh hd)
  unfold makeSharedPage
  rcases pageTransfer_cases env hd hD hne len off with hrun | ⟨hr, hrun⟩
  · refine Yields.intro hrun ⟨⟨hc.addPage hD hv, Core.addPage_quiet hD, hc.next_none, ?_⟩,
      ?_, ?_, Heap.shape_addPage hD, Heap.refs_addPage⟩
    · rw [Heap.vecOf_addPage, update_self]
    · intro hle
      rw [← Heap.bytes_add_offset hle]
      simp only [Heap.pageBytes, Heap.lenOf, Heap.vecOf_addPage, update_self]
      exact Heap.bytes_congr (Heap.byteAt_congr rfl rfl rfl)
    · rw [Heap.dataOf_addPage, update_self]
  · exact Yields.intro hrun (hc.notMade hr (Idle.refused h) rfl rfl)

theorem Made.idle {h'' : Heap} (m : Made h h' R F X x v) (i : Idle h' h'')
    (hm : h''.mem = h'.mem) (hb : h''.buffers = h'.buffers) : Made h h'' R F X x v :=
  ⟨m.core.idle i, m.quiet.trans (Core.idle_quiet i hm hb _), m.fresh, by
    rw [Heap.vecOf_congr i.pages, m.vec]⟩

theorem Sole.idle {h'' : Heap} (hs : Sole h' X x) (hc : Core h' R F X) (i : Idle h' h'') :
    Sole h'' X x where
  inData := hs.inData.congr (congrFun (Heap.dataOf_congr i.pages) x)
    (congrFun (Heap.vecOf_congr i.pages) x) (fun _ hs' => by rwa [i.shape])
  one := fun {d} hd => by
    rw [Heap.dataOf_congr i.pages] at hd
    have := hs.one hd
    rw [Heap.count] at this ⊢
    rw [Heap.refs_congr (Heap.dataOf_congr i.pages) i.next hc.links.fresh]
    exact this

/-- A page with a copy of the bytes of a source page. -/
theorem makeCopiedPage_spec (hc : Core h R F X) (hb : h.IsTrivial b) {src : Nat}
    (hsrc : (h.pages src).isSome) (len off : Nat) :
    Yields (makeCopiedPage env b src len off) h (fun r h' => match r with
      | none => NotMade env h h' R F X
      | some x => ∃ v, Made h h' R F X x v ∧ Sole h' X x ∧ v.len = len ∧
          (off + len ≤ h.lenOf src →
            h'.pageBytes x = ((h.pageBytes src).drop off).take len)) := by
  unfold makeCopiedPage
  refine Yields.bind (trivialBufferPageCreate_spec hc hb len) ?_
  rintro (- | x) h₁ hpost
  · exact yields_pure.mpr hpost
  · obtain ⟨n, hmade, hsole, hblock, ho⟩ := hpost
    have hlive : (h₁.pages x).isSome := (hmade.core.links.live x).mpr (by simp)
    have hne : src ≠ x := by
      rintro rfl
      simp [hmade.fresh] at hsrc
    have hsame := hmade.quiet.same hne
    obtain ⟨S, hS⟩ := Option.isSome_iff_exists.mp (hmade.live hc hsrc)
    refine Yields.step (getPage_run hS) (Yields.step (pageGetLen_run hlive) ?_)
    rw [hmade.len]
    refine Yields.step (memRead_run _ _) (Yields.step (pageGetBase_run hlive) ?_)
    generalize hover : (h₁.overread || !h₁.inBounds (S.dataVec.base.add off) len) = flag
    have i : Idle h₁ { h₁ with overread := flag } := { Idle.refl h₁ with }
    have hvec : ({ h₁ with overread := flag } : Heap).vecOf x = ⟨⟨.heap n, 0⟩, len⟩ :=
      hmade.vec
    rw [hvec]
    refine Yields.step (memWrite_run ?_) ?_
    · rw [Heap.length_bytes]
      simp [Heap.inBounds, Heap.regionSize, hblock]
    · obtain ⟨hmade', hsole', hbytes⟩ := (hmade.idle i rfl rfl).fill (hsole.idle hmade.core i)
        ho (Heap.length_bytes _ _)
      refine yields_pure.mpr ⟨_, hmade', hsole', rfl, fun hle => ?_⟩
      rw [hbytes, ← Heap.vecOf_eq hS, Heap.bytes_add_offset (by rwa [hsame.len]), hsame.bytes]

end Pb
