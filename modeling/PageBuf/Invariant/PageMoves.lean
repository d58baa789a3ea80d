import PageBuf.Invariant.PageSteps

/-!
# PageMoves — the functions that move pages, as steps

The page makers, `pb_trivial_buffer_insert`, the unlinking of a page and the
duplication of its data, each as the steps it takes when it returns.
-/

namespace Pb

open StateRun Function Ring RefCount

variable {env : Env} {h h' h₁ h'' : Heap} {R : Nat → List Nat} {F : List Nat}
  {b d p x n : Nat} {D : Data} {G : Allowance}

/-! ## Quiet steps -/

theorem Links.still (hl : Links h R F) (hp : h'.pages = h.pages) (hk : h'.kindOf = h.kindOf)
    (hx : h.next ≤ h'.next) : Links h' R F :=
  hl.congr (Heap.nextOf_congr hp) (Heap.prevOf_congr hp) (Heap.buffers_isSome_congr hk)
    (fun p => by rw [hp]) hx

theorem Still.usesOf (s : Still h h' h.datas) : h'.usesOf = h.usesOf := by
  unfold Heap.usesOf
  rw [s.datas]

theorem Still.boundsOf (s : Still h h' h.datas) : h'.boundsOf = h.boundsOf := by
  unfold Heap.boundsOf
  rw [s.datas]

/-- Changes that pages and data do not notice. -/
theorem Still.step (s : Still h h' h.datas) (hl : Links h R F) :
    PageStep G ⟨h, R, F⟩ ⟨h', R, F⟩ :=
  ⟨.quiet (fun _ => .inl rfl) ⟨Heap.vecOf_congr s.pages, Heap.dataOf_congr s.pages, s.usesOf,
    fun d _ => .inr (congrFun s.boundsOf d), s.kind, s.next⟩, hl.still s.pages s.kind s.next⟩

/-- Other data than the new `d` keep their regions. -/
theorem bounds_update {f : Nat → Option Data} {o : Option Data} (hf : h'.datas = update f d o)
    (ho : h.datas = f) {e : Nat} (hne : e ≠ d) : h'.boundsOf e = h.boundsOf e := by
  rw [Heap.boundsOf, Heap.boundsOf, hf, ho, update_of_ne hne]

/-- New data that was given up again. -/
theorem Still.toss (s : Still h h' (update h.datas d none)) (hd : h.next ≤ d)
    (hl : Links h R F) : PageStep G ⟨h, R, F⟩ ⟨h', R, F⟩ := by
  refine ⟨.quiet (u := update h.usesOf d none) (fun e => ?_)
    ⟨Heap.vecOf_congr s.pages, Heap.dataOf_congr s.pages, Heap.usesOf_update s.datas,
      fun e he => .inr (bounds_update s.datas rfl (by omega)), s.kind, s.next⟩,
    hl.still s.pages s.kind s.next⟩
  rcases eq_or_ne e d with rfl | hne
  · exact .inr ⟨hd, update_self _ _ _⟩
  · exact .inl (update_of_ne hne _ _)

/-! ## New pages -/

/-- The references after the data of one page has changed. -/
theorem Heap.refs_update (hl : Links h R F) {o : Option Nat} (hx : x < h'.next)
    (hle : h.next ≤ h'.next) (hd : h'.dataOf = update h.dataOf x o) (d : Nat) :
    h'.refs d + (if h.dataOf x = some d then 1 else 0)
      = h.refs d + if o = some d then 1 else 0 := by
  have hnone : ∀ p, h.next ≤ p → h.dataOf p ≠ some d := by
    intro p hp
    rw [hl.dataOf_none hp]
    simp
  have hupd := holders_update (d := d) (f := h.dataOf) (v := o) hx
  rw [holders_extend hle hnone] at hupd
  rw [refs, refs, hd]
  exact hupd

/-- The references after a new page has come. -/
theorem Heap.refs_newPage (hl : Links h R F) {e : Nat} (hx : h.next ≤ x) (hx' : x < h'.next)
    (hd : h'.dataOf = update h.dataOf x (some e)) (d : Nat) :
    h'.refs d = h.refs d + if e = d then 1 else 0 := by
  have hle : h.next ≤ h'.next := Nat.le_of_lt (Nat.lt_of_le_of_lt hx hx')
  have hupd := refs_update hl hx' hle hd d
  rw [hl.dataOf_none hx] at hupd
  simpa [Option.some_inj] using hupd

/-- The page `x` of length `n` is new and in flight; `shared` is the data it
shares, if it has none of its own. -/
structure NewPage (G : Allowance) (h h' : Heap) (R : Nat → List Nat) (F : List Nat) (x n : Nat)
    (shared : Option Nat) : Prop where
  step : PageStep G ⟨h, R, F⟩ ⟨h', R, x :: F⟩
  fresh : h.next ≤ x
  len : h'.lenOf = update h.lenOf x n
  data : ∀ p, p ≠ x → h'.dataOf p = h.dataOf p
  refs : ∀ d, d < h.next → h'.refs d = h.refs d + if shared = some d then 1 else 0

theorem NewPage.own (hl : Links h R F) (hx : h.next ≤ x) (hx' : x < h'.next) (hd : h.next ≤ d)
    (hd' : d < h'.next) {v : DataVec} (hn : 0 < v.len) (hl' : Links h' R (x :: F))
    (hv : h'.boundsOf d = some v)
    (c : Change h h' (update h.vecOf x v) (update h.dataOf x (some d))
      (update h.usesOf d (some 1))) : NewPage G h h' R F x v.len none where
  step := ⟨.own hx hx' hd hd' hn hv c, hl'⟩
  fresh := hx
  len := c.len_update
  data := fun p hp => by rw [c.data, update_of_ne hp]
  refs := fun e he => by
    rw [Heap.refs_newPage hl hx hx' c.data, if_neg (by omega), if_neg (by simp)]

theorem NewPage.share {u off : Nat} (hl : Links h R F) (hx : h.next ≤ x) (hx' : x < h'.next)
    (hp : h.dataOf p = some d) (hu : h.usesOf d = some u) (hn : 0 < n)
    (hg : G.share (h.lenOf p) off n (h.refs d)) (hl' : Links h' R (x :: F))
    (c : Change h h' (update h.vecOf x ⟨(h.vecOf p).base.add off, n⟩) (update h.dataOf x (some d))
      (update h.usesOf d (some (u16Inc u)))) : NewPage G h h' R F x n (h.dataOf p) where
  step := ⟨.share hx hx' hp hu hn hg c, hl'⟩
  fresh := hx
  len := c.len_update
  data := fun q hq => by rw [c.data, update_of_ne hq]
  refs := fun e _ => by
    rw [Heap.refs_newPage hl hx hx' c.data, hp]
    simp only [Option.some_inj]

theorem Change.then_still {vec : Nat → DataVec} {data uses : Nat → Option Nat}
    (c : Change h h' vec data uses) (s : Still h' h'' h'.datas) : Change h h'' vec data uses := by
  refine ⟨(Heap.vecOf_congr s.pages).trans c.vec, (Heap.dataOf_congr s.pages).trans c.data, ?_, ?_,
    s.kind.trans c.kind, Nat.le_trans c.next s.next⟩
  · rw [← c.uses, s.usesOf]
  · rw [s.boundsOf]
    exact c.bounds

/-- A change after a step that pages and data do not notice. -/
theorem PageStep.then_still {R' : Nat → List Nat} {F' : List Nat}
    (t : PageStep G ⟨h, R, F⟩ ⟨h', R', F'⟩) (s : Still h' h'' h'.datas) :
    PageStep G ⟨h, R, F⟩ ⟨h'', R', F'⟩ := by
  obtain ⟨e, hl⟩ := t
  have hch : ∀ {vec data uses}, Change h h' vec data uses → Change h h'' vec data uses :=
    fun c => c.then_still s
  have hlt : ∀ {k}, k < h'.next → k < h''.next := fun hk => Nat.lt_of_lt_of_le hk s.next
  refine ⟨?_, hl.still s.pages s.kind s.next⟩
  cases e with
  | quiet hu c => exact .quiet hu (hch c)
  | own hx hx' hd hd' hn hv c =>
      exact .own hx (hlt hx') hd (hlt hd') hn (by rw [s.boundsOf, hv]) (hch c)
  | share hx hx' hp hu hn hg c => exact .share hx (hlt hx') hp hu hn hg (hch c)
  | split hb hR hy hy' hd hu hpos hle hg c =>
      exact .split hb hR hy (hlt hy') hd hu hpos hle hg (hch c)
  | link hR c => exact .link hR (hch c)
  | destroy hd hu c => exact .destroy hd hu (hch c)
  | shrink hb hp hn hv c => exact .shrink hb hp hn hv (hch c)
  | drop hb hR hd hu c => exact .drop hb hR hd hu (hch c)
  | dup hb hp hd hu hne hd' hd'' hlen hv c =>
      exact .dup hb hp hd hu hne hd' (hlt hd'') hlen (by rw [s.boundsOf, hv]) (hch c)

theorem NewPage.then_still {shared : Option Nat} (np : NewPage G h h' R F x n shared)
    (s : Still h' h'' h'.datas) : NewPage G h h'' R F x n shared where
  step := np.step.then_still s
  fresh := np.fresh
  len := (Heap.lenOf_congr s.pages).trans np.len
  data := fun p hp => by rw [Heap.dataOf_congr s.pages, np.data p hp]
  refs := fun d hd => by
    rw [Heap.refs_congr (Heap.dataOf_congr s.pages) s.next np.step.links.fresh, np.refs d hd]

/-- What a page maker does if it returns. -/
def MakesNew (G : Allowance) (m : PbM (Option Nat)) (h : Heap) (R : Nat → List Nat)
    (F : List Nat) (n : Nat) (shared : Option Nat) : Prop :=
  Returns m h (fun r h' => match r with
    | none => PageStep G ⟨h, R, F⟩ ⟨h', R, F⟩
    | some x => NewPage G h h' R F x n shared)

theorem Heap.usesOf_addPage {v : DataVec} :
    (h.addPage v d D).usesOf = update h.usesOf d (some (u16Inc D.useCount)) := by
  have hd : (h.addPage v d D).datas
      = update h.datas d (some { D with useCount := u16Inc D.useCount }) := rfl
  exact usesOf_update hd

/-- A user more or less leaves the regions as they are. -/
theorem Heap.boundsOf_addPage {v : DataVec} (hD : h.datas d = some D) :
    (h.addPage v d D).boundsOf = h.boundsOf := by
  have hd : (h.addPage v d D).datas
      = update h.datas d (some { D with useCount := u16Inc D.useCount }) := rfl
  have hold : h.boundsOf d = some D.dataVec := by rw [boundsOf, hD]; rfl
  rw [boundsOf_update hd]
  show update h.boundsOf d (some D.dataVec) = h.boundsOf
  rw [← hold, update_eq_self]

/-- Data that is given up is gone or has its region still. -/
theorem bounds_put (hD : h.datas d = some D) (hf : h'.datas = update h.datas d D.put) (e : Nat) :
    h'.boundsOf e = none ∨ h'.boundsOf e = h.boundsOf e := by
  by_cases he : e = d
  · rw [Heap.boundsOf, Heap.boundsOf, hf, he, update_self, hD]
    unfold Data.put
    split
    · exact .inl rfl
    · exact .inr rfl
  · exact .inr (bounds_update hf rfl he)

/-- `pb_page_create` for data just made, and the `pb_data_put` after it. -/
theorem makesNew_created (hl : Links h R F) (nd : NewDatum h h₁ n d D) (hn : 0 < n) :
    Returns (do
      match ← pageCreate env d with
      | none => do
          dataPut d
          pure none
      | some page => do
          dataPut d
          pure (some page)) h₁ (fun r h' => match r with
        | none => PageStep G ⟨h, R, F⟩ ⟨h', R, F⟩
        | some x => NewPage G h h' R F x n none) := by
  have hD : h₁.datas d = some D := by rw [nd.still.datas, update_self]
  have hinc : u16Inc D.useCount = 2 := by rw [nd.count]; rfl
  rcases pageCreate_cases env hD with hrun | ⟨-, hrun⟩
  · refine Returns.step hrun (Returns.bind (returns_dataPut d _) ?_)
    intro u h' hput
    obtain ⟨E, hE, s⟩ := hput
    have hE' : E = { D with useCount := 2 } := by
      have : (h₁.addPage D.dataVec d D).datas d
          = some { D with useCount := u16Inc D.useCount } := update_self _ _ _
      rw [hE, hinc] at this
      exact Option.some.inj this
    have hp : h'.pages = update h.pages h₁.next (some { dataVec := D.dataVec, data := some d }) := by
      rw [s.pages, Heap.pages_addPage, nd.still.pages]
    have hx' : h₁.next < h'.next := Nat.lt_of_lt_of_le (Nat.lt_succ_self _) s.next
    have hkind : h'.kindOf = h.kindOf := s.kind.trans nd.still.kind
    have hle : h.next ≤ h'.next :=
      Nat.le_trans nd.still.next (Nat.le_of_lt hx')
    have hdatas : h'.datas = update h.datas d (some { D with useCount := 1 }) := by
      rw [s.datas, hE']
      show update (update h₁.datas d _) d _ = _
      rw [update_idem, nd.still.datas, update_idem]
      rfl
    obtain rfl := nd.len
    refine Returns.pure (NewPage.own hl nd.still.next hx' nd.fresh
      (Nat.lt_trans nd.next hx') hn (hl.newPage nd.still.next hx' hp
        (Heap.buffers_isSome_congr hkind)) ?_ ⟨?_, ?_, ?_, ?_, hkind, hle⟩)
    · rw [Heap.boundsOf, hdatas, update_self]
      rfl
    · rw [Heap.vecOf_congr s.pages, Heap.vecOf_addPage, Heap.vecOf_congr nd.still.pages]
    · rw [Heap.dataOf_congr s.pages, Heap.dataOf_addPage, Heap.dataOf_congr nd.still.pages]
    · exact Heap.usesOf_update hdatas
    · intro e he
      have := nd.fresh
      exact .inr (bounds_update hdatas rfl (by omega))
  · refine Returns.step hrun (Returns.bind (returns_dataPut d _) ?_)
    intro u h' hput
    obtain ⟨E, hE, s⟩ := hput
    have hE' : E = D := by
      have : h₁.datas d = some E := hE
      rw [hD] at this
      exact (Option.some.inj this).symm
    have hnone : E.put = none := by
      rw [hE', Data.put, nd.count]
      rfl
    rw [hnone] at s
    refine Returns.pure (Still.toss (d := d) ⟨s.pages.trans nd.still.pages, ?_,
      s.kind.trans nd.still.kind, Nat.le_trans nd.still.next s.next⟩ nd.fresh hl)
    rw [s.datas]
    show update h₁.datas d none = _
    rw [nd.still.datas, update_idem]

/-- `pb_trivial_buffer_page_create`. -/
theorem makesNew_create (hl : Links h R F) (hn : 0 < n) :
    MakesNew G (trivialBufferPageCreate env b n) h R F n none := by
  unfold MakesNew trivialBufferPageCreate
  refine returns_getBuffer fun B _ => Returns.bind (returns_trivialDataCreate env h n _) ?_
  intro r h₁ hr
  cases r with
  | none => exact Returns.pure (Still.step hr hl)
  | some d =>
      obtain ⟨D, nd⟩ := hr
      exact makesNew_created hl nd hn

/-- `pb_trivial_buffer_page_create_ref`. -/
theorem makesNew_createRef (hl : Links h R F) {buf : Ptr} (hn : 0 < n) :
    MakesNew G (trivialBufferPageCreateRef env buf n) h R F n none := by
  unfold MakesNew trivialBufferPageCreateRef
  refine Returns.bind (returns_trivialDataCreateRef env h buf n) ?_
  intro r h₁ hr
  cases r with
  | none => exact Returns.pure (Still.step hr hl)
  | some d =>
      obtain ⟨D, nd⟩ := hr
      exact makesNew_created hl nd hn

/-! ## Copying bytes -/

theorem returns_memRead_length (q : Ptr) (k : Nat) (h : Heap) :
    Returns (memRead q k) h (fun bs h' => Still h h' h.datas ∧ bs.length = k) :=
  Returns.of_run (memRead_run q k) ⟨⟨rfl, rfl, rfl, Nat.le_refl _⟩, Heap.length_bytes q k⟩

theorem returns_memRead (q : Ptr) (k : Nat) (h : Heap) :
    Returns (memRead q k) h (fun _ h' => Still h h' h.datas) :=
  (returns_memRead_length q k h).mono fun _ _ hr => hr.1

theorem Still.store (q : Ptr) (bs : List UInt8) (h : Heap) : Still h (h.store q bs) h.datas := by
  unfold Heap.store
  split
  · split
    · exact ⟨rfl, rfl, rfl, Nat.le_refl _⟩
    · exact Still.refl h
  · exact ⟨rfl, rfl, rfl, Nat.le_refl _⟩

theorem returns_memWrite (q : Ptr) (bs : List UInt8) (h : Heap) :
    Returns (memWrite q bs) h (fun _ h' => Still h h' h.datas) := by
  intro u h' hrun
  unfold memWrite at hrun
  split at hrun
  · cases hrun
    exact Still.store q bs h
  · cases hrun

section Reading

variable {α : Type} {Q : α → Heap → Prop}

theorem returns_callerSlice {buf : List UInt8} {i k : Nat} {f : List UInt8 → PbM α}
    (hf : ∀ bs, Returns (f bs) h Q) : Returns (callerSlice buf i k >>= f) h Q := by
  unfold callerSlice
  split
  · exact Returns.pure_bind (hf _)
  · exact Returns.stuck (e := .outOfBounds) rfl

theorem returns_pageGetLen {f : Nat → PbM α}
    (hf : (h.pages p).isSome → Returns (f (h.lenOf p)) h Q) :
    Returns (pageGetLen p >>= f) h Q := by
  cases hP : h.pages p with
  | none => exact Returns.stuck (e := .dangling) (bind_fails (by simp [getPage, hP]))
  | some P =>
      have hp : (h.pages p).isSome := by rw [hP]; rfl
      exact Returns.step (pageGetLen_run hp) (hf hp)

theorem returns_pageGetBase {f : Ptr → PbM α} (hf : ∀ q, Returns (f q) h Q) :
    Returns (pageGetBase p >>= f) h Q := by
  cases hP : h.pages p with
  | none => exact Returns.stuck (e := .dangling) (bind_fails (by simp [getPage, hP]))
  | some P =>
      have hp : (h.pages p).isSome := by rw [hP]; rfl
      exact Returns.step (pageGetBase_run hp) (hf _)

end Reading

/-- A new page filled from the caller's memory. -/
theorem makesNew_data (hl : Links h R F) (hn : 0 < n) (buf : List UInt8) (i : Nat) :
    MakesNew G (makeDataPage env b buf i n) h R F n none := by
  unfold MakesNew makeDataPage
  have hmake : MakesNew G (trivialBufferPageCreate env b n) h R F n none := makesNew_create hl hn
  refine Returns.bind hmake ?_
  intro r h₁ hr
  cases r with
  | none => exact Returns.pure hr
  | some x =>
      refine returns_pageGetLen fun _ => returns_callerSlice fun bs => ?_
      refine returns_pageGetBase fun q => Returns.bind (returns_memWrite q bs _) ?_
      intro u h₂ s
      exact Returns.pure (NewPage.then_still hr s)

/-- A new page with a copy of the bytes of a source page. -/
theorem makesNew_copied (hl : Links h R F) (hn : 0 < n) (src off : Nat) :
    MakesNew G (makeCopiedPage env b src n off) h R F n none := by
  unfold MakesNew makeCopiedPage
  have hmake : MakesNew G (trivialBufferPageCreate env b n) h R F n none := makesNew_create hl hn
  refine Returns.bind hmake ?_
  intro r h₁ hr
  cases r with
  | none => exact Returns.pure hr
  | some x =>
      refine returns_getPage fun S _ => returns_pageGetLen fun _ => ?_
      refine Returns.bind (returns_memRead _ _ _) ?_
      intro bs h₂ s₂
      refine returns_pageGetBase fun q => Returns.bind (returns_memWrite q bs _) ?_
      intro u h₃ s₃
      exact Returns.pure (NewPage.then_still hr (s₂.then_same s₃))

/-! ## Sharing data -/

/-- `pb_page_set_data` faults when the data is gone. -/
theorem pageSetData_missing {P : Page} (hP : h.pages x = some P) (hnone : P.data = none)
    (hD : h.datas d = none) : pageSetData x d h = .error .dangling := by
  unfold pageSetData
  refine (bind_run (getPage_run hP)).trans ?_
  rw [hnone]
  exact bind_fails (by simp [getData, hD])

/-- `pb_page_transfer`: the new page is on the data of the source page. -/
theorem returns_pageTransfer {src : Nat} (hsrc : src ≠ h.next) (len off : Nat) :
    Returns (pageTransfer env src len off) h (fun r h' => match r with
      | none => h' = h.refused
      | some x => ∃ d D, h.dataOf src = some d ∧ h.datas d = some D ∧ x = h.next ∧
          h' = h.addPage ⟨(h.vecOf src).base.add off, len⟩ d D) := by
  by_cases hboth : ∃ d D, h.dataOf src = some d ∧ h.datas d = some D
  · obtain ⟨d, D, hd, hD⟩ := hboth
    rcases pageTransfer_cases env hd hD hsrc len off with hrun | ⟨-, hrun⟩
    · exact Returns.of_run hrun ⟨d, D, hd, hD, rfl, rfl⟩
    · exact Returns.of_run hrun rfl
  · unfold pageTransfer
    cases hg : env.grants h.calls with
    | false => exact Returns.step (callocPage_refused hg) (Returns.pure rfl)
    | true =>
        refine Returns.step (callocPage_run hg) (returns_getPage fun S hS => ?_)
        refine returns_deref fun d hd => ?_
        have hdata : h.dataOf src = some d := by
          have : h.pages src = some S := by
            rwa [Heap.pages_setPage, update_of_ne hsrc] at hS
          rw [Heap.dataOf_eq this, hd]
        have hD : h.datas d = none := by
          by_contra hn
          obtain ⟨D, hD⟩ := Option.ne_none_iff_exists'.mp hn
          exact hboth ⟨d, D, hdata, hD⟩
        exact Returns.stuck (pageSetData_missing (P := {}) (by simp) rfl hD)

/-- A new page on the data of a source page. -/
theorem makesNew_shared {src : Nat} (hl : Links h R F) (hn : 0 < n) (off : Nat)
    (hsrc : src ≠ h.next)
    (hg : ∀ d, h.dataOf src = some d → G.share (h.lenOf src) off n (h.refs d)) :
    MakesNew G (makeSharedPage env src n off) h R F n (h.dataOf src) := by
  unfold MakesNew makeSharedPage
  refine (returns_pageTransfer hsrc n off).mono ?_
  intro r h' hr
  cases r with
  | none =>
      have hr' : h' = h.refused := hr
      rw [hr']
      exact Still.step ⟨rfl, rfl, rfl, Nat.le_refl _⟩ hl
  | some x =>
      obtain ⟨d, D, hd, hD, rfl, rfl⟩ := hr
      refine NewPage.share (u := D.useCount) hl (Nat.le_refl _) (Nat.lt_succ_self _) hd ?_ hn
        (hg d hd) (hl.newPage (Nat.le_refl _) (Nat.lt_succ_self _) Heap.pages_addPage
          (fun _ => rfl))
        ⟨Heap.vecOf_addPage, Heap.dataOf_addPage, Heap.usesOf_addPage,
          fun e _ => .inr (congrFun (Heap.boundsOf_addPage hD) e), rfl, Nat.le_succ _⟩
      rw [Heap.usesOf, hD]
      rfl

/-! ## The counters of a buffer -/

theorem returns_modifyBuffer {f : Buffer → Buffer}
    (hf : ∀ B, ((f B).strategy, (f B).operations) = (B.strategy, B.operations)) (h : Heap) :
    Returns (modifyBuffer b f) h (fun _ h' => Still h h' h.datas) := by
  unfold modifyBuffer
  refine returns_getBuffer fun B hB => Returns.of_run (modify_run _) ⟨rfl, rfl, ?_, Nat.le_refl _⟩
  exact kindOf_setBuffer hB (hf B)

theorem returns_trivialBufferNextIterator (p : Nat) (h : Heap) :
    Returns (trivialBufferNextIterator p) h (fun _ h' => h = h') := by
  unfold trivialBufferNextIterator
  refine returns_getPage fun P _ => fun _ _ hrun => ?_
  cases hn : P.next with
  | none => rw [hn] at hrun; cases hrun
  | some q => rw [hn] at hrun; cases hrun; rfl

theorem returns_bufferNextIterator (ht : h.IsTrivial b) (p : Nat) :
    Returns (bufferNextIterator env b p) h (fun _ h' => h = h') := by
  unfold bufferNextIterator
  refine returns_getBuffer fun B hB => ?_
  rw [ht.allocator hB]
  exact returns_trivialBufferNextIterator p h

/-- The audit reads only. -/
theorem returns_trivialBufferGetDataSize (b : Nat) (h : Heap) :
    Returns (trivialBufferGetDataSize b) h (fun _ h' => h = h') := by
  unfold trivialBufferGetDataSize
  refine Returns.bind (returns_trivialBufferNextIterator b h) ?_
  · intro it _ he
    cases he
    refine Returns.step get_run (Returns.bind (P := fun _ h' => h = h') ?_ ?_)
    · refine Returns.loop (I := fun _ h' => h = h') ?_ _ _ _ rfl
      intro s _ he
      cases he
      unfold auditRound
      split
      · exact Returns.pure rfl
      · refine returns_pageGetLen fun _ => ?_
        refine Returns.bind (returns_trivialBufferNextIterator _ h) ?_
        intro it' _ he
        exact Returns.pure he
    · intro k _ he
      cases he
      refine returns_getBuffer fun B _ => ?_
      split
      · exact Returns.pure rfl
      · exact Returns.throw

theorem returns_bufferGetDataSize (ht : h.IsTrivial b) :
    Returns (bufferGetDataSize env b) h (fun _ h' => h = h') := by
  unfold bufferGetDataSize
  refine returns_getBuffer fun B hB => ?_
  rw [ht.allocator hB]
  exact returns_trivialBufferGetDataSize b h

theorem returns_trivialBufferInsertBump (ht : h.IsTrivial b) (it : Nat) :
    Returns (trivialBufferInsertBump env b it) h (fun _ h' => Still h h' h.datas) := by
  have hinc : Returns (trivialBufferIncrementDataRevision b) h
      (fun _ h' => Still h h' h.datas) := by
    unfold trivialBufferIncrementDataRevision
    refine returns_modifyBuffer (fun B => ?_) h
    rfl
  unfold trivialBufferInsertBump
  split
  · refine Returns.bind (returns_bufferGetDataSize ht) ?_
    intro k _ he
    cases he
    split
    · exact hinc
    · exact Returns.pure (Still.refl _)
  · exact hinc

/-! ## Insertion -/

/-- Other rings than that of `b`, and the lengths of their pages, are as they
were. -/
def Elsewhere (b : Nat) (h h' : Heap) (R R' : Nat → List Nat) : Prop :=
  ∀ c, c ≠ b → R' c = R c ∧ ∀ p ∈ R c, h'.lenOf p = h.lenOf p

theorem Elsewhere.refl (b : Nat) (h : Heap) (R : Nat → List Nat) : Elsewhere b h h R R :=
  fun _ _ => ⟨rfl, fun _ _ => rfl⟩

theorem Elsewhere.trans {R' R'' : Nat → List Nat} (e : Elsewhere b h h' R R')
    (e' : Elsewhere b h' h'' R' R'') : Elsewhere b h h'' R R'' := by
  intro c hc
  obtain ⟨hR, hlen⟩ := e c hc
  obtain ⟨hR', hlen'⟩ := e' c hc
  refine ⟨hR'.trans hR, fun p hp => ?_⟩
  rw [hlen' p (hR ▸ hp), hlen p hp]

theorem Elsewhere.of_pages {l : List Nat} (hlen : ∀ c, c ≠ b → ∀ p ∈ R c, h'.lenOf p = h.lenOf p) :
    Elsewhere b h h' R (update R b l) :=
  fun c hc => ⟨update_of_ne hc _ _, hlen c hc⟩

theorem Still.elsewhere {f : Nat → Option Data} (s : Still h h' f) (b : Nat)
    (R : Nat → List Nat) : Elsewhere b h h' R R :=
  fun _ _ => ⟨rfl, fun p _ => congrFun (Heap.lenOf_congr s.pages) p⟩

/-- The pages of `b` are not longer than `n`, or than pages of it were. -/
def NoLonger (b n : Nat) (h h' : Heap) (R R' : Nat → List Nat) : Prop :=
  ∀ q ∈ R' b, h'.lenOf q ≤ n ∨ ∃ p ∈ R b, h'.lenOf q ≤ h.lenOf p

theorem NoLonger.refl (b n : Nat) (h : Heap) (R : Nat → List Nat) : NoLonger b n h h R R :=
  fun q hq => .inr ⟨q, hq, Nat.le_refl _⟩

theorem NoLonger.trans {m : Nat} {R' R'' : Nat → List Nat} (s : NoLonger b n h h' R R')
    (t : NoLonger b m h' h'' R' R'') (hm : m ≤ n) : NoLonger b n h h'' R R'' := by
  intro q hq
  rcases t q hq with hle | ⟨p, hp, hle⟩
  · exact .inl (Nat.le_trans hle hm)
  · rcases s p hp with hle' | ⟨p', hp', hle'⟩
    · exact .inl (Nat.le_trans hle hle')
    · exact .inr ⟨p', hp', Nat.le_trans hle hle'⟩

/-- Pages of `b` go, and others keep their length or lose some of it. -/
theorem NoLonger.of_subset {R' : Nat → List Nat} (hsub : R' b ⊆ R b)
    (hlen : ∀ q ∈ R b, h'.lenOf q ≤ h.lenOf q) : NoLonger b n h h' R R' :=
  fun q hq => .inr ⟨q, hsub hq, hlen q (hsub hq)⟩

theorem NoLonger.mono {m : Nat} {R' : Nat → List Nat} (s : NoLonger b n h h' R R')
    (hm : n ≤ m) : NoLonger b m h h' R R' :=
  fun q hq => (s q hq).imp (fun hle => Nat.le_trans hle hm) id

/-- An insertion into `b`: its pages are not longer than `n` or than pages of it
were, and the other rings are as they were. -/
structure InsertsUpTo (b n : Nat) (h h' : Heap) (R R' : Nat → List Nat) : Prop where
  target : NoLonger b n h h' R R'
  others : ∀ c, c ≠ b → R' c = R c

variable {it off : Nat} {k₁ k₂ : List Nat}

/-- Of the pages that were there, the one at the place of an insertion is cut at
the offset and the others keep their length. -/
def CutAt (it off : Nat) (h h' : Heap) : Prop :=
  ∀ p, p < h.next → h'.lenOf p = if p = it then h.lenOf it - min off (h.lenOf it) else h.lenOf p

theorem CutAt.of_same (hz : min off (h.lenOf it) = 0)
    (hlen : ∀ p, p < h.next → h'.lenOf p = h.lenOf p) : CutAt it off h h' := by
  intro p hp
  rw [hlen p hp]
  by_cases he : p = it
  · rw [if_pos he, he, hz, Nat.sub_zero]
  · rw [if_neg he]

/-- Where the lengths before the insertion are those of `h`. -/
theorem CutAt.after (c : CutAt it off h₁ h') (hle : h.next ≤ h₁.next) (hit : it < h.next)
    (hlen : ∀ p, p < h.next → h₁.lenOf p = h.lenOf p) : CutAt it off h h' := by
  intro p hp
  rw [c p (Nat.lt_of_lt_of_le hp hle), hlen it hit, hlen p hp]

/-- Linked pages are older than those to come. -/
theorem Links.ring_fresh (hl : Links h R F) {c : Nat} (hp : p ∈ R c) : p < h.next :=
  hl.fresh ((hl.live p).mpr (.inr (.inl ⟨c, hp⟩)))

/-- Splitting a page, or nothing if its second half cannot be allocated. -/
theorem returns_trivialBufferSplit (hl : Links h R F) (hb : (h.buffers b).isSome)
    (hR : R b = k₁ ++ it :: k₂) (hpos : 0 < off) (hle : off ≤ h.lenOf it)
    (hg : ∀ d, h.dataOf it = some d → G.split (h.lenOf it) off (h.refs d)) :
    Returns (trivialBufferSplit env it off) h (fun r h' => match r with
      | none => h' = h.refused
      | some y => PageStep G ⟨h, R, F⟩ ⟨h', update R b (k₁ ++ y :: it :: k₂), F⟩ ∧
          h.next ≤ y ∧ h'.lenOf = update (update h.lenOf y off) it (h.lenOf it - off)) := by
  have hitR : it ∈ R b := mem_cut hR
  have hitlt : it < h.next := hl.ring_fresh hitR
  have hne : it ≠ h.next := Nat.ne_of_lt hitlt
  unfold trivialBufferSplit
  refine returns_pageGetLen fun _ => Returns.bind (returns_pageTransfer hne _ _) ?_
  intro r h₁ hr
  cases r with
  | none => exact Returns.pure hr
  | some y =>
      obtain ⟨d, D, hd, hD, rfl, rfl⟩ := hr
      have hvec := Heap.vecOf_addPage (h := h) (v := ⟨(h.vecOf it).base.add 0, h.lenOf it⟩)
        (d := d) (D := D)
      have hbounds := Heap.boundsOf_addPage (h := h)
        (v := ⟨(h.vecOf it).base.add 0, h.lenOf it⟩) hD
      have hdata := Heap.dataOf_addPage (h := h) (v := ⟨(h.vecOf it).base.add 0, h.lenOf it⟩)
        (d := d) (D := D)
      have huses := Heap.usesOf_addPage (h := h) (v := ⟨(h.vecOf it).base.add 0, h.lenOf it⟩)
        (d := d) (D := D)
      have hl₁ : Links (h.addPage ⟨(h.vecOf it).base.add 0, h.lenOf it⟩ d D) R (h.next :: F) :=
        hl.newPage (Nat.le_refl _) (Nat.lt_succ_self _) Heap.pages_addPage (fun _ => rfl)
      have hbuf : (h.addPage ⟨(h.vecOf it).base.add 0, h.lenOf it⟩ d D).buffers = h.buffers := rfl
      have hnext : (h.addPage ⟨(h.vecOf it).base.add 0, h.lenOf it⟩ d D).next = h.next + 1 := rfl
      generalize h.addPage ⟨(h.vecOf it).base.add 0, h.lenOf it⟩ d D = h₁ at *
      have hvit : h₁.vecOf it = h.vecOf it := by rw [hvec, update_of_ne hne]
      have hlit : h₁.lenOf it = h.lenOf it := by rw [Heap.lenOf, hvit, Heap.lenOf]
      refine (cutPage_run hl₁ (by rw [hbuf]; exact hb) hR ?_).returns.mono ?_
      · rw [hvit, hvec, update_self]
        rfl
      · rintro _ h' ⟨rfl, e, hl', hv'⟩
        have hkind : h'.kindOf = h.kindOf := by
          funext c
          rw [Heap.kindOf, e.buffers, hbuf]
          rfl
        have hnext' : h'.next = h.next + 1 := by rw [e.rest, ← hnext]
        have huses' : h'.usesOf = h₁.usesOf := by rw [e.rest]; rfl
        have hbounds' : h'.boundsOf = h₁.boundsOf := by rw [e.rest]; rfl
        have ch : Change h h' (update (update h.vecOf h.next ⟨(h.vecOf it).base, off⟩) it
            ⟨(h.vecOf it).base.add off, h.lenOf it - off⟩) (update h.dataOf h.next (some d))
            (update h.usesOf d (some (u16Inc D.useCount))) := by
          refine ⟨?_, ?_, ?_, fun e _ => .inr ?_, hkind, by omega⟩
          · rw [hv', hlit, hvit, hvec, update_idem]
          · rw [e.dataOf, hdata]
          · rw [huses', huses]
          · rw [hbounds', hbounds]
        refine ⟨⟨.split (u := D.useCount) hb hR (Nat.le_refl _) (by omega) hd ?_ hpos hle
          (hg d hd) ch, hl'⟩, Nat.le_refl _, ch.len_split⟩
        rw [Heap.usesOf, hD]
        rfl

variable {l₁ l₂ : List Nat}

/-- Linking the page at a cut, and counting its bytes. -/
theorem returns_linkPage (hl : Links h R (x :: F)) (hb : (h.buffers b).isSome)
    (hR : R b = l₁ ++ l₂) :
    Returns (do
      linkPage (l₁.getLastD b) (l₂.headD b) x
      let len ← pageGetLen x
      trivialBufferIncrementDataSize b len
      pure len) h (fun k h' => k = h.lenOf x ∧ Change h h' h.vecOf h.dataOf h.usesOf ∧
        Links h' (update R b (l₁ ++ x :: l₂)) F) := by
  have hlast : l₁.getLastD b ∈ b :: R b := by
    rw [hR]
    exact List.cons_subset_cons b (List.subset_append_left l₁ l₂) (getLastD_mem b l₁)
  have hhead : l₂.headD b ∈ b :: R b := by
    rw [hR]
    exact List.cons_subset_cons b (List.subset_append_right l₁ l₂) (headD_mem b l₂)
  obtain ⟨h₁, hr₁, e, v₁, n₁, p₁⟩ := linkPage_run ((hl.live x).mpr (by simp))
    (hl.node_live hb hlast) (hl.node_live hb hhead)
  have hkind : h₁.kindOf = h.kindOf := by
    funext c
    rw [Heap.kindOf, e.buffers]
    rfl
  have huses : h₁.usesOf = h.usesOf := by rw [e.rest]; rfl
  have hbounds : h₁.boundsOf = h.boundsOf := by rw [e.rest]; rfl
  have hnext : h.next ≤ h₁.next := by rw [e.rest]
  have hch : Change h h₁ h.vecOf h.dataOf h.usesOf :=
    ⟨v₁, e.dataOf, huses, fun d _ => .inr (congrFun hbounds d), hkind, hnext⟩
  have hl₁ : Links h₁ (update R b (l₁ ++ x :: l₂)) F :=
    hl.link hR hb n₁ p₁ e.live e.buffers (by rw [e.rest])
  have hmod : Returns (trivialBufferIncrementDataSize b (h₁.lenOf x)) h₁
      (fun _ h' => Still h₁ h' h₁.datas) := by
    unfold trivialBufferIncrementDataSize
    refine returns_modifyBuffer (fun B => ?_) _
    rfl
  refine Returns.step hr₁ (returns_pageGetLen fun _ => Returns.bind hmod ?_)
  intro u h₂ s
  exact Returns.pure ⟨by rw [hch.len_same], hch.then_still s, hl₁.still s.pages s.kind s.next⟩

/-- Linking a page as a step. -/
theorem Change.link (ch : Change h h' h.vecOf h.dataOf h.usesOf) (hR : R b = l₁ ++ l₂)
    (hl : Links h' (update R b (l₁ ++ x :: l₂)) F) :
    PageStep G ⟨h, R, x :: F⟩ ⟨h', update R b (l₁ ++ x :: l₂), F⟩ ∧
      Elsewhere b h h' R (update R b (l₁ ++ x :: l₂)) :=
  ⟨⟨.link hR ch, hl⟩, Elsewhere.of_pages fun _ _ p _ => congrFun ch.len_same p⟩

/-- `pb_trivial_buffer_insert`, of a page that is not linked yet. If it returns
0 without having linked the page, the split was refused. -/
theorem returns_trivialBufferInsert (hl : Links h R (x :: F)) (ht : h.IsTrivial b)
    (hsent : h.lenOf b = 0) (hR : R b = k₁ ++ k₂) (hit : it = k₂.headD b)
    (hg : 0 < min off (h.lenOf it) → ∀ d, h.dataOf it = some d →
      G.split (h.lenOf it) (min off (h.lenOf it)) (h.refs d)) :
    Returns (trivialBufferInsert env b it off x) h (fun k h' =>
      (k = 0 ∧ Still h h' h.datas) ∨
      (k = h.lenOf x ∧ ∃ l₁ l₂,
        PageSteps G ⟨h, R, x :: F⟩ ⟨h', update R b (l₁ ++ x :: l₂), F⟩ ∧ it = l₂.headD b ∧
        R b ⊆ l₁ ++ l₂ ∧ CutAt it off h h' ∧
        NoLonger b (h.lenOf x) h h' R (update R b (l₁ ++ x :: l₂)) ∧
        Elsewhere b h h' R (update R b (l₁ ++ x :: l₂)))) := by
  unfold trivialBufferInsert
  refine Returns.bind (returns_trivialBufferInsertBump ht it) ?_
  intro u h₁ s₁
  have hl₁ : Links h₁ R (x :: F) := hl.still s₁.pages s₁.kind s₁.next
  have ht₁ : h₁.IsTrivial b := ht.congr s₁.kind
  have hb₁ := ht₁.isSome
  have hlen₁ : h₁.lenOf = h.lenOf := Heap.lenOf_congr s₁.pages
  have hitmem : it ∈ b :: R b := by
    rw [hR, hit]
    exact List.cons_subset_cons b (List.subset_append_right k₁ k₂) (headD_mem b k₂)
  have hstep₁ : PageStep G ⟨h, R, x :: F⟩ ⟨h₁, R, x :: F⟩ := s₁.step hl
  refine returns_pageGetLen fun _ => ?_
  have hclamp : (if off > h₁.lenOf it then h₁.lenOf it else off) = min off (h.lenOf it) := by
    rw [hlen₁]
    split <;> omega
  rw [hclamp]
  by_cases hz : min off (h.lenOf it) = 0
  · simp only [hz, ne_eq, not_true_eq_false, if_false]
    refine returns_getPage fun N hN => ?_
    have hNprev : N.prev = some (k₁.getLastD b) := by
      have hring := hl₁.ring hb₁
      rw [hR] at hring
      rw [← Heap.prevOf_eq hN, hit, hring.prev_cut]
    rw [hNprev, hit]
    refine (returns_linkPage hl₁ hb₁ hR).mono ?_
    intro k h' hk
    obtain ⟨rfl, ch, hl'⟩ := hk
    obtain ⟨hstep, he⟩ := ch.link (G := G) hR hl'
    refine .inr ⟨by rw [hlen₁], k₁, k₂, (Relation.ReflTransGen.single hstep₁).tail hstep, rfl, ?_,
      .of_same (hit ▸ hz) fun p _ => ?_, ?_, (s₁.elsewhere b R).trans he⟩
    · rw [hR]
      exact List.Subset.refl _
    · rw [ch.len_same, hlen₁]
    · intro q hq
      rw [ch.len_same, hlen₁]
      rw [update_self, List.mem_append, List.mem_cons] at hq
      rcases hq with hq | rfl | hq
      · exact .inr ⟨q, by rw [hR]; exact List.mem_append_left _ hq, Nat.le_refl _⟩
      · exact .inl (Nat.le_refl _)
      · exact .inr ⟨q, by rw [hR]; exact List.mem_append_right _ hq, Nat.le_refl _⟩
  · simp only [hz, ne_eq, not_false_eq_true, if_true]
    have hitb : it ≠ b := by
      rintro rfl
      omega
    have hitR : it ∈ R b := (List.mem_cons.mp hitmem).resolve_left hitb
    obtain ⟨k, rfl⟩ := exists_cons_of_headD hit (by
      rintro rfl
      exact hitb hit)
    refine Returns.bind (returns_trivialBufferSplit (G := G) hl₁ hb₁ hR
      (Nat.pos_of_ne_zero hz) (by rw [hlen₁]; exact Nat.min_le_right _ _) (fun d hd => ?_)) ?_
    · rw [Heap.dataOf_congr s₁.pages] at hd
      rw [hlen₁, Heap.refs_congr (Heap.dataOf_congr s₁.pages) s₁.next hl.fresh]
      exact hg (Nat.pos_of_ne_zero hz) d hd
    · intro r h₂ hr
      cases r with
      | none =>
          have hr' : h₂ = h₁.refused := hr
          refine Returns.pure (.inl ⟨rfl, s₁.then_same ?_⟩)
          rw [hr']
          exact ⟨rfl, rfl, rfl, Nat.le_refl _⟩
      | some y =>
          obtain ⟨hstep, hy, hlen₂⟩ := hr
          have hlen : ∀ p, p < h₁.next → p ≠ it → h₂.lenOf p = h₁.lenOf p := by
            intro p hp hpit
            rw [hlen₂, update_of_ne hpit, update_of_ne (by omega)]
          have he : Elsewhere b h₁ h₂ R (update R b (k₁ ++ y :: it :: k)) := by
            refine Elsewhere.of_pages fun c hc p hp => hlen p (hl₁.ring_fresh hp) ?_
            rintro rfl
            exact hc (hl.disj hp hitR)
          have hb₂ : (h₂.buffers b).isSome := by
            rw [Heap.buffers_isSome_congr hstep.effect.kind]
            exact hb₁
          have hR₂ : update R b (k₁ ++ y :: it :: k) b = (k₁ ++ [y]) ++ it :: k := by
            rw [update_self, List.append_assoc, List.singleton_append]
          have hlink := returns_linkPage hstep.links hb₂ hR₂
          rw [getLastD_concat, List.headD_cons] at hlink
          refine hlink.mono ?_
          intro k' h' hk
          obtain ⟨rfl, ch, hl'⟩ := hk
          obtain ⟨hstep', he'⟩ := ch.link (G := G) hR₂ hl'
          rw [update_idem] at hstep' he'
          have hx : h₂.lenOf x = h.lenOf x := by
            have hxlt := hl₁.fresh ((hl₁.live x).mpr (.inr (.inr List.mem_cons_self)))
            rw [hlen x hxlt, hlen₁]
            rintro rfl
            exact (hl.apart List.mem_cons_self).2 b hitR
          refine .inr ⟨hx, _, _, ((Relation.ReflTransGen.single hstep₁).tail hstep).tail hstep',
            rfl, ?_, ?_, ?_, ((s₁.elsewhere b R).trans he).trans he'⟩
          · intro p hp
            rw [hR] at hp
            simp only [List.mem_append, List.mem_cons] at hp ⊢
            tauto
          rotate_left
          · -- the two parts of the page are not longer than it was
            have hold : ∀ p ∈ R b, h'.lenOf p ≤ h.lenOf p := by
              intro p hp
              rw [ch.len_same]
              by_cases hpit : p = it
              · rw [hpit, hlen₂, update_self, hlen₁]
                exact Nat.sub_le _ _
              · rw [hlen p (hl₁.ring_fresh hp) hpit, hlen₁]
            have hynew : h'.lenOf y ≤ h.lenOf it := by
              have hyit : y ≠ it := by
                have := hl₁.ring_fresh hitR
                omega
              rw [ch.len_same, hlen₂, update_of_ne hyit, update_self]
              exact Nat.min_le_right _ _
            intro q hq
            rw [update_self] at hq
            simp only [List.append_assoc, List.mem_append, List.mem_cons, List.not_mem_nil,
              or_false] at hq
            rcases hq with hq | rfl | rfl | rfl | hq
            · have hqR : q ∈ R b := by rw [hR]; exact List.mem_append_left _ hq
              exact .inr ⟨q, hqR, hold q hqR⟩
            · exact .inr ⟨it, hitR, hynew⟩
            · exact .inl (by rw [ch.len_same, hx])
            · exact .inr ⟨q, hitR, hold q hitR⟩
            · have hqR : q ∈ R b := by rw [hR]; simp [hq]
              exact .inr ⟨q, hqR, hold q hqR⟩
          · intro p hp
            rw [ch.len_same]
            by_cases hpit : p = it
            · rw [if_pos hpit, hpit, hlen₂, update_self, hlen₁]
            · rw [if_neg hpit, hlen p (Nat.lt_of_lt_of_le hp s₁.next) hpit, hlen₁]

/-! ## Destroying and unlinking -/

/-- What the end of a page does to its data. -/
structure Gone (h h' : Heap) (x : Nat) : Prop where
  pages : h'.pages = update h.pages x none
  change : ∃ d u, h.dataOf x = some d ∧ h.usesOf d = some u ∧
    Change h h' (update h.vecOf x ⟨Ptr.null, 0⟩) (update h.dataOf x none)
      (update h.usesOf d (putUse u))

/-- `pb_page_destroy`. -/
theorem returns_pageDestroy (x : Nat) (h : Heap) :
    Returns (pageDestroy x) h (fun _ h' => Gone h h' x) := by
  unfold pageDestroy
  refine returns_getPage fun P hP => returns_deref fun d hd => ?_
  refine Returns.bind (returns_dataPut d h) ?_
  intro u h₁ hput
  obtain ⟨D, hD, s⟩ := hput
  have hlive : (h₁.pages x).isSome := by rw [s.pages, hP]; rfl
  refine Returns.of_run (freePage_run hlive) ⟨?_, d, D.useCount, by rw [Heap.dataOf_eq hP, hd],
    ?_, ?_, ?_, ?_, fun e _ => ?_, s.kind, s.next⟩
  · rw [Heap.pages_setPage, s.pages]
  · rw [Heap.usesOf, hD]
    rfl
  · rw [Heap.vecOf_setPage, Heap.vecOf_congr s.pages]
    rfl
  · rw [Heap.dataOf_setPage, Heap.dataOf_congr s.pages]
    rfl
  · have huses : h₁.usesOf = update h.usesOf d (putUse D.useCount) := by
      rw [Heap.usesOf_update s.datas, Data.map_put]
      rfl
    exact huses
  · exact bounds_put hD s.datas e

theorem Links.gone (hl : Links h R (x :: F)) (g : Gone h h' x) : Links h' R F := by
  obtain ⟨d, u, -, -, c⟩ := g.change
  -- the page goes from a heap with the counters of the new one
  have hmid : Links { h with next := h'.next, buffers := h'.buffers } R (x :: F) :=
    hl.congr rfl rfl (Heap.buffers_isSome_congr c.kind) (fun _ => rfl) c.next
  exact hmid.unflight g.pages rfl rfl

/-- A page in flight is destroyed. -/
theorem Gone.destroy (g : Gone h h' x) (hl : Links h R (x :: F)) :
    PageStep G ⟨h, R, x :: F⟩ ⟨h', R, F⟩ := by
  obtain ⟨d, u, hd, hu, c⟩ := g.change
  exact ⟨.destroy hd hu c, hl.gone g⟩

/-- New bounds for a page. -/
theorem setBounds_run {P : Page} {f : Page → Page} (hP : h.pages p = some P)
    (hf : f P = { P with dataVec := (f P).dataVec }) :
    ∃ h', modifyPage p f h = .ok ((), h') ∧
      Change h h' (update h.vecOf p (f P).dataVec) h.dataOf h.usesOf ∧
      h'.nextOf = h.nextOf ∧ h'.prevOf = h.prevOf ∧
      (∀ q, (h'.pages q).isSome = (h.pages q).isSome) := by
  have hdata : (f P).data = P.data := by rw [hf]
  have hnext : (f P).next = P.next := by rw [hf]
  have hprev : (f P).prev = P.prev := by rw [hf]
  refine ⟨_, modifyPage_run hP f, ⟨Heap.vecOf_setPage, ?_, rfl, fun _ _ => .inr rfl, rfl,
    Nat.le_refl _⟩, ?_, ?_, ?_⟩
  · rw [Heap.dataOf_setPage, Option.bind_some, hdata, ← Heap.dataOf_eq hP, update_eq_self]
  · rw [Heap.nextOf_setPage, Option.bind_some, hnext, ← Heap.nextOf_eq hP, update_eq_self]
  · rw [Heap.prevOf_setPage, Option.bind_some, hprev, ← Heap.prevOf_eq hP, update_eq_self]
  · intro q
    rw [Heap.pages_setPage]
    rcases eq_or_ne q p with rfl | hne
    · rw [update_self, hP]
      rfl
    · rw [update_of_ne hne]

/-- A page is taken out of its ring and destroyed. -/
theorem returns_unlinkPage (hl : Links h R F) (hb : (h.buffers b).isSome)
    (hR : R b = l₁ ++ p :: l₂) :
    Returns (unlinkPage p) h (fun _ h' => Links h' (update R b (l₁ ++ l₂)) F ∧
      ∃ d u, h.dataOf p = some d ∧ h.usesOf d = some u ∧
        Change h h' (update h.vecOf p ⟨Ptr.null, 0⟩) (update h.dataOf p none)
          (update h.usesOf d (putUse u))) := by
  have hpR : p ∈ R b := mem_cut hR
  have hlast : l₁.getLastD b ∈ b :: R b := by
    rw [hR]
    exact List.cons_subset_cons b (List.subset_append_left _ _) (getLastD_mem b l₁)
  have hhead : l₂.headD b ∈ b :: R b := by
    rw [hR]
    exact List.cons_subset_cons b (fun p hp => by simp [hp]) (headD_mem b l₂)
  have hring := hl.ring hb
  rw [hR] at hring
  obtain ⟨P, hP⟩ := Option.isSome_iff_exists.mp (hl.node_live hb (List.mem_cons_of_mem b hpR))
  have hprv : P.prev = some (l₁.getLastD b) := by rw [← Heap.prevOf_eq hP, hring.prev_mem]
  have hnxt : P.next = some (l₂.headD b) := by rw [← Heap.nextOf_eq hP, hring.next_mem]
  obtain ⟨h₁, hr₁, e₁, v₁, n₁, p₁⟩ := setNext_run (h := h) (hl.node_live hb hlast)
    (some (l₂.headD b))
  obtain ⟨h₂, hr₂, e₂, v₂, n₂, p₂⟩ := setPrev_run (h := h₁) (p := l₂.headD b)
    (by rw [e₁.live]; exact hl.node_live hb hhead) P.prev
  obtain ⟨h₃, hr₃, e₃, v₃, n₃, p₃⟩ := setLinks_run (h := h₂) (p := p)
    (by rw [e₂.live, e₁.live, hP]; rfl) none none
  have e : Edited h h₃ := e₁.trans (e₂.trans e₃)
  have hv : h₃.vecOf = h.vecOf := v₃.trans (v₂.trans v₁)
  have huses : h₃.usesOf = h.usesOf := by rw [e.rest]; rfl
  have hbounds : h₃.boundsOf = h.boundsOf := by rw [e.rest]; rfl
  have hnext : h₃.next = h.next := by rw [e.rest]
  have hkind : h₃.kindOf = h.kindOf := by
    funext c
    rw [Heap.kindOf, e.buffers]
    rfl
  have hl₃ : Links h₃ (update R b (l₁ ++ l₂)) (p :: F) := by
    refine hl.unlink hR hb ?_ ?_ e.live e.buffers (by rw [e.rest])
    · rw [n₃, n₂, n₁]
    · rw [p₃, p₂, p₁, hprv]
  unfold unlinkPage
  refine Returns.step (getPage_run hP) (Returns.step (deref_run hnxt) ?_)
  refine Returns.step (deref_run hprv) (Returns.step hr₁ (Returns.step hr₂ (Returns.step hr₃ ?_)))
  refine (returns_pageDestroy p h₃).mono fun _ h' g => ⟨hl₃.gone g, ?_⟩
  obtain ⟨d, u, hd, hu, c⟩ := g.change
  have hb := c.bounds
  rw [hv, e.dataOf, huses] at c
  rw [hbounds, hnext] at hb
  exact ⟨d, u, by rw [← e.dataOf, hd], by rw [← huses, hu], c.vec, c.data, c.uses, hb,
    c.kind.trans hkind, hnext ▸ c.next⟩

theorem returns_unlinkPage_step (hl : Links h R F) (hb : (h.buffers b).isSome)
    (hR : R b = l₁ ++ p :: l₂) :
    Returns (unlinkPage p) h (fun _ h' =>
      PageStep G ⟨h, R, F⟩ ⟨h', update R b (l₁ ++ l₂), F⟩) := by
  refine (returns_unlinkPage hl hb hR).mono fun _ h' hpost => ?_
  obtain ⟨hl', d, u, hd, hu, c⟩ := hpost
  exact ⟨.drop hb hR hd hu c, hl'⟩

/-- The end of a page from which all bytes were taken. -/
theorem returns_unlinkEmpty {v : DataVec} (hl : Links h R F)
    (hb : (h.buffers b).isSome) (hR : R b = l₁ ++ p :: l₂)
    (hn : h₁.nextOf = h.nextOf) (hp : h₁.prevOf = h.prevOf)
    (hs : ∀ q, (h₁.pages q).isSome = (h.pages q).isSome)
    (c : Change h h₁ (update h.vecOf p v) h.dataOf h.usesOf) :
    Returns (unlinkPage p) h₁ (fun _ h' =>
      PageStep G ⟨h, R, F⟩ ⟨h', update R b (l₁ ++ l₂), F⟩) := by
  have hl₁ : Links h₁ R F := hl.congr hn hp (Heap.buffers_isSome_congr c.kind) hs c.next
  have hb₁ : (h₁.buffers b).isSome := by rwa [Heap.buffers_isSome_congr c.kind]
  refine (returns_unlinkPage hl₁ hb₁ hR).mono fun _ h' hpost => ?_
  obtain ⟨hl', d, u, hd, hu, c'⟩ := hpost
  rw [c.data] at hd
  rw [c.uses] at hu
  refine ⟨.drop hb hR hd hu ⟨?_, ?_, ?_, fun e he => ?_, c'.kind.trans c.kind,
    Nat.le_trans c.next c'.next⟩, hl'⟩
  · rw [c'.vec, c.vec, update_idem]
  · rw [c'.data, c.data]
  · rw [c'.uses, c.uses]
  · rcases c'.bounds e (Nat.lt_of_lt_of_le he c.next) with hnone | hsame
    · exact .inl hnone
    · rw [hsame]
      exact c.bounds e he

/-! ## Data of its own -/

/-- `pb_page_set_data` of a page with data. -/
theorem returns_pageSetData {P : Page} {e : Nat} (hP : h.pages p = some P)
    (he : P.data = some e) :
    Returns (pageSetData p d) h (fun _ h' => ∃ E D, h.datas e = some E ∧
      update h.datas e E.put d = some D ∧
      h'.pages = update h.pages p (some { P with dataVec := D.dataVec, data := some d }) ∧
      h'.datas = update (update h.datas e E.put) d
        (some { D with useCount := u16Inc D.useCount }) ∧
      h'.kindOf = h.kindOf ∧ h.next ≤ h'.next) := by
  unfold pageSetData
  refine Returns.step (getPage_run hP) ?_
  rw [he]
  refine Returns.bind (returns_dataPut e h) ?_
  intro u h₁ hput
  obtain ⟨E, hE, s⟩ := hput
  have hP₁ : h₁.pages p = some P := by rw [s.pages, hP]
  refine returns_getData fun D hD => Returns.step (modifyPage_run hP₁ _) ?_
  refine (returns_dataGet d _).mono fun _ h' hget => ?_
  obtain ⟨D', hD', s'⟩ := hget
  have hsame : D' = D := by
    have : h₁.datas d = some D' := hD'
    rw [hD] at this
    exact (Option.some.inj this).symm
  refine ⟨E, D, hE, by rw [← s.datas, hD], ?_, ?_, s'.kind.trans s.kind,
    Nat.le_trans s.next s'.next⟩
  · rw [s'.pages, Heap.pages_setPage, s.pages]
  · rw [s'.datas, hsame]
    show update h₁.datas d _ = _
    rw [s.datas]

/-- `pb_trivial_buffer_dup_page_data` of a linked page. -/
theorem returns_trivialBufferDupPageData {e : Nat} (hl : Links h R F)
    (hb : (h.buffers b).isSome) (hp : p ∈ R b) (hpe : h.dataOf p = some e) :
    Returns (trivialBufferDupPageData env b p) h (fun _ h' =>
      PageStep G ⟨h, R, F⟩ ⟨h', R, F⟩) := by
  unfold trivialBufferDupPageData
  refine returns_getBuffer fun B _ => returns_getPage fun P hP => ?_
  refine Returns.bind (returns_trivialDataCreate env h P.dataVec.len _) ?_
  intro r h₁ hr
  cases r with
  | none => exact Returns.pure (Still.step hr hl)
  | some d =>
      obtain ⟨D, nd⟩ := hr
      refine returns_getData fun D₁ _ => Returns.bind (returns_memRead _ _ h₁) ?_
      intro bs h₂ s₂
      refine Returns.bind (returns_memWrite _ bs h₂) ?_
      intro u h₃ s₃
      have s : Still h h₃ (update h.datas d (some D)) := (nd.still.then_same s₂).then_same s₃
      have hP₃ : h₃.pages p = some P := by rw [s.pages, hP]
      have hdlt : d < h₃.next :=
        Nat.lt_of_lt_of_le nd.next (Nat.le_trans s₂.next s₃.next)
      have he : P.data = some e := by rw [← Heap.dataOf_eq hP, hpe]
      refine Returns.bind (returns_pageSetData hP₃ he) ?_
      intro u h₄ hset
      obtain ⟨E, D₄, hE, hD₄, hpages, hdatas, hkind, hnext⟩ := hset
      -- the old data is not the new one: that would have gone
      have hed : e ≠ d := by
        rintro rfl
        rw [s.datas, update_self] at hE
        cases hE
        rw [update_self, Data.put, nd.count] at hD₄
        cases hD₄
      rw [update_of_ne hed.symm, s.datas, update_self] at hD₄
      cases hD₄
      rw [s.datas, update_of_ne hed] at hE
      refine Returns.bind (returns_dataPut d h₄) ?_
      intro u h₅ hput
      obtain ⟨D₅, hD₅, s₅⟩ := hput
      rw [hdatas, update_self, nd.count] at hD₅
      cases hD₅
      have hvec : h₅.vecOf = update h.vecOf p D.dataVec := by
        rw [Heap.vecOf_congr s₅.pages, Heap.vecOf_congr (h := h₃.setPage p _) hpages,
          Heap.vecOf_setPage, Heap.vecOf_congr s.pages]
        rfl
      have hlen : D.dataVec.len = h.lenOf p := by rw [nd.len, ← Heap.vecOf_eq hP, Heap.lenOf]
      have hdata : h₅.dataOf = update h.dataOf p (some d) := by
        rw [Heap.dataOf_congr s₅.pages, Heap.dataOf_congr (h := h₃.setPage p _) hpages,
          Heap.dataOf_setPage, Heap.dataOf_congr s.pages]
        rfl
      have huses : h₅.usesOf
          = update (update h.usesOf e (putUse E.useCount)) d (some 1) := by
        rw [Heap.usesOf_update s₅.datas, hdatas, s.datas]
        funext a
        rcases eq_or_ne a d with rfl | hne
        · rw [update_self, update_self]
          rfl
        · rw [update_of_ne hne, update_of_ne hne, update_of_ne hne]
          rcases eq_or_ne a e with rfl | hne'
          · rw [update_self, update_self, Data.map_put]
          · rw [update_of_ne hne', update_of_ne hne', update_of_ne hne]
            rfl
      have hkind₅ : h₅.kindOf = h.kindOf := s₅.kind.trans (hkind.trans s.kind)
      have hnext₅ : h₃.next ≤ h₅.next := Nat.le_trans hnext s₅.next
      have hbounds : ∀ a, a < h.next → h₅.boundsOf a = none ∨ h₅.boundsOf a = h.boundsOf a := by
        intro a ha
        have had : a ≠ d := Nat.ne_of_lt (Nat.lt_of_lt_of_le ha nd.fresh)
        have hE₃ : h₃.datas e = some E := by rw [s.datas, update_of_ne hed, hE]
        have h₅₃ : h₅.boundsOf a = (update h₃.datas e E.put a).map Data.dataVec := by
          rw [Heap.boundsOf, s₅.datas, hdatas, update_of_ne had, update_of_ne had]
        have hput := @bounds_put h₃ { h₃ with datas := update h₃.datas e E.put } e E hE₃ rfl a
        rw [h₅₃, ← bounds_update s.datas rfl had]
        exact hput
      refine Returns.pure ⟨.dup (u := E.useCount) (v := D.dataVec) hb hp ?_ ?_ hed nd.fresh
        (Nat.lt_of_lt_of_le hdlt hnext₅) hlen ?_ ⟨hvec, hdata, huses, hbounds, hkind₅,
          Nat.le_trans s.next hnext₅⟩, ?_⟩
      · rw [Heap.dataOf_eq hP, he]
      · rw [Heap.usesOf, hE]
        rfl
      · rw [Heap.boundsOf, s₅.datas, update_self]
        rfl
      · have hn : h₅.nextOf = h.nextOf := by
          rw [Heap.nextOf_congr s₅.pages, Heap.nextOf_congr (h := h₃.setPage p _) hpages,
            Heap.nextOf_setPage, Heap.nextOf_congr s.pages]
          show update h.nextOf p P.next = _
          rw [← Heap.nextOf_eq hP, update_eq_self]
        have hpv : h₅.prevOf = h.prevOf := by
          rw [Heap.prevOf_congr s₅.pages, Heap.prevOf_congr (h := h₃.setPage p _) hpages,
            Heap.prevOf_setPage, Heap.prevOf_congr s.pages]
          show update h.prevOf p P.prev = _
          rw [← Heap.prevOf_eq hP, update_eq_self]
        refine hl.congr hn hpv (Heap.buffers_isSome_congr hkind₅) (fun q => ?_)
          (Nat.le_trans s.next hnext₅)
        rw [s₅.pages, hpages, s.pages]
        rcases eq_or_ne q p with rfl | hne
        · rw [update_self, hP]
          rfl
        · rw [update_of_ne hne]

end Pb
