import PageBuf.Invariant.Congr

/-!
# Objects — creating data and pages

Every function that creates a `pb_data` or a `pb_page` has one lemma here: it
runs without a fault, and the invariant it leaves says where the reference it
made has gone.
-/

namespace Pb

open StateRun Function Ring RefCount

variable {env : Env} {h h' : Heap} {R : Nat → List Nat} {F X : List Nat} {d x : Nat}
  {D : Data} {v : DataVec}

/-! ## Requests -/

theorem Idle.granted (h : Heap) : Idle h h.granted :=
  { Idle.refl h with next := Nat.le_succ _ }

theorem Idle.refused (h : Heap) : Idle h h.refused := { Idle.refl h with }

/-- A change that leaves the buffers and the pages in `P` as they are. -/
structure Quiet (P : Nat → Prop) (h h' : Heap) : Prop where
  world : World h h'
  buffers : h'.buffers = h.buffers
  same : ∀ {p}, P p → Same h h' p

theorem Quiet.refl (P : Nat → Prop) (h : Heap) : Quiet P h h :=
  ⟨World.refl h, rfl, fun _ => Same.refl h _⟩

theorem Quiet.trans {P : Nat → Prop} {h'' : Heap} (q : Quiet P h h') (q' : Quiet P h' h'') :
    Quiet P h h'' :=
  ⟨q.world.trans q'.world, q'.buffers.trans q.buffers, fun hp => (q.same hp).trans (q'.same hp)⟩

theorem Quiet.mono {P Q : Nat → Prop} (q : Quiet P h h') (hpq : ∀ {p}, Q p → P p) :
    Quiet Q h h' :=
  ⟨q.world, q.buffers, fun hp => q.same (hpq hp)⟩

theorem Idle.same (i : Idle h h') (hm : h'.mem = h.mem) (p : Nat) : Same h h' p where
  vec := congrFun (Heap.vecOf_congr i.pages) p
  data := congrFun (Heap.dataOf_congr i.pages) p
  bytes := by
    simp only [Heap.pageBytes, Heap.lenOf, Heap.vecOf_congr i.pages]
    exact Heap.bytes_congr (Heap.byteAt_congr (by rw [hm]) i.mappings i.files)

theorem Quiet.granted (P : Nat → Prop) (h : Heap) : Quiet P h h.granted :=
  ⟨(Idle.granted h).world, rfl, fun _ => (Idle.granted h).same rfl _⟩

theorem Quiet.refused (P : Nat → Prop) (h : Heap) : Quiet P h h.refused :=
  ⟨(Idle.refused h).world, rfl, fun _ => (Idle.refused h).same rfl _⟩

/-! ## Creating data -/

/-- `d` is a new `pb_data` with one reference, and its block is new as well
if it owns one. -/
structure NewData (h h' : Heap) (d : Nat) (D : Data) : Prop where
  next : h.next ≤ d
  next' : d < h'.next
  pages : h'.pages = h.pages
  buffers : h'.buffers = h.buffers
  datas : h'.datas = update h.datas d (some D)
  mem : h'.mem = h.mem
  callerLen : h'.callerLen = h.callerLen
  mmapAllocators : h'.mmapAllocators = h.mmapAllocators
  mappings : h'.mappings = h.mappings
  files : h'.files = h.files
  useCount : D.useCount = 1
  operations : D.operations = .trivial
  region :
    (D.responsibility = .owned ∧ ∃ n, D.dataVec.base = ⟨.heap n, 0⟩ ∧ h.next ≤ n ∧
      n < h'.next ∧ h'.blocks = update h.blocks n (some D.dataVec.len)) ∨
    (D.responsibility = .referenced ∧ (∃ k, D.dataVec.base.region = .caller k) ∧
      h'.blocks = h.blocks)

namespace NewData

variable (nd : NewData h h' d D)

include nd

theorem le : h.next ≤ h'.next := Nat.le_trans nd.next (Nat.le_of_lt nd.next')

theorem kind : h'.kindOf = h.kindOf := by
  funext b
  simp [Heap.kindOf, nd.buffers]

theorem shape : h'.shapeOf = update h.shapeOf d (some D.shape) := by
  funext e
  rcases eq_or_ne e d with rfl | he <;> simp [Heap.shapeOf, nd.datas, *]

theorem quiet (P : Nat → Prop) : Quiet P h h' where
  world :=
    { caller := fun k => by rw [nd.mem]
      callerLen := nd.callerLen
      files := nd.files
      next := nd.le
      page := fun hp _ => by rwa [nd.pages] at hp
      data := fun {e s} hs hlt => by
        have := nd.next
        rwa [nd.shape, update_of_ne (by omega)] at hs
      block := fun {m k} hm hlt => by
        rcases nd.region with ⟨-, n, -, hle, -, hb⟩ | ⟨-, -, hb⟩
        · rwa [hb, update_of_ne (by omega)] at hm
        · rwa [hb] at hm
      mapped := fun {e s} hs ho => by
        rw [nd.shape] at hs
        rcases eq_or_ne e d with rfl | he
        · rw [update_self] at hs
          cases hs
          exact absurd nd.operations ho
        · rwa [update_of_ne he] at hs
      mapping := fun hM => by rwa [nd.mappings] at hM
      allocator := fun hA => by
        rw [nd.mmapAllocators] at hA
        exact ⟨_, hA, rfl, rfl⟩ }
  buffers := nd.buffers
  same := fun {p} _ =>
    { vec := congrFun (Heap.vecOf_congr nd.pages) p
      data := congrFun (Heap.dataOf_congr nd.pages) p
      bytes := by
        simp only [Heap.pageBytes, Heap.lenOf, Heap.vecOf_congr nd.pages]
        exact Heap.bytes_congr (Heap.byteAt_congr (by rw [nd.mem]) nd.mappings nd.files) }

theorem shape_of_ne {e : Nat} {s : Shape} (hs : h'.shapeOf e = some s) (he : e ≠ d) :
    h.shapeOf e = some s := by
  rwa [nd.shape, update_of_ne he] at hs

/-- The region of the new data is that of no older one, unless it is the
caller's. -/
theorem region_new {c : Nat → Nat} (ho : Objs h c) (ha : Allocs h) {e : Nat} {s : Shape}
    (hs : h.shapeOf e = some s) (hr : s.dataVec.base.region = D.dataVec.base.region) :
    ∃ k, D.dataVec.base.region = .caller k := by
  rcases nd.region with ⟨-, n, hb, hn, -, -⟩ | ⟨-, hk, -⟩
  · exfalso
    rw [hb] at hr
    cases hop : s.operations with
    | trivial =>
        cases hresp : s.responsibility with
        | owned =>
            obtain ⟨m, hm, hblock⟩ := ho.owned hs hop hresp
            have hmn : m = n := by
              rw [hm] at hr
              simpa using hr
            have := ho.freshBlock (n := n) (by rw [← hmn, hblock]; rfl)
            omega
        | referenced =>
            obtain ⟨k, hk⟩ := ho.referenced hs hop hresp
            rw [hk] at hr
            simp at hr
    | mmap a off ob =>
        obtain ⟨m, M, A, hm, -⟩ := ha.mapped hs hop
        rw [hm] at hr
        simp at hr
  · exact hk

theorem objs {c c' : Nat → Nat} (ho : Objs h c) (ha : Allocs h) (hd : c' d = 1)
    (hc : ∀ e, e ≠ d → c' e = c e) : Objs h' c' where
  live := fun e => by
    rw [nd.shape]
    rcases eq_or_ne e d with rfl | he
    · simp [hd]
    · rw [update_of_ne he, hc e he]
      exact ho.live e
  count := fun {e E} hE => by
    rw [nd.datas] at hE
    rcases eq_or_ne e d with rfl | he
    · rw [update_self] at hE
      cases hE
      rw [hd, nd.useCount]
    · rw [update_of_ne he] at hE
      rw [hc e he]
      exact ho.count hE
  owned := fun {e s} hs hop hr => by
    rcases eq_or_ne e d with rfl | he
    · rw [nd.shape, update_self] at hs
      cases hs
      rcases nd.region with ⟨-, n, hb, -, -, hbl⟩ | ⟨href, -⟩
      · exact ⟨n, hb, by rw [hbl, update_self]; rfl⟩
      · exact absurd (hr.symm.trans href) (by simp)
    · obtain ⟨n, hn, hbl⟩ := ho.owned (nd.shape_of_ne hs he) hop hr
      refine ⟨n, hn, ?_⟩
      have hfresh := ho.freshBlock (n := n) (by rw [hbl]; rfl)
      rcases nd.region with ⟨-, m, -, hm, -, hbl'⟩ | ⟨-, -, hbl'⟩
      · rw [hbl', update_of_ne (by omega)]
        exact hbl
      · rw [hbl']
        exact hbl
  referenced := fun {e s} hs hop hr => by
    rcases eq_or_ne e d with rfl | he
    · rw [nd.shape, update_self] at hs
      cases hs
      rcases nd.region with ⟨howned, -⟩ | ⟨-, hk, -⟩
      · exact absurd (hr.symm.trans howned) (by simp)
      · exact hk
    · exact ho.referenced (nd.shape_of_ne hs he) hop hr
  owner := fun {n} hn => by
    have hold : (h.blocks n).isSome → ∃ e s, h'.shapeOf e = some s ∧
        s.operations = .trivial ∧ s.dataVec.base.region = .heap n := by
      intro hn'
      obtain ⟨e, s, hs, hrest⟩ := ho.owner hn'
      have he : e ≠ d := by
        rintro rfl
        have := ho.freshData (d := e) (by rw [hs]; rfl)
        have := nd.next
        omega
      exact ⟨e, s, by rw [nd.shape, update_of_ne he, hs], hrest⟩
    rcases nd.region with ⟨-, m, hb, -, -, hbl⟩ | ⟨-, -, hbl⟩
    · rcases eq_or_ne n m with rfl | hne
      · refine ⟨d, D.shape, by rw [nd.shape, update_self], nd.operations, ?_⟩
        show D.dataVec.base.region = _
        rw [hb]
      · rw [hbl, update_of_ne hne] at hn
        exact hold hn
    · rw [hbl] at hn
      exact hold hn
  excl := fun {e e' s s'} hs hs' hr => by
    rcases eq_or_ne e d with rfl | he
    · rcases eq_or_ne e' e with rfl | he'
      · exact .inr rfl
      · rw [nd.shape, update_self] at hs
        cases hs
        exact .inl (nd.region_new ho ha (nd.shape_of_ne hs' he') hr.symm)
    · rcases eq_or_ne e' d with rfl | he'
      · rw [nd.shape, update_self] at hs'
        cases hs'
        obtain ⟨k, hk⟩ := nd.region_new ho ha (nd.shape_of_ne hs he) hr
        exact .inl ⟨k, hr.trans hk⟩
      · exact ho.excl (nd.shape_of_ne hs he) (nd.shape_of_ne hs' he') hr
  freshData := fun {e} he => by
    rcases eq_or_ne e d with rfl | hne
    · exact nd.next'
    · rw [nd.shape, update_of_ne hne] at he
      exact Nat.lt_of_lt_of_le (ho.freshData he) nd.le
  freshBlock := fun {n} hn => by
    have := nd.le
    rcases nd.region with ⟨-, m, -, -, hm, hbl⟩ | ⟨-, -, hbl⟩
    · rcases eq_or_ne n m with rfl | hne
      · exact hm
      · rw [hbl, update_of_ne hne] at hn
        exact Nat.lt_of_lt_of_le (ho.freshBlock hn) this
    · rw [hbl] at hn
      exact Nat.lt_of_lt_of_le (ho.freshBlock hn) this

theorem mapsSame {c : Nat → Nat} (ho : Objs h c) : Heap.MapsSame h h' := by
  intro e s hop
  rcases eq_or_ne e d with rfl | he
  · rw [nd.shape, update_self]
    constructor
    · intro hs
      cases hs
      exact absurd nd.operations hop
    · intro hs
      have := ho.freshData (d := e) (by rw [hs]; rfl)
      have := nd.next
      omega
  · rw [nd.shape, update_of_ne he]

theorem core (hc : Core h R F X) : Core h' R F (d :: X) where
  links := hc.links.congr (Heap.nextOf_congr nd.pages) (Heap.prevOf_congr nd.pages)
    (fun b => by rw [nd.buffers]) (fun p => by rw [nd.pages]) nd.le
  views := hc.views.congr (Heap.dataOf_congr nd.pages) (Heap.vecOf_congr nd.pages)
    (fun b => by rw [nd.buffers]) (fun p => by rw [nd.pages])
    (fun {p e s} hp hs => by
      obtain ⟨s', hs'⟩ := hc.data_live hp
      refine nd.shape_of_ne hs ?_
      rintro rfl
      have := hc.objs.freshData (d := e) (by rw [hs']; rfl)
      have := nd.next
      omega)
  objs := by
    have hrefs := Heap.refs_congr (Heap.dataOf_congr nd.pages) nd.le hc.links.fresh
    have hzero : h.count X d = 0 := by
      by_contra hn
      have := hc.objs.freshData ((hc.objs.live d).mpr (by omega))
      have := nd.next
      omega
    refine nd.objs hc.objs hc.allocs ?_ (fun e he => ?_)
    · simp only [Heap.count, hrefs, List.count_cons_self] at hzero ⊢
      omega
    · simp only [Heap.count, hrefs, List.count_cons_of_ne he.symm]
  allocs := hc.allocs.congr (nd.mapsSame hc.objs) nd.mmapAllocators nd.mappings
    (Heap.allocRefs_congr (nd.mapsSame hc.objs) nd.kind nd.le hc.objs.freshData
      hc.links.buffer_fresh) nd.le
  writable := hc.writable.congr (Heap.dataOf_congr nd.pages) (Heap.vecOf_congr nd.pages)
    nd.kind (fun {p e s} _ hs => by
      rw [nd.shape, update_of_ne]
      · exact hs
      · rintro rfl
        have := hc.objs.freshData (d := e) (by rw [hs]; rfl)
        have := nd.next
        omega)

end NewData

theorem allocatorMalloc_cases (env : Env) (h : Heap) (size : Nat) :
    (env.grants h.calls = true ∧ allocatorMalloc env .trivial size h
        = .ok (some ⟨.heap h.next, 0⟩, h.granted.setBlock h.next (some size))) ∨
      (env.grants h.calls = false ∧
        allocatorMalloc env .trivial size h = .ok (none, h.refused)) := by
  rcases request_cases env h with ⟨hg, hrun⟩ | ⟨hg, hrun⟩
  · exact .inl ⟨hg, (bind_run hrun).trans rfl⟩
  · exact .inr ⟨hg, (bind_run hrun).trans rfl⟩

theorem allocatorFree_run {n : Nat} (hn : (h.blocks n).isSome) :
    allocatorFree ⟨.heap n, 0⟩ h = .ok ((), h.setBlock n none) := by
  simp [allocatorFree, hn]

/-- A request was made in vain. -/
def Refused (env : Env) : Prop := ∃ k, env.grants k = false

/-- `pb_trivial_data_create`: a new block and a new `pb_data`, or neither. -/
theorem trivialDataCreate_spec (hc : Core h R F X) (len : Nat) :
    Yields (trivialDataCreate env len .trivial) h (fun r h' => match r with
      | none => Refused env ∧ Idle h h' ∧ h'.mem = h.mem ∧ h'.buffers = h.buffers
      | some d => ∃ n, NewData h h' d ⟨⟨⟨.heap n, 0⟩, len⟩, .owned, 1, .trivial⟩) := by
  unfold trivialDataCreate
  rcases allocatorMalloc_cases env h len with ⟨-, hrun⟩ | ⟨hg, hrun⟩
  · refine Yields.step hrun ?_
    dsimp only
    have hfresh : h.blocks h.next = none := by
      by_contra hn
      exact absurd (hc.objs.freshBlock (Option.isSome_iff_ne_none.mpr hn)) (by omega)
    rcases request_cases env (h.granted.setBlock h.next (some len)) with ⟨-, hrun⟩ | ⟨hg, hrun⟩
    · refine Yields.step hrun (Yields.step (modify_run _) (yields_pure.mpr ⟨h.next, ?_⟩))
      exact
        { next := Nat.le_succ _
          next' := Nat.lt_succ_self _
          pages := rfl, buffers := rfl, datas := rfl, mem := rfl, callerLen := rfl
          mmapAllocators := rfl, mappings := rfl, files := rfl, useCount := rfl
          operations := rfl
          region := .inl ⟨rfl, h.next, rfl, Nat.le_refl _, by
            show h.next < h.next + 1 + 1
            omega, rfl⟩ }
    · refine Yields.step hrun (Yields.step (allocatorFree_run ?_) ?_)
      · simp [Heap.refused, Heap.setBlock]
      · refine yields_pure.mpr ⟨⟨_, hg⟩, ?_, rfl, rfl⟩
        refine { Idle.refl h with next := Nat.le_succ _, blocks := ?_ }
        simp [Heap.refused, Heap.setBlock, Heap.granted, ← hfresh]
  · exact Yields.step hrun (yields_pure.mpr ⟨⟨_, hg⟩, Idle.refused h, rfl, rfl⟩)

/-- `pb_trivial_data_create_ref`. -/
theorem trivialDataCreateRef_spec {buf : Ptr} {k : Nat} (hk : buf.region = .caller k)
    (len : Nat) :
    Yields (trivialDataCreateRef env buf len) h (fun r h' => match r with
      | none => Refused env ∧ Idle h h' ∧ h'.mem = h.mem ∧ h'.buffers = h.buffers
      | some d => NewData h h' d ⟨⟨buf, len⟩, .referenced, 1, .trivial⟩) := by
  unfold trivialDataCreateRef
  rcases request_cases env h with ⟨-, hrun⟩ | ⟨hg, hrun⟩
  · refine Yields.step hrun (Yields.step (modify_run _) (yields_pure.mpr ?_))
    exact
      { next := Nat.le_refl _
        next' := Nat.lt_succ_self _
        pages := rfl, buffers := rfl, datas := rfl, mem := rfl, callerLen := rfl
        mmapAllocators := rfl, mappings := rfl, files := rfl, useCount := rfl
        operations := rfl
        region := .inr ⟨rfl, ⟨k, hk⟩, rfl⟩ }
  · exact Yields.step hrun (yields_pure.mpr ⟨⟨_, hg⟩, Idle.refused h, rfl, rfl⟩)

/-! ## Counting -/

theorem Heap.shape_recount {k : Nat} (hD : h.datas d = some D)
    (hdatas : h'.datas = update h.datas d (some { D with useCount := k })) :
    h'.shapeOf = h.shapeOf := by
  funext e
  rcases eq_or_ne e d with rfl | he
  · simp [Heap.shapeOf, hdatas, hD, Data.shape]
  · simp [Heap.shapeOf, hdatas, he]

/-- A new count of one `pb_data` that is live before and after. -/
theorem Objs.recount {c c' : Nat → Nat} {k : Nat} (ho : Objs h c) (hD : h.datas d = some D)
    (hdatas : h'.datas = update h.datas d (some { D with useCount := k }))
    (hk : k = c' d % 65536) (hpos : 0 < c' d) (hc : ∀ e, e ≠ d → c' e = c e)
    (hb : h'.blocks = h.blocks) (hx : h.next ≤ h'.next) : Objs h' c' := by
  have hs := Heap.shape_recount hD hdatas
  exact
    { live := fun e => by
        rw [hs]
        rcases eq_or_ne e d with rfl | he
        · simp [Heap.shapeOf, hD, hpos]
        · rw [hc e he]
          exact ho.live e
      count := fun {e E} hE => by
        rw [hdatas] at hE
        rcases eq_or_ne e d with rfl | he
        · rw [update_self] at hE
          cases hE
          exact hk
        · rw [update_of_ne he] at hE
          rw [hc e he]
          exact ho.count hE
      owned := by
        rw [hs, hb]
        exact ho.owned
      referenced := by
        rw [hs]
        exact ho.referenced
      owner := by
        rw [hs, hb]
        exact ho.owner
      excl := by
        rw [hs]
        exact ho.excl
      freshData := by
        rw [hs]
        exact fun hd => Nat.lt_of_lt_of_le (ho.freshData hd) hx
      freshBlock := by
        rw [hb]
        exact fun hn => Nat.lt_of_lt_of_le (ho.freshBlock hn) hx }

/-! ## Creating pages -/

/-- A new page on existing data, which gains a reference. -/
def Heap.addPage (h : Heap) (v : DataVec) (d : Nat) (D : Data) : Heap :=
  (h.granted.setPage h.next (some { dataVec := v, data := some d })).setData d
    (some { D with useCount := u16Inc D.useCount })

theorem callocPage_run (hg : env.grants h.calls = true) :
    callocPage env h = .ok (some h.next, h.granted.setPage h.next (some {})) :=
  (bind_run (request_granted hg)).trans rfl

theorem callocPage_refused (hg : env.grants h.calls = false) :
    callocPage env h = .ok (none, h.refused) :=
  (bind_run (request_refused hg)).trans rfl

theorem Heap.setPage_setPage (h : Heap) (p : Nat) (o o' : Option Page) :
    (h.setPage p o).setPage p o' = h.setPage p o' := by
  simp [Heap.setPage]

/-- `pb_page_set_data` of a new page. -/
theorem pageSetData_new (hD : h.datas d = some D) :
    pageSetData x d (h.setPage x (some {})) = .ok ((),
      (h.setPage x (some { dataVec := D.dataVec, data := some d })).setData d
        (some { D with useCount := u16Inc D.useCount })) := by
  have hx : (h.setPage x (some {})).pages x = some {} := by simp
  unfold pageSetData
  refine (bind_run (getPage_run hx)).trans ?_
  refine (bind_run (getData_run (h := h.setPage x (some {})) hD)).trans ?_
  refine (bind_run (modifyPage_run hx _)).trans ?_
  rw [Heap.setPage_setPage]
  exact modifyData_run (h := h.setPage x (some { dataVec := D.dataVec, data := some d })) hD _

theorem pageCreate_cases (env : Env) (hD : h.datas d = some D) :
    pageCreate env d h = .ok (some h.next, h.addPage D.dataVec d D) ∨
      (Refused env ∧ pageCreate env d h = .ok (none, h.refused)) := by
  unfold pageCreate
  cases hg : env.grants h.calls with
  | true =>
      refine .inl ((bind_run (callocPage_run hg)).trans ?_)
      exact (bind_run (pageSetData_new (h := h.granted) hD)).trans rfl
  | false => exact .inr ⟨⟨_, hg⟩, (bind_run (callocPage_refused hg)).trans rfl⟩

theorem pageTransfer_cases (env : Env) {src : Nat} (hs : h.dataOf src = some d)
    (hD : h.datas d = some D) (hx : src ≠ h.next) (len off : Nat) :
    pageTransfer env src len off h
        = .ok (some h.next, h.addPage ⟨(h.vecOf src).base.add off, len⟩ d D) ∨
      (Refused env ∧ pageTransfer env src len off h = .ok (none, h.refused)) := by
  unfold pageTransfer
  cases hg : env.grants h.calls with
  | true =>
      left
      obtain ⟨S, hS, hdata⟩ := Option.bind_eq_some_iff.mp hs
      have hS' : (h.granted.setPage h.next (some {})).pages src = some S := by
        simp [update_of_ne hx, Heap.granted, hS]
      refine (bind_run (callocPage_run hg)).trans ?_
      refine (bind_run (getPage_run hS')).trans ?_
      refine (bind_run (deref_run hdata)).trans ?_
      refine (bind_run (pageSetData_new (h := h.granted) hD)).trans ?_
      refine (bind_run (modifyPage_run (P := { dataVec := D.dataVec, data := some d })
        (by simp [Heap.setData]) _)).trans ?_
      simp only [Heap.vecOf_eq hS]
      exact congrArg (fun k => Except.ok (some h.next, k))
        (congrArg (fun k => Heap.setData k d _) (Heap.setPage_setPage _ _ _ _))
  | false => exact .inr ⟨⟨_, hg⟩, (bind_run (callocPage_refused hg)).trans rfl⟩

namespace Heap

variable (hD : h.datas d = some D)

theorem shape_addPage (hD : h.datas d = some D) : (h.addPage v d D).shapeOf = h.shapeOf :=
  shape_recount hD rfl

theorem nextOf_addPage : (h.addPage v d D).nextOf = update h.nextOf h.next none :=
  nextOf_setPage (h := h.granted)

theorem prevOf_addPage : (h.addPage v d D).prevOf = update h.prevOf h.next none :=
  prevOf_setPage (h := h.granted)

theorem dataOf_addPage : (h.addPage v d D).dataOf = update h.dataOf h.next (some d) :=
  dataOf_setPage (h := h.granted)

theorem vecOf_addPage : (h.addPage v d D).vecOf = update h.vecOf h.next v :=
  vecOf_setPage (h := h.granted)

theorem pages_addPage : (h.addPage v d D).pages
    = update h.pages h.next (some { dataVec := v, data := some d }) := rfl

theorem refs_addPage (e : Nat) :
    (h.addPage v d D).refs e = h.refs e + if e = d then 1 else 0 := by
  show holders (h.next + 1) _ e = _
  rw [dataOf_addPage, holders_succ, update_self,
    holders_congr (g := h.dataOf) (fun p hp => update_of_ne (by omega) _ _)]
  simp [refs, eq_comm]

end Heap

/-- A new page is in flight, and the rings do not notice. -/
theorem Links.newPage (hl : Links h R F) {x : Nat} {P : Page} (hx : h.next ≤ x)
    (hx' : x < h'.next) (hpages : h'.pages = update h.pages x (some P))
    (hb : ∀ b, (h'.buffers b).isSome = (h.buffers b).isSome) : Links h' R (x :: F) := by
  have hnone : h.pages x = none := by
    by_contra hn
    have := hl.fresh (Option.isSome_iff_ne_none.mpr hn)
    omega
  have hxb : h.buffers x = none := by
    by_contra hn
    have := hl.buffer_fresh (Option.isSome_iff_ne_none.mpr hn)
    omega
  have hxR : ∀ b, x ∉ R b := by
    intro b hm
    have := (hl.live x).mpr (.inr (.inl ⟨b, hm⟩))
    simp [hnone] at this
  have hmem : ∀ b, (h.buffers b).isSome → ∀ y ∈ b :: R b, y ≠ x := by
    rintro b hb y hy rfl
    rcases List.mem_cons.mp hy with rfl | hy
    · simp [hxb] at hb
    · exact hxR b hy
  have hnext : h'.nextOf = update h.nextOf x P.next := by
    rw [Heap.nextOf_congr (h := h.setPage x (some P)) hpages]
    exact Heap.nextOf_setPage
  have hprev : h'.prevOf = update h.prevOf x P.prev := by
    rw [Heap.prevOf_congr (h := h.setPage x (some P)) hpages]
    exact Heap.prevOf_setPage
  exact
    { ring := fun {b} hb' => by
        rw [hb] at hb'
        rw [hnext, hprev]
        exact (hl.ring hb').congr
          (fun y hy => update_of_ne (hmem b hb' y hy) _ _)
          (fun y hy => update_of_ne (hmem b hb' y hy) _ _)
      dead := fun hb' => hl.dead ((none_congr (hb _)).mp hb')
      disj := hl.disj
      page := fun hp => (none_congr (hb _)).mpr (hl.page hp)
      flight := by
        refine List.nodup_cons.mpr ⟨fun hm => ?_, hl.flight⟩
        have := (hl.live x).mpr (.inr (.inr hm))
        simp [hnone] at this
      apart := fun {p} hp => by
        rcases List.mem_cons.mp hp with rfl | hp
        · exact ⟨(none_congr (hb _)).mpr hxb, hxR⟩
        · exact ⟨(none_congr (hb _)).mpr (hl.apart hp).1, (hl.apart hp).2⟩
      live := fun p => by
        rw [hpages, hb]
        rcases eq_or_ne p x with rfl | hp
        · simp
        · rw [update_of_ne hp, hl.live p]
          simp [hp]
      fresh := fun {p} hp => by
        rw [hpages] at hp
        rcases eq_or_ne p x with rfl | hne
        · exact hx'
        · rw [update_of_ne hne] at hp
          have := hl.fresh hp
          omega }

section AddPage

variable (hc : Core h R F X)

include hc

theorem Core.next_none : h.pages h.next = none := by
  by_contra hn
  exact absurd (hc.links.fresh (Option.isSome_iff_ne_none.mpr hn)) (by omega)

theorem Core.next_notMem (b : Nat) : h.next ∉ R b := by
  intro hm
  have := (hc.links.live h.next).mpr (.inr (.inl ⟨b, hm⟩))
  simp [hc.next_none] at this

theorem Core.next_buffer : h.buffers h.next = none := by
  by_contra hn
  exact absurd (hc.links.buffer_fresh (Option.isSome_iff_ne_none.mpr hn)) (by omega)

theorem Core.addPage_links : Links (h.addPage v d D) R (h.next :: F) :=
  hc.links.newPage (Nat.le_refl _) (Nat.lt_succ_self _) Heap.pages_addPage (fun _ => rfl)

/-- A new page in the region of its data. -/
theorem Core.addPage (hD : h.datas d = some D) (hv : v.base.region = D.dataVec.base.region) :
    Core (h.addPage v d D) R (h.next :: F) X where
  links := hc.addPage_links
  views :=
    { data := fun {p} hp hb => by
        rw [Heap.dataOf_addPage]
        rcases eq_or_ne p h.next with rfl | hne
        · simp
        · rw [update_of_ne hne]
          rw [Heap.pages_addPage, update_of_ne hne] at hp
          exact hc.views.data hp hb
      sentinel := fun {b} hb => by
        have hne : b ≠ h.next := by
          rintro rfl
          have : (h.buffers h.next).isSome := hb
          simp [hc.next_buffer] at this
        rw [Heap.dataOf_addPage, Heap.lenOf, Heap.vecOf_addPage, update_of_ne hne,
          update_of_ne hne]
        exact hc.views.sentinel hb
      region := fun {p e s} hp hs => by
        rw [Heap.shape_addPage hD] at hs
        rw [Heap.dataOf_addPage] at hp
        rw [Heap.vecOf_addPage]
        rcases eq_or_ne p h.next with rfl | hne
        · rw [update_self] at hp ⊢
          cases hp
          rw [Heap.shapeOf_eq hD] at hs
          cases hs
          exact hv
        · rw [update_of_ne hne] at hp ⊢
          exact hc.views.region hp hs }
  objs := by
    have hpos := (hc.objs.live d).mp (by simp [Heap.shapeOf_eq hD])
    have hcount := hc.objs.count hD
    refine hc.objs.recount hD rfl ?_ ?_ ?_ rfl (Nat.le_succ _)
    · rw [hcount, u16Inc_mod]
      simp only [Heap.count, Heap.refs_addPage, if_true]
      congr 1
      omega
    · simp only [Heap.count, Heap.refs_addPage, if_true]
      omega
    · intro e he
      simp only [Heap.count, Heap.refs_addPage, if_neg he]
      omega
  allocs := hc.allocs.congr (Heap.mapsSame_of_shape (Heap.shape_addPage hD)) rfl rfl
    (Heap.allocRefs_congr (Heap.mapsSame_of_shape (Heap.shape_addPage hD)) rfl
      (Nat.le_succ _) hc.objs.freshData hc.links.buffer_fresh) (Nat.le_succ _)
  writable := fun b hb p hp => by
    have hne : p ≠ h.next := fun he => hc.next_notMem b (he ▸ hp)
    refine (hc.writable b (hb.congr rfl) p hp).congr ?_ ?_ (fun _ hs => ?_)
    · rw [Heap.dataOf_addPage, update_of_ne hne]
    · rw [Heap.vecOf_addPage, update_of_ne hne]
    · rwa [Heap.shape_addPage hD]

omit hc in
theorem Core.addPage_quiet (hD : h.datas d = some D) :
    Quiet (fun p => p ≠ h.next) h (h.addPage v d D) where
  world :=
    { World.refl h with
      next := Nat.le_succ _
      page := fun {p} hp hlt => by
        rwa [Heap.pages_addPage, update_of_ne (by omega)] at hp
      data := fun hs _ => by rwa [Heap.shape_addPage hD] at hs
      mapped := fun hs _ => by rwa [Heap.shape_addPage hD] at hs }
  buffers := rfl
  same := fun {p} hp =>
    { vec := by rw [Heap.vecOf_addPage, update_of_ne hp]
      data := by rw [Heap.dataOf_addPage, update_of_ne hp]
      bytes := by
        simp only [Heap.pageBytes, Heap.lenOf, Heap.vecOf_addPage, update_of_ne hp]
        exact Heap.bytes_congr (Heap.byteAt_congr rfl rfl rfl) }

end AddPage

end Pb
