import PageBuf.Lib.Sequence
import PageBuf.Invariant.Remove

/-!
# Overwrite — writing into pages in place

`overwrite_data` writes to the data of a page only if the buffer may and if
no other page would see it: the data has one user and owns its block.
Otherwise the page gets a copy of its own first. Either way the page that is
written to is `Lone`.
-/

namespace Pb

open StateRun Function Ring RefCount Sequence

variable {env : Env} {h h' : Heap} {R : Nat → List Nat} {F X l₁ l₂ : List Nat}
  {b d e p x n : Nat} {B : Buffer} {D : Data}

/-! ## Pages that may be written to -/

/-- The page lies in the block `n`, where no other page has bytes. -/
structure Lone (h : Heap) (x n : Nat) : Prop where
  region : (h.vecOf x).base.region = .heap n
  inBounds : ∀ len, len ≤ h.lenOf x → h.inBounds (h.vecOf x).base len = true
  alone : ∀ p, p ≠ x → (h.vecOf p).base.region = .heap n → h.lenOf p = 0

/-- The only user of data that owns its block is alone in it. -/
theorem Sole.lone {s : Shape} (hs : Sole h [] x) (hc : Core h R F []) (hd : h.dataOf x = some d)
    (hsh : h.shapeOf d = some s) (hr : s.responsibility = .owned) : ∃ n, Lone h x n := by
  obtain ⟨d', s', hd', hs', hop, hlo, hhi⟩ := hs.inData
  rw [hd] at hd'
  cases hd'
  rw [hsh] at hs'
  cases hs'
  obtain ⟨n, hbase, hblock⟩ := hc.objs.owned hsh hop hr
  have hreg : (h.vecOf x).base.region = .heap n := by rw [hc.views.region hd hsh, hbase]
  refine ⟨n, hreg, fun len hlen => ?_, fun p hp hrp => ?_⟩
  · rw [hbase] at hhi
    dsimp only at hhi
    simp only [Heap.inBounds, Heap.regionSize, hreg, hblock, decide_eq_true_eq]
    omega
  · cases hdp : h.dataOf p with
    | none => exact hc.views.lenOf_none hdp
    | some e =>
        exfalso
        obtain ⟨t, ht⟩ := hc.data_live hdp
        have hregp := hc.views.region hdp ht
        rw [hrp] at hregp
        rcases hc.objs.excl ht hsh (by rw [← hregp, hbase]) with ⟨k, hk⟩ | rfl
        · rw [← hregp] at hk
          simp at hk
        · have hone : h.refs e = 1 := by
            have := hs.one hd
            rwa [Heap.count, List.count_nil, Nat.add_zero] at this
          exact hp (eq_of_holders_eq_one hone (hc.page_fresh hdp) (hc.page_fresh hd) hdp hd)

/-- The bytes of a region behind a store. -/
theorem Heap.bytes_store_behind {q : Ptr} {bs : List UInt8} (hq : ∀ m, q.region ≠ .mapped m)
    (k : Nat) : (h.store q bs).bytes (q.add bs.length) k = h.bytes (q.add bs.length) k := by
  unfold Heap.bytes
  refine List.map_congr_left (fun i _ => ?_)
  have hst : (h.store q bs).byteAt q.region (q.offset + bs.length + i)
      = h.byteAt q.region (q.offset + bs.length + i) := by
    rw [Heap.byteAt_store_self hq, if_neg (by omega)]
  exact hst

/-- The bytes of a region before a store. -/
theorem Heap.bytes_store_before {q : Ptr} {bs : List UInt8} (hq : ∀ m, q.region ≠ .mapped m)
    (k : Nat) : (h.store (q.add k) bs).bytes q k = h.bytes q k := by
  unfold Heap.bytes
  refine List.map_congr_left (fun i hi => ?_)
  have hlt := List.mem_range.mp hi
  have hst : (h.store (q.add k) bs).byteAt q.region (q.offset + i)
      = h.byteAt q.region (q.offset + i) := by
    refine (Heap.byteAt_store_self (h := h) (q := q.add k) hq (q.offset + i)).trans ?_
    rw [if_neg (by simp only [Ptr.add_offset]; omega)]
    rfl
  exact hst

theorem Heap.inBounds_add {q : Ptr} {o k : Nat} (hq : h.inBounds q (o + k) = true) :
    h.inBounds (q.add o) k = true := by
  unfold Heap.inBounds at hq ⊢
  rw [Ptr.add_region, Ptr.add_offset]
  cases hs : h.regionSize q.region with
  | none =>
      rw [hs] at hq
      have : o + k = 0 := by simpa using hq
      simp only [beq_iff_eq]
      omega
  | some size =>
      rw [hs] at hq
      have : q.offset + (o + k) ≤ size := by simpa using hq
      simp only [decide_eq_true_eq]
      omega

/-- A store inside a lone page is in bounds. -/
theorem Lone.inBoundsAt {o k : Nat} (lo : Lone h x n) (hlen : o + k ≤ h.lenOf x) :
    h.inBounds ((h.vecOf x).base.add o) k = true :=
  Heap.inBounds_add (lo.inBounds _ hlen)

/-- **A store into a lone page** changes the bytes of that page and nothing
else. -/
theorem Lone.storeAt {bs : List UInt8} {o : Nat} (lo : Lone h x n)
    (hlen : o + bs.length ≤ h.lenOf x) :
    Idle h (h.store ((h.vecOf x).base.add o) bs) ∧
      Quiet (fun p => p ≠ x) h (h.store ((h.vecOf x).base.add o) bs) ∧
      (h.store ((h.vecOf x).base.add o) bs).pageBytes x = overwrite (h.pageBytes x) o bs := by
  have hq : ∀ m, (h.vecOf x).base.region ≠ .mapped m := by simp [lo.region]
  have i : Idle h (h.store ((h.vecOf x).base.add o) bs) :=
    Idle.store (q := (h.vecOf x).base.add o) lo.region
  refine ⟨i, ⟨i.world, by rw [Heap.store_eq (q := (h.vecOf x).base.add o) hq], fun {p} hp =>
    Same.store (q := (h.vecOf x).base.add o) lo.region (lo.alone p hp)⟩, ?_⟩
  obtain ⟨k, hk⟩ := Nat.exists_eq_add_of_le hlen
  have hvec := Heap.vecOf_congr i.pages
  have hbytes : h.pageBytes x = h.bytes (h.vecOf x).base (o + bs.length + k) := by
    rw [Heap.pageBytes, hk]
  -- the page before the store, the store itself, and the page behind it
  rw [overwrite, hbytes, Heap.bytes_take _ (by omega), Heap.bytes_drop _ (Nat.le_add_right _ _),
    Nat.add_sub_cancel_left, Heap.pageBytes, Heap.lenOf, hvec]
  show (h.store ((h.vecOf x).base.add o) bs).bytes _ (h.lenOf x) = _
  rw [hk, Heap.bytes_add, Heap.bytes_add, Heap.bytes_store_before hq,
    Heap.bytes_store_self (q := (h.vecOf x).base.add o) hq, ← Ptr.add_add,
    Heap.bytes_store_behind (q := (h.vecOf x).base.add o) hq]

theorem Lone.store {bs : List UInt8} (lo : Lone h x n) (hlen : bs.length ≤ h.lenOf x) :
    Idle h (h.store (h.vecOf x).base bs) ∧
      Quiet (fun p => p ≠ x) h (h.store (h.vecOf x).base bs) ∧
      (h.store (h.vecOf x).base bs).pageBytes x = bs ++ (h.pageBytes x).drop bs.length := by
  have hst := lo.storeAt (o := 0) (show 0 + bs.length ≤ h.lenOf x by omega)
  rwa [Ptr.add_zero, overwrite, List.take_zero, List.nil_append, Nat.zero_add] at hst

/-! ## Giving a page other data -/

/-- `pb_page_set_data` of a linked page: the reference to its data is given
up, and one to `d` taken. -/
theorem pageSetData_spec (hc : Core h R F X) (hx : (h.pages x).isSome)
    (hxb : h.buffers x = none) (hD : h.datas d = some D) (hop : D.operations = .trivial)
    (hold : h.dataOf x ≠ some d) (hle : ∀ e, h.dataOf x = some e →
      h.count X e ≤ 65536 ∧ (h.count X e = 1 → h.CanRelease e)) :
    Yields (pageSetData x d) h (fun _ h' => Core h' R F X ∧ Quiet (fun p => p ≠ x) h h' ∧
      h'.next = h.next ∧ h'.dataOf = update h.dataOf x (some d) ∧ h'.vecOf x = D.dataVec ∧
      h'.shapeOf d = some D.shape ∧
      h'.pageBytes x = h.bytes D.dataVec.base D.dataVec.len) := by
  obtain ⟨P, hP⟩ := Option.isSome_iff_exists.mp hx
  obtain ⟨o, ho⟩ := Option.isSome_iff_exists.mp (hc.views.data hx hxb)
  have hPo : P.data = some o := by rw [← Heap.dataOf_eq hP, ho]
  have hod : o ≠ d := by
    rintro rfl
    exact hold ho
  have hxn := hc.page_fresh ho
  have hpos : 0 < h.count X o := by
    have := Heap.refs_pos hxn ho
    unfold Heap.count
    omega
  obtain ⟨hle, hcr⟩ := hle o ho
  unfold pageSetData
  refine Yields.step (getPage_run hP) ?_
  rw [hPo]
  refine Yields.bind (dataPut_spec hc.counted hpos) ?_
  rintro _ h₁ ⟨dr, hput⟩
  have hct := hput hle hcr
  -- the new data is untouched
  have hcd : 0 < h.count X d := (hc.objs.live d).mp (by rw [Heap.shapeOf_eq hD]; rfl)
  have hdec : dec (h.count X) o d = h.count X d := update_of_ne hod.symm _ _
  have hs₁ : h₁.shapeOf d = some D.shape :=
    dr.keeps hct.objs (by rw [hdec]; exact hcd) (Heap.shapeOf_eq hD)
  obtain ⟨D₁, hD₁⟩ := Heap.exists_data (h := h₁) (d := d) (by rw [hs₁]; rfl)
  have hsh : D₁.shape = D.shape := by
    rw [Heap.shapeOf_eq hD₁] at hs₁
    exact Option.some.inj hs₁
  have hv₁ : D₁.dataVec = D.dataVec := congrArg Shape.dataVec hsh
  refine Yields.step (getData_run hD₁) ?_
  refine Yields.step (modifyPage_run (by rw [dr.pages]; exact hP) _) ?_
  refine Yields.intro (modifyData_run (h := h₁.setPage x _) hD₁ _) ?_
  generalize hh : (h₁.setPage x (some { P with dataVec := D₁.dataVec, data := some d })).setData d
    (some { D₁ with useCount := u16Inc D₁.useCount }) = h'
  have hpages : h'.pages
      = update h.pages x (some { P with dataVec := D₁.dataVec, data := some d }) := by
    rw [← hh, ← dr.pages]
    rfl
  have hnext : h'.next = h.next := by
    rw [← hh, ← dr.next]
    rfl
  have hbuf : h'.buffers = h.buffers := by
    rw [← hh, ← dr.buffers]
    rfl
  have hdata : h'.dataOf = update h.dataOf x (some d) := by
    rw [Heap.dataOf_congr (h := h.setPage x (some { P with
      dataVec := D₁.dataVec, data := some d })) hpages, Heap.dataOf_setPage]
    rfl
  have hvec : h'.vecOf = update h.vecOf x D.dataVec := by
    rw [Heap.vecOf_congr (h := h.setPage x (some { P with
      dataVec := D₁.dataVec, data := some d })) hpages, Heap.vecOf_setPage, ← hv₁]
    rfl
  have hn : h'.nextOf = h.nextOf := by
    rw [Heap.nextOf_congr (h := h.setPage x (some { P with
      dataVec := D₁.dataVec, data := some d })) hpages, Heap.nextOf_setPage, Option.bind_some,
      ← Heap.nextOf_eq hP, update_eq_self]
  have hp : h'.prevOf = h.prevOf := by
    rw [Heap.prevOf_congr (h := h.setPage x (some { P with
      dataVec := D₁.dataVec, data := some d })) hpages, Heap.prevOf_setPage, Option.bind_some,
      ← Heap.prevOf_eq hP, update_eq_self]
  have hlive : ∀ p, (h'.pages p).isSome = (h.pages p).isSome := by
    intro p
    rw [hpages]
    rcases eq_or_ne p x with rfl | hne
    · rw [update_self, hP]
      rfl
    · rw [update_of_ne hne]
  have hshape : h'.shapeOf = h₁.shapeOf := by
    refine Heap.shape_recount (k := u16Inc D₁.useCount) hD₁ ?_
    rw [← hh]
    rfl
  have hcnt : ∀ e, h'.count X e = update (dec (h.count X) o) d (h.count X d + 1) e := by
    intro e
    have hh := holders_update (d := e) (f := h.dataOf) (v := some d) hxn
    simp only [ho, Option.some.injEq] at hh
    have hrefs : h'.refs e = holders h.next (update h.dataOf x (some d)) e := by
      rw [Heap.refs, hdata, hnext]
    rcases eq_or_ne e d with rfl | hed
    · rw [if_pos rfl, if_neg hod] at hh
      rw [update_self, Heap.count, Heap.count, hrefs]
      unfold Heap.refs
      omega
    · rw [if_neg hed.symm] at hh
      rw [update_of_ne hed, dec]
      rcases eq_or_ne e o with rfl | heo
      · rw [if_pos rfl] at hh
        rw [update_self, Heap.count, Heap.count, hrefs]
        unfold Heap.refs
        omega
      · rw [if_neg heo.symm] at hh
        rw [update_of_ne heo, Heap.count, Heap.count, hrefs]
        unfold Heap.refs
        omega
  have hsurvives : ∀ {p e s}, p ≠ x → h.dataOf p = some e → h.shapeOf e = some s →
      h'.shapeOf e = some s := by
    intro p e s hp he hs
    rw [hshape]
    rcases eq_or_ne e d with rfl | hed
    · rw [hs₁, ← Heap.shapeOf_eq hD, hs]
    · refine dr.keeps hct.objs ?_ hs
      have := hcnt e
      rw [update_of_ne hed] at this
      rw [← this, Heap.count]
      have := Heap.refs_pos (h := h') (p := p) (d := e)
        (by rw [hnext]; exact hc.page_fresh he) (by rw [hdata, update_of_ne hp, he])
      omega
  have hback : ∀ {e s}, h'.shapeOf e = some s → h.shapeOf e = some s := fun hs =>
    dr.survivor (by rwa [hshape] at hs)
  have hkind : h'.kindOf = h.kindOf := by
    funext c
    simp [Heap.kindOf, hbuf]
  refine ⟨⟨?_, ⟨?_, ?_, ?_⟩, ?_, ?_, ?_⟩, ⟨?_, hbuf, ?_⟩, hnext, hdata, ?_, ?_, ?_⟩
  · exact hc.links.congr hn hp (fun c => by rw [hbuf]) hlive (Nat.le_of_eq hnext.symm)
  · intro p hp hb
    rw [hdata]
    rcases eq_or_ne p x with rfl | hne
    · simp
    · rw [update_of_ne hne]
      exact hc.views.data (hlive p ▸ hp) (by rwa [hbuf] at hb)
  · intro c hb
    rw [hbuf] at hb
    have hne : c ≠ x := by
      rintro rfl
      simp [hxb] at hb
    rw [hdata, Heap.lenOf, hvec, update_of_ne hne, update_of_ne hne]
    exact hc.views.sentinel hb
  · intro p e s he hs
    rw [hdata] at he
    rw [hvec]
    rcases eq_or_ne p x with rfl | hne
    · rw [update_self] at he ⊢
      cases he
      rw [hshape, hs₁] at hs
      cases hs
      rfl
    · rw [update_of_ne hne] at he ⊢
      exact hc.views.region he (hback hs)
  · refine hct.objs.recount hD₁ (k := u16Inc D₁.useCount) (by rw [← hh]; rfl) ?_ ?_ ?_
      (by rw [← hh]; rfl) (by rw [← hh]; exact Nat.le_refl _)
    · rw [hct.objs.count hD₁, u16Inc_mod, hcnt, update_self, hdec]
    · rw [hcnt, update_self]
      omega
    · intro e he
      rw [hcnt, update_of_ne he]
  · refine hct.allocs.congr (Heap.mapsSame_of_shape hshape) (by rw [← hh]; rfl)
      (by rw [← hh]; rfl) (fun a => ?_) (by rw [← hh]; exact Nat.le_refl _)
    refine Heap.allocRefs_congr (Heap.mapsSame_of_shape hshape) ?_ (by rw [← hh]; exact Nat.le_refl _)
      hct.objs.freshData hct.buffers a
    rw [← hh]
    rfl
  · intro c hcw p hpc
    rcases eq_or_ne p x with rfl | hne
    · refine ⟨d, D.shape, by rw [hdata, update_self], by rw [hshape, hs₁], hop, ?_, ?_⟩
      · rw [hvec, update_self]
        exact Nat.le_refl _
      · rw [Heap.lenOf, hvec, update_self]
        exact Nat.le_refl _
    · refine (hc.writable c (hcw.congr (congrFun hkind c)) p hpc).congr ?_ ?_ (hsurvives hne)
      · rw [hdata, update_of_ne hne]
      · rw [hvec, update_of_ne hne]
  · refine dr.world.trans { World.refl h₁ with
      caller := ?_, callerLen := ?_, files := ?_, next := ?_, page := ?_, data := ?_, block := ?_,
      mapped := ?_, mapping := ?_, allocator := ?_ } <;> rw [← hh]
    · exact fun _ => rfl
    · rfl
    · rfl
    · exact Nat.le_refl _
    · intro p hp _
      rwa [hh, hlive p, ← dr.pages] at hp
    · intro e s hs _
      rw [hh, hshape] at hs
      exact hs
    · exact fun hn _ => hn
    · intro e s hs _
      rw [hh, hshape] at hs
      exact hs
    · exact fun hM => hM
    · exact fun hA => ⟨_, hA, rfl, rfl⟩
  · intro p hp
    refine ⟨by rw [hvec, update_of_ne hp], by rw [hdata, update_of_ne hp], ?_⟩
    rw [Heap.pageBytes, Heap.pageBytes, Heap.lenOf, Heap.lenOf, hvec, update_of_ne hp]
    cases hdp : h.dataOf p with
    | none =>
        rw [show (h.vecOf p).len = 0 from hc.views.lenOf_none hdp]
        rfl
    | some e =>
        obtain ⟨s, hs⟩ := hc.data_live hdp
        refine Heap.bytes_congr (fun i => ?_)
        rw [hc.views.region hdp hs]
        have hs' := hsurvives hp hdp hs
        rw [hshape] at hs'
        rw [← dr.bytes hs' i, ← hh]
        exact Heap.byteAt_congr rfl rfl rfl i
  · rw [hvec, update_self]
  · rw [hshape, hs₁]
  · rw [Heap.pageBytes, Heap.lenOf, hvec, update_self]
    refine Heap.bytes_congr (fun i => ?_)
    have hb := dr.bytes hs₁ i
    rw [← hh]
    exact (Heap.byteAt_congr rfl rfl rfl i).trans hb

/-- A page gets data that was just made for it. -/
theorem replaceData_spec (hc : Core h R [] [d]) (hf : h.Fits) (hb : (h.buffers b).isSome)
    (hx : x ∈ R b) (hD : h.datas d = some D) (hop : D.operations = .trivial)
    (hr : D.responsibility = .owned) (hnew : h.refs d = 0) :
    Yields (do
      pageSetData x d
      dataPut d
      pure true) h (fun r h' => r = true ∧ Core h' R [] [] ∧ h'.Fits ∧
        Quiet (fun p => p ≠ x) h h' ∧ h'.vecOf x = D.dataVec ∧
        h'.pageBytes x = h.bytes D.dataVec.base D.dataVec.len ∧ ∃ n, Lone h' x n) := by
  have hxlive := hc.links.node_live hb (List.mem_cons_of_mem b hx)
  obtain ⟨o, ho⟩ := Option.isSome_iff_exists.mp (hc.views.data hxlive (hc.links.page hx))
  have hxn := hc.page_fresh ho
  have hod : o ≠ d := by
    rintro rfl
    have := Heap.refs_pos hxn ho
    omega
  have hold : h.dataOf x ≠ some d := by
    rw [ho]
    exact fun he => hod (Option.some.inj he)
  refine Yields.bind (pageSetData_spec hc hxlive (hc.links.page hx) hD hop hold ?_) ?_
  · intro e he
    rw [ho] at he
    cases he
    have hsm := hf.small o
    refine ⟨?_, fun _ => hf.canRelease o⟩
    rw [Heap.count, List.count_cons_of_ne hod.symm, List.count_nil]
    omega
  rintro _ h₁ ⟨hc₁, q₁, hn₁, hdata₁, hvec₁, hsh₁, hbytes₁⟩
  have hu := fun e => holders_update (d := e) (f := h.dataOf) (v := some d) hxn
  have hrefs₁ : ∀ e, h₁.refs e ≤ 65535 ∧ (e = d → h₁.refs e = 1) := by
    intro e
    have hue := hu e
    have hsm := hf.small e
    rw [Heap.refs, hdata₁, hn₁]
    unfold Heap.refs at hsm hnew
    rcases eq_or_ne e d with rfl | hed
    · rw [if_pos rfl, if_neg hold] at hue
      omega
    · rw [if_neg (fun he => hed (Option.some.inj he).symm)] at hue
      omega
  have hdx₁ : h₁.dataOf x = some d := by rw [hdata₁, update_self]
  refine Yields.bind (dataPut_hand hc₁) ?_
  rintro _ h₂ ⟨dr, hput⟩
  have htwo : h₁.count [d] d = 2 := by
    rw [Heap.count, (hrefs₁ d).2 rfl, List.count_cons_self, List.count_nil]
  have hc₂ := hput (by omega) (by omega)
  have q₂ := dr.quiet hc₁ hc₂ (fun _ => True)
  have hdx₂ : h₂.dataOf x = some d := by rw [Heap.dataOf_congr dr.pages, hdx₁]
  have hvx₂ : h₂.vecOf x = D.dataVec := by rw [Heap.vecOf_congr dr.pages, hvec₁]
  have hrefs₂ : ∀ e, h₂.refs e = h₁.refs e :=
    Heap.refs_congr (Heap.dataOf_congr dr.pages) (Nat.le_of_eq dr.next.symm) hc₁.links.fresh
  have hsh₂ : h₂.shapeOf d = some D.shape := by
    refine dr.keeps hc₂.objs ?_ hsh₁
    rw [Heap.count, hrefs₂, (hrefs₁ d).2 rfl]
    omega
  have hk : h₂.kindOf = h.kindOf := by
    funext c
    simp [Heap.kindOf, q₂.buffers, q₁.buffers]
  have hsole : Sole h₂ [] x := by
    refine ⟨⟨d, D.shape, hdx₂, hsh₂, hop, ?_, ?_⟩, fun {e} he => ?_⟩
    · rw [hvx₂]
      exact Nat.le_refl _
    · rw [Heap.lenOf, hvx₂]
      exact Nat.le_refl _
    · rw [hdx₂] at he
      cases he
      rw [Heap.count, hrefs₂, (hrefs₁ d).2 rfl, List.count_nil]
  refine yields_pure.mpr ⟨rfl, hc₂, ?_, q₁.trans (q₂.mono (fun _ => trivial)), hvx₂, ?_,
    hsole.lone hc₂ hdx₂ hsh₂ hr⟩
  · refine hf.of_refs hc (q₁.world.trans q₂.world) hk (fun e => ?_)
    rw [hrefs₂]
    exact (hrefs₁ e).1
  · rw [(q₂.same trivial).bytes, hbytes₁]

/-- `pb_trivial_buffer_dup_page_data`: the page gets a copy of its bytes to
itself. -/
theorem trivialBufferDupPageData_spec (hc : Core h R [] []) (hf : h.Fits)
    (hB : h.buffers b = some B) (hop : B.operations = .trivial) (hx : x ∈ R b) :
    Yields (trivialBufferDupPageData env b x) h (fun r h' =>
      Core h' R [] [] ∧ h'.Fits ∧ Quiet (fun p => p ≠ x) h h' ∧ h'.lenOf x = h.lenOf x ∧
        h'.pageBytes x = h.pageBytes x ∧ (r = false → Refused env ∧ Same h h' x) ∧
        (r = true → ∃ n, Lone h' x n)) := by
  have hb : (h.buffers b).isSome := by rw [hB]; rfl
  have hxlive := hc.links.node_live hb (List.mem_cons_of_mem b hx)
  obtain ⟨P, hP⟩ := Option.isSome_iff_exists.mp hxlive
  have hlenP : P.dataVec.len = h.lenOf x := by rw [Heap.lenOf, Heap.vecOf_eq hP]
  unfold trivialBufferDupPageData
  refine Yields.step (getBuffer_run hB) (Yields.step (getPage_run hP) ?_)
  rw [hop, hlenP]
  refine Yields.bind (trivialDataCreate_spec hc (h.lenOf x)) ?_
  rintro (- | d) h₁ h₁post
  · obtain ⟨hr, i, hm, hbuf⟩ := h₁post
    have hq : Quiet (fun _ => True) h h₁ := Core.idle_quiet i hm hbuf _
    have hs := hq.same (p := x) trivial
    exact yields_pure.mpr ⟨hc.idle i, hf.idle hc i, hq.mono (fun _ => trivial), hs.len, hs.bytes,
      fun _ => ⟨hr, hs⟩, fun hn => by simp at hn⟩
  · obtain ⟨n, nd⟩ := h₁post
    have hc₁ := nd.core hc
    have q₁ := nd.quiet (fun _ => True)
    have hrefs₁ : ∀ e, h₁.refs e = h.refs e :=
      Heap.refs_congr (Heap.dataOf_congr nd.pages) nd.le hc.links.fresh
    have hzero : h₁.refs d = 0 := by
      have := nd.count_one hc
      rwa [Heap.count, List.count_nil, Nat.add_zero] at this
    have hD : h₁.datas d = some ⟨⟨⟨.heap n, 0⟩, h.lenOf x⟩, .owned, 1, .trivial⟩ := by
      rw [nd.datas, update_self]
    obtain ⟨m, hm, hblock⟩ := hc₁.objs.owned (Heap.shapeOf_eq hD) rfl rfl
    cases hm
    have hsx : Same h h₁ x := q₁.same trivial
    refine Yields.step (getData_run hD) (Yields.step (memRead_run _ _) ?_)
    generalize hover : (h₁.overread || !h₁.inBounds P.dataVec.base (h.lenOf x)) = flag
    have hread : h₁.bytes P.dataVec.base (h.lenOf x) = h.pageBytes x := by
      rw [← hsx.bytes, Heap.pageBytes, hsx.len, hsx.vec, Heap.vecOf_eq hP]
    rw [hread]
    have i₂ : Idle h₁ { h₁ with overread := flag } := { Idle.refl h₁ with }
    refine Yields.step (memWrite_run (h := { h₁ with overread := flag }) ?_) ?_
    · rw [Heap.length_pageBytes]
      simp [Heap.inBounds, Heap.regionSize, hblock, Data.shape]
    -- no page lies in the new block yet
    have hnone : ∀ p, (h₁.vecOf p).base.region = .heap n → h₁.lenOf p = 0 := by
      intro p hp
      cases hdp : h₁.dataOf p with
      | none => exact hc₁.views.lenOf_none hdp
      | some e =>
          exfalso
          obtain ⟨t, ht⟩ := hc₁.data_live hdp
          have hreg := hc₁.views.region hdp ht
          rw [hp] at hreg
          rcases hc₁.objs.excl ht (Heap.shapeOf_eq hD) hreg.symm with ⟨k, hk⟩ | rfl
          · rw [← hreg] at hk
            simp at hk
          · have := Heap.refs_pos (hc₁.page_fresh hdp) hdp
            omega
    have i₃ : Idle h₁ (Heap.store { h₁ with overread := flag } ⟨.heap n, 0⟩ (h.pageBytes x)) :=
      i₂.trans (Idle.store rfl)
    have q₃ : Quiet (fun _ => True) h₁
        (Heap.store { h₁ with overread := flag } ⟨.heap n, 0⟩ (h.pageBytes x)) := by
      refine ⟨i₃.world, by rw [Heap.store_eq (by simp)], fun {p} _ => ?_⟩
      exact (i₂.same rfl p).trans (Same.store rfl (hnone p))
    have hst : (Heap.store { h₁ with overread := flag } ⟨.heap n, 0⟩ (h.pageBytes x)).bytes
        ⟨.heap n, 0⟩ (h.lenOf x) = h.pageBytes x := by
      have hself : (Heap.store { h₁ with overread := flag } ⟨.heap n, 0⟩ (h.pageBytes x)).bytes
          ⟨.heap n, 0⟩ (h.pageBytes x).length = h.pageBytes x := Heap.bytes_store_self (by simp)
      rwa [Heap.length_pageBytes] at hself
    generalize Heap.store { h₁ with overread := flag } ⟨.heap n, 0⟩ (h.pageBytes x) = h₃ at *
    have hc₃ := hc₁.idle i₃
    have hrefs₃ : ∀ e, h₃.refs e = h.refs e := fun e => by
      rw [Heap.refs_congr (Heap.dataOf_congr i₃.pages) i₃.next hc₁.links.fresh, hrefs₁]
    have hf₃ : h₃.Fits := hf.of_refs hc (q₁.world.trans q₃.world) (i₃.kind.trans nd.kind)
      (fun e => by rw [hrefs₃]; exact hf.small e)
    refine (replaceData_spec (b := b) hc₃ hf₃ (by rw [q₃.buffers, q₁.buffers]; exact hb) hx
      (i₃.datas ▸ hD) rfl rfl (by rw [hrefs₃, ← hrefs₁, hzero])).mono ?_
    rintro r h₄ ⟨rfl, hc₄, hf₄, q₄, hvec₄, hbytes₄, hlone⟩
    refine ⟨hc₄, hf₄, (q₁.trans q₃).mono (fun _ => trivial) |>.trans q₄, ?_, ?_, by simp,
      fun _ => hlone⟩
    · rw [Heap.lenOf, hvec₄]
    · rw [hbytes₄, hst]

/-- What making a page writable leaves behind. -/
structure MadeWritable (env : Env) (h h' : Heap) (R : Nat → List Nat) (x : Nat) (r : Bool) :
    Prop where
  core : Core h' R [] []
  fits : h'.Fits
  quiet : Quiet (fun p => p ≠ x) h h'
  len : h'.lenOf x = h.lenOf x
  bytes : h'.pageBytes x = h.pageBytes x
  failed : r = false → Refused env ∧ Same h h' x
  lone : r = true → ∃ n, Lone h' x n

/-- The test of `overwrite_data` is right: data that need not be duplicated
has one user and owns its block. -/
theorem ensureWritable_spec (hc : Core h R [] []) (hf : h.Fits) (hB : h.buffers b = some B)
    (hop : B.operations = .trivial) (hx : x ∈ R b) :
    Yields (ensureWritable env b x) h (fun r h' => MadeWritable env h h' R x r) := by
  have hxlive := hc.links.node_live (b := b) (by rw [hB]; rfl) (List.mem_cons_of_mem b hx)
  obtain ⟨P, hP⟩ := Option.isSome_iff_exists.mp hxlive
  obtain ⟨d, hd⟩ := Option.isSome_iff_exists.mp (hc.views.data hxlive (hc.links.page hx))
  obtain ⟨s, hs⟩ := hc.data_live hd
  obtain ⟨D, hD⟩ := Heap.exists_data (h := h) (d := d) (by rw [hs]; rfl)
  unfold ensureWritable
  refine Yields.step (getBuffer_run hB) (Yields.step (getPage_run hP) ?_)
  refine Yields.step (deref_run (by rw [← Heap.dataOf_eq hP, hd])) ?_
  refine Yields.step (getData_run hD) ?_
  by_cases hdup : mustDupPageData B.strategy.cloneOnWrite D = true
  · rw [if_pos hdup]
    refine (trivialBufferDupPageData_spec hc hf hB hop hx).mono ?_
    rintro r h' ⟨hc', hf', q, hlen, hbytes, hfail, hlone⟩
    exact ⟨hc', hf', q, hlen, hbytes, hfail, hlone⟩
  · rw [if_neg hdup]
    simp only [mustDupPageData, Bool.or_eq_true, Bool.not_eq_true', decide_eq_true_eq, not_or,
      Bool.not_eq_false] at hdup
    obtain ⟨⟨hcow, huse⟩, hresp⟩ := hdup
    have hw : h.WritesInPlace b := by
      refine ⟨B.strategy, ?_, hcow⟩
      rw [Heap.kindOf, hB, ← hop]
      rfl
    have hone : h.refs d = 1 := by
      have hpos := Heap.refs_pos (hc.page_fresh hd) hd
      have hsm := hf.small d
      have hcount := hc.objs.count hD
      rw [Heap.count, List.count_nil, Nat.add_zero] at hcount
      omega
    have hsole : Sole h [] x := by
      refine ⟨hc.writable b hw x hx, fun {e} he => ?_⟩
      rw [hd] at he
      cases he
      rw [Heap.count, hone, List.count_nil]
    have howned : D.shape.responsibility = .owned := by
      cases hr : D.responsibility with
      | owned => exact hr
      | referenced => exact absurd hr hresp
    exact yields_pure.mpr ⟨hc, hf, Quiet.refl _ h, rfl, rfl, by simp,
      fun _ => hsole.lone hc hd (Heap.shapeOf_eq hD) howned⟩

/-! ## Loops that overwrite -/

/-- A page of `b` whose bytes have been replaced, the others being the same. -/
theorem flat_of_quiet {bs : List UInt8} (hl : Links h R F) (hb : (h.buffers b).isSome)
    (q : Quiet (fun p => p ≠ x) h h') (hR : R b = l₁ ++ x :: l₂) (hbs : h'.pageBytes x = bs) :
    h'.flat (R b) = h.flat l₁ ++ bs ++ h.flat l₂ := by
  have hnd := hl.nodup hb
  rw [hR] at hnd
  have hl₁ : h'.flat l₁ = h.flat l₁ := flat_of_same (fun p hp => q.same (fun he =>
    (List.nodup_append.mp hnd).2.2 p hp x (by simp) he))
  have hl₂ : h'.flat l₂ = h.flat l₂ := flat_of_same (fun p hp => q.same (fun he =>
    (List.nodup_cons.mp (List.nodup_append.mp hnd).2.1).1 (he ▸ hp)))
  rw [hR, Heap.flat_append, Heap.flat_cons, hbs, hl₁, hl₂, List.append_assoc]

theorem Quiet.frame_of_mem (q : Quiet (fun p => p ≠ x) h h') (hl : Links h R F) (hx : x ∈ R b) :
    Frame b h h' R R where
  world := q.world
  kind := by
    funext c
    simp [Heap.kindOf, q.buffers]
  ring := fun _ => rfl
  buffer := fun _ => by rw [q.buffers]
  same := fun hne hp => q.same (fun he => hne (hl.disj (he ▸ hp) hx))
  revision := by rw [Heap.revOf, Heap.revOf, q.buffers]

/-- A loop over the pages of `b` has written `k` bytes to them, which has
changed nothing but their bytes. -/
structure Rewriting (b : Nat) (h : Heap) (R : Nat → List Nat) (k : Nat) (h' : Heap) : Prop where
  core : Core h' R [] []
  fits : h'.Fits
  frame : Frame b h h' R R
  len : ∀ p ∈ R b, h'.lenOf p = h.lenOf p
  idle : k = 0 → ∀ p ∈ R b, Same h h' p
  buffers : h'.buffers = h.buffers

theorem Rewriting.start (hc : Core h R [] []) (hf : h.Fits) : Rewriting b h R 0 h :=
  ⟨hc, hf, Frame.refl b h R, fun _ _ => rfl, fun _ _ _ => Same.refl h _, rfl⟩

namespace Rewriting

variable {h'' : Heap} {k m : Nat} (t : Rewriting b h R k h')

include t

theorem lenOf {c p : Nat} (hp : p ∈ R c) : h'.lenOf p = h.lenOf p := by
  rcases eq_or_ne c b with rfl | hne
  · exact t.len p hp
  · exact (t.frame.same hne hp).len

/-- One page of `b` has been written to. -/
theorem wrote (hx : x ∈ R b) (hc : Core h'' R [] []) (hf : h''.Fits)
    (q : Quiet (fun p => p ≠ x) h' h'') (hlen : h''.lenOf x = h'.lenOf x)
    (hidle : m = 0 → k = 0 ∧ Same h' h'' x) : Rewriting b h R m h'' where
  core := hc
  fits := hf
  frame := t.frame.trans (q.frame_of_mem t.core.links hx)
  len := fun p hp => by
    rw [← t.len p hp]
    rcases eq_or_ne p x with rfl | hpx
    · exact hlen
    · exact (q.same hpx).len
  idle := fun hz p hp => by
    obtain ⟨hk, hsame⟩ := hidle hz
    refine (t.idle hk p hp).trans ?_
    rcases eq_or_ne p x with rfl | hpx
    · exact hsame
    · exact q.same hpx
  buffers := q.buffers.trans t.buffers

theorem became (hi : Inv h R) : Became b h h' R R 0 (h'.flat (R b)) := by
  refine ⟨t.core, fun c C hC => ?_, t.frame, rfl, fun hfl p hp => ?_, fun _ => t.fits,
    by rw [Heap.revOf, Heap.revOf, t.buffers]; rfl⟩
  · rw [t.buffers] at hC
    rw [hi.totals c C hC]
    exact congrArg List.sum (List.map_congr_left fun p hp => (t.lenOf hp).symm)
  · rw [t.len p hp]
    exact hfl p hp

/-- The end of the operation: the revision moves if a byte was written. -/
theorem finish (hi : Inv h R) (hb : (h.buffers b).isSome) :
    Yields (do
      bumpIfPositive b k
      pure k) h' (fun n h'' => n = k ∧
        Became b h h'' R R (if k = 0 then 0 else 1) (h'.flat (R b)) ∧ Stable b h h'' R R) := by
  refine Yields.bind (bumpIfPositive_spec (t.became hi) (by rwa [t.buffers]) k) ?_
  intro _ h'' hbump
  obtain ⟨hidle, hs⟩ := hbump
  refine yields_pure.mpr ⟨rfl, hs, fun he => ?_⟩
  have hrev := hs.revision
  rcases Nat.eq_zero_or_pos k with hz | hpos
  · rw [hidle hz]
    exact ⟨List.prefix_refl _, t.idle hz, id⟩
  · rw [if_neg (by omega)] at hrev
    omega

end Rewriting

/-! ## `overwrite_data` -/

/-- The loop of `overwrite_data` after `s.written` bytes: `l₁` has been
written to, and `l₂` is behind the iterator. -/
structure OverwriteInv (b : Nat) (h h' : Heap) (R : Nat → List Nat) (buf : List UInt8)
    (s : OverwriteLoop) (l₁ l₂ : List Nat) : Prop where
  sum : s.written + s.len = buf.length
  ring : R b = l₁ ++ l₂
  place : s.it = l₂.headD b
  core : Core h' R [] []
  fits : h'.Fits
  frame : Frame b h h' R R
  len : ∀ p ∈ R b, h'.lenOf p = h.lenOf p
  content : h'.flat (R b) = buf.take s.written ++ (h.flat (R b)).drop s.written
  le : s.written ≤ (h.flat (R b)).length
  front : s.len ≠ 0 → (h.flat l₁).length = s.written
  idle : s.written = 0 → ∀ p ∈ R b, Same h h' p
  buffers : h'.buffers = h.buffers

/-- What `overwrite_data` returns and leaves behind. -/
def Overwrites (env : Env) (b : Nat) (h : Heap) (R : Nat → List Nat) (buf : List UInt8)
    (rejects : Bool) (k : Nat) (h' : Heap) : Prop :=
  k ≤ min buf.length (h.flat (R b)).length ∧
    (k ≠ min buf.length (h.flat (R b)).length → Refused env ∨ rejects = true) ∧
    Became b h h' R R (if k = 0 then 0 else 1)
      (buf.take k ++ (h.flat (R b)).drop k) ∧ Stable b h h' R R

/-- **One round** writes to one page. -/
theorem overwriteDataRound_spec (hfull : h.Full (R b)) {buf : List UInt8} {s : OverwriteLoop}
    (t : OverwriteInv b h h' R buf s l₁ (s.it :: l₂)) (htriv : h'.IsTrivial b)
    (hl : s.len ≠ 0) :
    Yields (overwriteDataRound env b buf s) h' (fun r h'' =>
      (r = .inr s.written ∧ Refused env ∧
        OverwriteInv b h h'' R buf s l₁ (s.it :: l₂)) ∨
      ∃ s', r = .inl s' ∧ s'.len < s.len ∧
        OverwriteInv b h h'' R buf s' (l₁ ++ [s.it]) l₂) := by
  have hc := t.core
  have hb := htriv.isSome
  obtain ⟨B', hB', hop'⟩ := htriv
  have hxR : s.it ∈ R b := by simp [t.ring]
  have hne : s.it ≠ b := fun he => hc.links.notMem_self hb (he ▸ hxR)
  have hring : R b = l₁ ++ s.it :: l₂ := t.ring
  have hsum := t.sum
  have hpos := hfull s.it hxR
  unfold overwriteDataRound bufferIsEndIterator trivialBufferIsEndIterator
  rw [if_neg (by simp [hl, hne])]
  refine Yields.bind (ensureWritable_spec hc t.fits hB' hop' hxR) ?_
  rintro r h₁ hw
  have f₁ := hw.quiet.frame_of_mem hc.links hxR
  have hlen₁ : ∀ p ∈ R b, h₁.lenOf p = h.lenOf p := by
    intro p hp
    rw [← t.len p hp]
    rcases eq_or_ne p s.it with rfl | hpx
    · exact hw.len
    · exact (hw.quiet.same hpx).len
  have hflat₁ : h₁.flat (R b) = h'.flat (R b) := by
    rw [flat_of_quiet hc.links hb hw.quiet hring hw.bytes, hring, Heap.flat_append,
      Heap.flat_cons, List.append_assoc]
  cases r with
  | false =>
      obtain ⟨hr, hs⟩ := hw.failed rfl
      refine yields_pure.mpr (.inl ⟨rfl, hr, ?_⟩)
      exact
        { sum := t.sum, ring := t.ring, place := t.place, core := hw.core, fits := hw.fits
          frame := t.frame.trans f₁
          len := hlen₁
          content := hflat₁.trans t.content
          le := t.le
          front := t.front
          idle := fun hz p hp => (t.idle hz p hp).trans (by
            rcases eq_or_ne p s.it with rfl | hpx
            · exact hs
            · exact hw.quiet.same hpx)
          buffers := hw.quiet.buffers.trans t.buffers }
  | true =>
      obtain ⟨n, lo⟩ := hw.lone rfl
      have hb₁ : (h₁.buffers b).isSome := by rw [hw.quiet.buffers]; exact hb
      have hlive₁ := hw.core.links.node_live hb₁ (List.mem_cons_of_mem b hxR)
      refine Yields.step (pageGetLen_run hlive₁) ?_
      have hcut : ∃ m, (if h₁.lenOf s.it < s.len then h₁.lenOf s.it else s.len) = m ∧
          0 < m ∧ m ≤ h₁.lenOf s.it ∧ m ≤ s.len ∧ (s.len - m ≠ 0 → m = h₁.lenOf s.it) := by
        have := hlen₁ s.it hxR
        exact ⟨_, rfl, by split <;> omega⟩
      obtain ⟨m, hm, hmpos, hmle, hmlen, hmall⟩ := hcut
      dsimp only
      rw [hm, if_neg (by omega)]
      have hbs : ((buf.drop s.written).take m).length = m := by
        rw [List.length_take, List.length_drop]
        omega
      have hbsle : ((buf.drop s.written).take m).length ≤ h₁.lenOf s.it := by
        rw [hbs]
        exact hmle
      obtain ⟨i₂, q₂, hbytes₂⟩ := lo.store hbsle
      refine Yields.step (callerSlice_run (by omega)) (Yields.step (pageGetBase_run hlive₁) ?_)
      refine Yields.step (memWrite_run (lo.inBounds _ hbsle)) ?_
      generalize h₁.store (h₁.vecOf s.it).base ((buf.drop s.written).take m) = h₂ at *
      have hc₂ := hw.core.idle i₂
      have f₂ := q₂.frame_of_mem hw.core.links hxR
      have htriv₂ : h₂.IsTrivial b :=
        Heap.IsTrivial.congr ⟨B', hB', hop'⟩ (f₂.kind.trans f₁.kind)
      refine Yields.step (bufferNextIterator_run htriv₂ hc₂.links hring) (yields_pure.mpr ?_)
      refine .inr ⟨_, rfl, by dsimp only; omega, ?_⟩
      -- the content splits at the iterator
      have hfront := t.front hl
      have hflatlen : (h'.flat l₁).length = s.written := by
        rw [← hfront, Heap.length_flat, Heap.length_flat]
        exact congrArg List.sum (List.map_congr_left (fun p hp => t.len p (by simp [hring, hp])))
      have hcontent : h'.flat l₁ ++ h'.flat (s.it :: l₂)
          = buf.take s.written ++ (h.flat (R b)).drop s.written := by
        rw [← Heap.flat_append, ← hring, t.content]
      have htake : (buf.take s.written).length = s.written := by
        rw [List.length_take]
        omega
      obtain ⟨hl₁, hl₂⟩ := List.append_inj hcontent (by rw [hflatlen, htake])
      have hxl : (h'.pageBytes s.it).length = h₁.lenOf s.it := by
        rw [Heap.length_pageBytes, hw.len]
      have hle : s.written + m ≤ (h.flat (R b)).length := by
        have := congrArg List.length hl₂
        rw [Heap.flat_cons, List.length_append, List.length_drop] at this
        have hlen := hlen₁ s.it hxR
        omega
      exact
        { sum := by dsimp only; omega
          ring := by rw [hring, List.append_assoc, List.singleton_append]
          place := rfl
          core := hc₂
          fits := hw.fits.idle hw.core i₂
          frame := t.frame.trans (f₁.trans f₂)
          len := fun p hp => by
            rw [Heap.lenOf, Heap.vecOf_congr i₂.pages]
            exact hlen₁ p hp
          content := by
            dsimp only
            rw [flat_of_quiet hc.links hb (hw.quiet.trans q₂) hring hbytes₂, hbs, hw.bytes, hl₁,
              List.take_add, ← List.drop_drop, ← hl₂, Heap.flat_cons,
              List.drop_append_of_le_length (by omega)]
            simp only [List.append_assoc]
          le := hle
          front := fun hne' => by
            rw [Heap.flat_append, Heap.flat_cons, Heap.flat_nil, List.append_nil,
              List.length_append, hfront, Heap.length_pageBytes, ← hlen₁ s.it hxR,
              ← hmall hne']
          idle := fun hz => absurd hz (by dsimp only; omega)
          buffers := q₂.buffers.trans (hw.quiet.buffers.trans t.buffers) }

theorem OverwriteInv.rewriting {buf : List UInt8} {s : OverwriteLoop}
    (t : OverwriteInv b h h' R buf s l₁ l₂) : Rewriting b h R s.written h' :=
  ⟨t.core, t.fits, t.frame, t.len, t.idle, t.buffers⟩

theorem OverwriteInv.finish (hi : Inv h R) (hB : h.buffers b = some B) {buf : List UInt8}
    {s : OverwriteLoop} {rejects : Bool} (t : OverwriteInv b h h' R buf s l₁ l₂)
    (hend : s.written = min buf.length (h.flat (R b)).length ∨ Refused env) :
    Yields (do
      bumpIfPositive b s.written
      pure s.written) h' (Overwrites env b h R buf rejects) := by
  have hsum := t.sum
  have hle := t.le
  refine (t.rewriting.finish hi (by rw [hB]; rfl)).mono ?_
  intro n h'' hpost
  obtain ⟨rfl, hbecame, hstable⟩ := hpost
  rw [t.content] at hbecame
  exact ⟨by omega, fun hne => .inl (hend.resolve_left hne), hbecame, hstable⟩

section Operations

variable (hi : Inv h R) (hf : h.Fits) (hfull : h.Full (R b)) (hB : h.buffers b = some B)
  (hop : B.operations = .trivial)

include hi hf hfull hB hop

/-- `pb_trivial_buffer_overwrite_data`. -/
theorem trivialBufferOverwriteData_spec (buf : List UInt8) :
    Yields (trivialBufferOverwriteData env b buf) h
      (Overwrites env b h R buf B.strategy.rejectsOverwrite) := by
  have htriv : h.IsTrivial b := ⟨B, hB, hop⟩
  unfold trivialBufferOverwriteData
  refine Yields.step (getBuffer_run hB) ?_
  split
  · next hrej =>
      exact yields_pure.mpr ⟨Nat.zero_le _, fun _ => .inr hrej, Became.refl hi b, Stable.refl b h R⟩
  refine Yields.step (bufferGetIterator_run htriv hi.core.links) ?_
  refine Yields.bind (P := fun k h' => ∃ s l₁ l₂, k = s.written ∧
    OverwriteInv b h h' R buf s l₁ l₂ ∧
    (s.written = min buf.length (h.flat (R b)).length ∨ Refused env)) ?_ ?_
  · refine Yields.loop
      (I := fun n s h' => n = s.len ∧ ∃ l₁ l₂, OverwriteInv b h h' R buf s l₁ l₂)
      ?_ _ buf.length _ _ ?_ (Nat.lt_succ_self _)
    · rintro n s h' ⟨rfl, l₁, l₂, t⟩
      have htriv' := htriv.congr t.frame.kind
      have hend : s.it = b ↔ l₂ = [] := by
        rw [t.place]
        exact t.core.links.headD_eq_iff htriv'.isSome t.ring
      have hsum := t.sum
      have hle := t.le
      by_cases hz : s.len = 0 ∨ l₂ = []
      · unfold overwriteDataRound bufferIsEndIterator trivialBufferIsEndIterator
        rw [if_pos (by simpa [hend] using hz)]
        refine yields_pure.mpr ⟨s, l₁, l₂, rfl, t, .inl ?_⟩
        by_cases hl : s.len = 0
        · omega
        · have hfront := t.front hl
          have hring := t.ring
          rw [hz.resolve_left hl, List.append_nil] at hring
          rw [hring]
          omega
      · rw [not_or] at hz
        obtain ⟨l, rfl⟩ : ∃ l, l₂ = s.it :: l := by
          cases hl₂ : l₂ with
          | nil => exact absurd hl₂ hz.2
          | cons p l => exact ⟨l, by rw [t.place, hl₂]; rfl⟩
        refine (overwriteDataRound_spec hfull t htriv' hz.1).mono ?_
        rintro r h'' (⟨rfl, hr, t'⟩ | ⟨s', rfl, hlt, t'⟩)
        · exact ⟨s, _, _, rfl, t', .inr hr⟩
        · exact ⟨s'.len, hlt, rfl, _, _, t'⟩
    · exact ⟨rfl, [], R b, ⟨by simp, rfl, rfl, hi.core, hf, Frame.refl b h R, fun _ _ => rfl,
        by simp, Nat.zero_le _, fun _ => rfl, fun _ _ _ => Same.refl _ _, rfl⟩⟩
  · rintro k h' ⟨s, l₁, l₂, rfl, t, hend⟩
    exact t.finish hi hB hend

end Operations

/-! ## `read_data` -/

/-- `pb_trivial_buffer_read_data`: the first bytes of the content, and the
buffer stays as it is. -/
theorem trivialBufferReadData_spec (hl : Links h R F) (htriv : h.IsTrivial b) (len : Nat) :
    Yields (trivialBufferReadData env b len) h (fun bs h' =>
      bs = (h.flat (R b)).take len ∧ ∃ o, h' = { h with overread := o }) := by
  have hb := htriv.isSome
  unfold trivialBufferReadData
  refine Yields.step (bufferGetIterator_run htriv hl) (Yields.step get_run ?_)
  refine Yields.loop
    (I := fun n s h' => ∃ l₁ l₂ o, n = l₂.length ∧ R b = l₁ ++ l₂ ∧ s.it = l₂.headD b ∧
      s.len = len - (h.flat l₁).length ∧ s.out = (h.flat l₁).take len ∧
      h' = { h with overread := o })
    ?_ _ (R b).length _ _ ⟨[], R b, h.overread, rfl, rfl, rfl, by simp, by simp, rfl⟩ ?_
  · rintro n s h' ⟨l₁, l₂, o, rfl, hR, hit, hlen, hout, rfl⟩
    have hend : s.it = b ↔ l₂ = [] := by
      rw [hit]
      exact hl.headD_eq_iff hb hR
    unfold readDataRound bufferIsEndIterator trivialBufferIsEndIterator
    by_cases hz : s.len = 0 ∨ l₂ = []
    · rw [if_pos (by simpa [hend] using hz)]
      refine yields_pure.mpr ⟨?_, o, rfl⟩
      rw [hout, hR, Heap.flat_append]
      rcases hz with hz | rfl
      · rw [List.take_append_of_le_length (by omega)]
      · rw [Heap.flat_nil, List.append_nil]
    · rw [if_neg (by simpa [hend] using hz)]
      rw [not_or] at hz
      obtain ⟨l, rfl⟩ : ∃ l, l₂ = s.it :: l := by
        cases l₂ with
        | nil => exact absurd rfl hz.2
        | cons p l => exact ⟨l, by rw [hit]; rfl⟩
      have hlive := hl.node_live hb (List.mem_cons_of_mem b (by simp [hR] : s.it ∈ R b))
      obtain ⟨P, hP⟩ := Option.isSome_iff_exists.mp hlive
      have hi : Idle h { h with overread := o } := { Idle.refl h with }
      have hPlen : P.dataVec.len = h.lenOf s.it := by rw [Heap.lenOf, Heap.vecOf_eq hP]
      have hcut : (if P.dataVec.len < s.len then P.dataVec.len else s.len)
          = min s.len (h.lenOf s.it) := by
        rw [hPlen]
        split <;> omega
      refine Yields.step (getPage_run (h := { h with overread := o }) hP) ?_
      dsimp only
      rw [hcut]
      refine Yields.step (memRead_run _ _) ?_
      have hread : Heap.bytes { h with overread := o } P.dataVec.base (min s.len (h.lenOf s.it))
          = (h.pageBytes s.it).take s.len := by
        have hb₀ : Heap.bytes { h with overread := o } P.dataVec.base (min s.len (h.lenOf s.it))
            = h.bytes P.dataVec.base (min s.len (h.lenOf s.it)) := rfl
        rw [hb₀, ← Heap.bytes_take _ (Nat.min_le_right _ _), ← Heap.vecOf_eq hP]
        show (h.pageBytes s.it).take _ = _
        rw [← List.take_take, List.take_of_length_le
          (show (h.pageBytes s.it).length ≤ h.lenOf s.it by simp)]
      rw [hread]
      refine Yields.step (bufferNextIterator_run (Heap.IsTrivial.congr htriv rfl)
        (hl.congr rfl rfl (fun _ => rfl) (fun _ => rfl) (Nat.le_refl _)) hR) (yields_pure.mpr ?_)
      refine ⟨l.length, by simp, l₁ ++ [s.it], l, _, rfl, by simp [hR], rfl, ?_, ?_, rfl⟩
      · dsimp only
        rw [Heap.flat_append, Heap.flat_cons, Heap.flat_nil, List.append_nil, List.length_append,
          Heap.length_pageBytes]
        omega
      · dsimp only
        rw [Heap.flat_append, Heap.flat_cons, Heap.flat_nil, List.append_nil, List.take_append,
          hout, hlen]
  · have := hl.length_le hb
    omega

end Pb
