import PageBuf.Invariant.Pages

/-!
# Mapping — new mappings of a file

A new mapping is one more `pb_mmap_data` with one reference, one more in the
data tree and one more user of its allocator. Where it replaces a shorter one,
that one leaves the tree and is marked obsolete, for as long as pages refer to
it.
-/

namespace Pb

open StateRun Function Ring RefCount

variable {env : Env} {h h' : Heap} {R : Nat → List Nat} {F X : List Nat} {a d m e : Nat}
  {A : MmapAllocator} {M : Mapping} {old : Option Nat}

/-! ## Obsolete data -/

/-- The fields of a `pb_mmap_data` once it is obsolete. -/
def DataClass.outdated : DataClass → DataClass
  | .trivial => .trivial
  | .mmap a fileOffset _ => .mmap a fileOffset true

def Shape.outdated (s : Shape) : Shape := { s with operations := s.operations.outdated }

@[simp] theorem Shape.outdated_dataVec (s : Shape) : s.outdated.dataVec = s.dataVec := rfl

@[simp] theorem Shape.outdated_responsibility (s : Shape) :
    s.outdated.responsibility = s.responsibility := rfl

@[simp] theorem Shape.outdated_operations (s : Shape) :
    s.outdated.operations = s.operations.outdated := rfl

theorem DataClass.outdated_eq_trivial {c : DataClass} : c.outdated = .trivial ↔ c = .trivial := by
  cases c <;> simp [outdated]

theorem DataClass.allocator_outdated (c : DataClass) : c.outdated.allocator = c.allocator := by
  cases c <;> rfl

theorem Shape.outdated_eq {s : Shape} (hs : s.outdated.operations = .trivial) : s.outdated = s := by
  have hop : s.operations = .trivial := DataClass.outdated_eq_trivial.mp hs
  cases s
  simp only at hop
  subst hop
  rfl

/-- `mmap_data->obsolete = true`. -/
def Data.outdated (D : Data) : Data := { D with operations := D.operations.outdated }

/-- The shape of the new data. -/
def Mapping.shape (M : Mapping) (a m : Nat) : Shape :=
  ⟨⟨⟨.mapped m, 0⟩, M.len⟩, .owned, .mmap a M.offset false⟩

/-! ## The new mapping -/

/-- What the tree holds besides the new data. -/
def treeWithout (tree : List Nat) : Option Nat → List Nat
  | none => tree
  | some e => tree.erase e

/-- `d` is a new `pb_mmap_data` of the allocator `a` with one reference, in
place of `old`. -/
structure NewMapping (h h' : Heap) (a d m : Nat) (A : MmapAllocator) (M : Mapping)
    (old : Option Nat) : Prop where
  allocator : h.mmapAllocators a = some A
  replaces : ∀ {e}, old = some e → e ∈ A.dataTree
  nextMapping : h.next ≤ m
  nextMapping' : m < h'.next
  nextData : h.next ≤ d
  nextData' : d < h'.next
  pages : h'.pages = h.pages
  buffers : h'.buffers = h.buffers
  blocks : h'.blocks = h.blocks
  mem : h'.mem = h.mem
  callerLen : h'.callerLen = h.callerLen
  files : h'.files = h.files
  mappings : h'.mappings = update h.mappings m (some M)
  mmapAllocators : h'.mmapAllocators = update h.mmapAllocators a (some { A with
    useCount := u16Inc A.useCount
    dataTree := d :: treeWithout A.dataTree old })
  new : h'.datas d = some ⟨⟨⟨.mapped m, 0⟩, M.len⟩, .owned, 1, .mmap a M.offset false⟩
  other : ∀ {e}, e ≠ d →
    h'.datas e = if old = some e then (h.datas e).map Data.outdated else h.datas e

namespace NewMapping

variable (nm : NewMapping h h' a d m A M old)

include nm

theorem le : h.next ≤ h'.next := Nat.le_trans nm.nextData (Nat.le_of_lt nm.nextData')

theorem kind : h'.kindOf = h.kindOf := by
  ext b
  simp [Heap.kindOf, nm.buffers]

theorem shape_new : h'.shapeOf d = some (M.shape a m) := Heap.shapeOf_eq nm.new

theorem shape_other (he : e ≠ d) :
    h'.shapeOf e = if old = some e then (h.shapeOf e).map Shape.outdated else h.shapeOf e := by
  unfold Heap.shapeOf
  rw [nm.other he]
  by_cases ho : old = some e
  · simp only [ho, if_true, Option.map_map]
    rfl
  · simp only [ho, if_false]

/-- Data that is not new was there and has at most become obsolete. -/
theorem shape_old {s : Shape} (hs : h'.shapeOf e = some s) (he : e ≠ d) :
    ∃ t, h.shapeOf e = some t ∧ s = if old = some e then t.outdated else t := by
  rw [nm.shape_other he] at hs
  by_cases ho : old = some e
  · rw [if_pos ho] at hs
    obtain ⟨t, ht, rfl⟩ := Option.map_eq_some_iff.mp hs
    exact ⟨t, ht, by rw [if_pos ho]⟩
  · rw [if_neg ho] at hs
    exact ⟨s, hs, by rw [if_neg ho]⟩

theorem dataVec_old {s : Shape} (hs : h'.shapeOf e = some s) (he : e ≠ d) :
    ∃ t, h.shapeOf e = some t ∧ s.dataVec = t.dataVec ∧ s.responsibility = t.responsibility ∧
      s.operations.allocator = t.operations.allocator := by
  obtain ⟨t, ht, rfl⟩ := nm.shape_old hs he
  refine ⟨t, ht, ?_⟩
  by_cases ho : old = some e
  · simp [ho, DataClass.allocator_outdated]
  · simp [ho]

/-- Data of the trivial class is as it was. -/
theorem trivial_old {s : Shape} (hs : h'.shapeOf e = some s) (hop : s.operations = .trivial) :
    e ≠ d ∧ h.shapeOf e = some s := by
  have he : e ≠ d := by
    intro he
    rw [he, nm.shape_new] at hs
    cases hs
    simp [Mapping.shape] at hop
  obtain ⟨t, ht, hst⟩ := nm.shape_old hs he
  refine ⟨he, ?_⟩
  by_cases ho : old = some e
  · rw [if_pos ho] at hst
    subst hst
    rw [ht, Shape.outdated_eq hop]
  · rw [if_neg ho] at hst
    rw [ht, hst]

theorem isSome_shape (he : e ≠ d) : (h'.shapeOf e).isSome = (h.shapeOf e).isSome := by
  rw [nm.shape_other he]
  by_cases ho : old = some e <;> simp [ho]

theorem mapping_fresh (ha : Allocs h) : h.mappings m = none := by
  by_contra hn
  have hlt := ha.freshMapping (Option.isSome_iff_ne_none.mpr hn)
  have hle := nm.nextMapping
  omega

theorem data_fresh {c : Nat → Nat} (ho : Objs h c) : h.shapeOf d = none := by
  by_contra hn
  have hlt := ho.freshData (Option.isSome_iff_ne_none.mpr hn)
  have hle := nm.nextData
  omega

/-- Older data lies in another region than the new data. -/
theorem region_ne {c : Nat → Nat} {s : Shape} (ho : Objs h c) (ha : Allocs h)
    (hs : h.shapeOf e = some s) : s.dataVec.base.region ≠ .mapped m := by
  intro hr
  cases hop : s.operations with
  | trivial =>
      cases hresp : s.responsibility with
      | owned =>
          obtain ⟨n, hn, -⟩ := ho.owned hs hop hresp
          simp [hn] at hr
      | referenced =>
          obtain ⟨k, hk⟩ := ho.referenced hs hop hresp
          simp [hk] at hr
  | mmap a' off ob =>
      obtain ⟨n, N, A', hn, hN, -⟩ := ha.mapped hs hop
      have hnm : n = m := by simpa [hn] using hr
      rw [hnm, nm.mapping_fresh ha] at hN
      cases hN

theorem objs {c c' : Nat → Nat} (ho : Objs h c) (ha : Allocs h) (hd : c' d = 1)
    (hc : ∀ e, e ≠ d → c' e = c e) : Objs h' c' where
  live := fun e => by
    by_cases he : e = d
    · simp [he, nm.shape_new, hd]
    · rw [nm.isSome_shape he, hc e he]
      exact ho.live e
  count := fun {e E} hE => by
    by_cases he : e = d
    · subst he
      rw [nm.new] at hE
      cases hE
      rw [hd]
    · rw [nm.other he] at hE
      rw [hc e he]
      by_cases hold : old = some e
      · rw [if_pos hold] at hE
        obtain ⟨E', hE', rfl⟩ := Option.map_eq_some_iff.mp hE
        show E'.useCount = _
        exact ho.count hE'
      · rw [if_neg hold] at hE
        exact ho.count hE
  owned := fun hs hop hr => by
    rw [nm.blocks]
    exact ho.owned (nm.trivial_old hs hop).2 hop hr
  referenced := fun hs hop hr => ho.referenced (nm.trivial_old hs hop).2 hop hr
  owner := fun {n} hn => by
    rw [nm.blocks] at hn
    obtain ⟨e, s, hs, hop, hr⟩ := ho.owner hn
    have he : e ≠ d := by
      intro he
      rw [he, nm.data_fresh ho] at hs
      cases hs
    refine ⟨e, if old = some e then s.outdated else s, ?_, ?_, ?_⟩
    · rw [nm.shape_other he, hs]
      by_cases hold : old = some e <;> simp [hold]
    · by_cases hold : old = some e <;> simp [hold, hop, DataClass.outdated]
    · by_cases hold : old = some e <;> simp [hold, hr]
  excl := fun {e e' s s'} hs hs' hr => by
    by_cases he : e = d
    · by_cases he' : e' = d
      · exact .inr (he.trans he'.symm)
      · obtain ⟨t, ht, hvec, -⟩ := nm.dataVec_old hs' he'
        rw [he, nm.shape_new] at hs
        cases hs
        rw [hvec] at hr
        exact absurd hr.symm (nm.region_ne ho ha ht)
    · obtain ⟨t, ht, hvec, -⟩ := nm.dataVec_old hs he
      by_cases he' : e' = d
      · rw [he', nm.shape_new] at hs'
        cases hs'
        rw [hvec] at hr
        exact absurd hr (nm.region_ne ho ha ht)
      · obtain ⟨t', ht', hvec', -⟩ := nm.dataVec_old hs' he'
        rw [hvec, hvec'] at hr
        rw [hvec]
        exact ho.excl ht ht' hr
  freshData := fun {e} he => by
    by_cases hed : e = d
    · rw [hed]
      exact nm.nextData'
    · rw [nm.isSome_shape hed] at he
      exact Nat.lt_of_lt_of_le (ho.freshData he) nm.le
  freshBlock := fun {n} hn => by
    rw [nm.blocks] at hn
    exact Nat.lt_of_lt_of_le (ho.freshBlock hn) nm.le

theorem allocatorOf : h'.allocatorOf = update h.allocatorOf d (some a) := by
  ext e x
  by_cases he : e = d
  · simp [he, Heap.allocatorOf, nm.shape_new, Mapping.shape, DataClass.allocator]
  · rw [update_of_ne he, Heap.allocatorOf, Heap.allocatorOf, nm.shape_other he]
    by_cases hold : old = some e
    · cases hs : h.shapeOf e <;> simp [hold, DataClass.allocator_outdated]
    · simp [hold]

theorem allocRefs {c : Nat → Nat} (ho : Objs h c)
    (hb : ∀ {b}, (h.buffers b).isSome → b < h.next) (a' : Nat) :
    h'.allocRefs a' = h.allocRefs a' + if a = a' then 1 else 0 := by
  have hbuf : h'.bufferAllocatorOf = h.bufferAllocatorOf := by
    ext b
    simp [Heap.bufferAllocatorOf, nm.kind]
  have hnone : h.allocatorOf d = none := by
    simp [Heap.allocatorOf, nm.data_fresh ho]
  have hdatas : holders h'.next h.allocatorOf a' = holders h.next h.allocatorOf a' := by
    refine holders_extend nm.le ?_
    intro e he hal
    obtain ⟨s, -, -, hs, -⟩ := Heap.allocatorOf_eq_some.mp hal
    have hlt := ho.freshData (d := e) (by rw [hs]; rfl)
    omega
  have hbuffers : holders h'.next h.bufferAllocatorOf a'
      = holders h.next h.bufferAllocatorOf a' := by
    refine holders_extend nm.le ?_
    intro b hle hal
    have hsome : (h.kindOf b).isSome := by
      by_contra hno
      simp [Heap.bufferAllocatorOf, Option.not_isSome_iff_eq_none.mp hno] at hal
    have hlt := hb (h.isSome_kindOf b ▸ hsome)
    omega
  have hu := holders_update (d := a') (f := h.allocatorOf) (v := some a) nm.nextData'
  rw [hnone] at hu
  simp only [reduceCtorEq, if_false, Nat.add_zero, Option.some.injEq] at hu
  rw [Heap.allocRefs, Heap.allocRefs, nm.allocatorOf, hbuf, hu, hdatas, hbuffers]
  omega

theorem mem_treeWithout (hnd : A.dataTree.Nodup) :
    e ∈ treeWithout A.dataTree old ↔ old ≠ some e ∧ e ∈ A.dataTree := by
  cases old with
  | none => simp [treeWithout]
  | some o =>
      simp only [treeWithout, hnd.mem_erase_iff, ne_eq, Option.some.injEq]
      exact and_congr_left fun _ => not_congr eq_comm

theorem allocs {c : Nat → Nat} (ho : Objs h c) (ha : Allocs h)
    (hb : ∀ {b}, (h.buffers b).isSome → b < h.next) : Allocs h' where
  mapped := fun {e s a' off ob} hs hop => by
    by_cases he : e = d
    · subst he
      rw [nm.shape_new] at hs
      cases hs
      cases hop
      exact ⟨m, M, _, rfl, by rw [nm.mappings, update_self], rfl,
        by rw [nm.mmapAllocators, update_self], fun _ => List.mem_cons_self⟩
    · obtain ⟨t, ht, rfl⟩ := nm.shape_old hs he
      -- the fields it had before, obsolete or not
      obtain ⟨ob', hop', hob⟩ : ∃ ob', t.operations = .mmap a' off ob' ∧
          (ob = false → ob' = false ∧ old ≠ some e) := by
        by_cases hold : old = some e
        · rw [if_pos hold] at hop
          cases hc : t.operations with
          | trivial => simp [hc, DataClass.outdated] at hop
          | mmap a'' off' ob' =>
              simp only [Shape.outdated_operations, hc, DataClass.outdated,
                DataClass.mmap.injEq] at hop
              obtain ⟨rfl, rfl, rfl⟩ := hop
              exact ⟨ob', rfl, by simp⟩
        · rw [if_neg hold] at hop
          exact ⟨ob, hop, fun hf => ⟨hf, hold⟩⟩
      obtain ⟨n, N, A', hn, hN, hlen, hA', hin⟩ := ha.mapped ht hop'
      have hne : n ≠ m := by
        intro heq
        rw [heq, nm.mapping_fresh ha] at hN
        cases hN
      have hvec : (if old = some e then t.outdated else t).dataVec = t.dataVec := by
        by_cases hold : old = some e <;> simp [hold]
      rw [hvec, nm.mappings, nm.mmapAllocators]
      by_cases haa : a' = a
      · subst haa
        rw [nm.allocator] at hA'
        cases hA'
        refine ⟨n, N, _, hn, by rw [update_of_ne hne, hN], hlen, update_self _ _ _, ?_⟩
        intro hf
        obtain ⟨hf', hold⟩ := hob hf
        exact List.mem_cons_of_mem d
          ((mem_treeWithout nm (ha.tree nm.allocator).1).mpr ⟨hold, hin hf'⟩)
      · exact ⟨n, N, A', hn, by rw [update_of_ne hne, hN], hlen,
          by rw [update_of_ne haa, hA'], fun hf => hin (hob hf).1⟩
  tree := fun {a' A'} hA' => by
    rw [nm.mmapAllocators] at hA'
    have hfresh := nm.data_fresh ho
    by_cases haa : a' = a
    · subst haa
      rw [update_self] at hA'
      cases hA'
      obtain ⟨hnd, htree⟩ := ha.tree nm.allocator
      have hold : ∀ e, e ∈ treeWithout A.dataTree old → old ≠ some e ∧ e ∈ A.dataTree :=
        fun e he => (mem_treeWithout nm hnd).mp he
      constructor
      · refine List.nodup_cons.mpr ⟨?_, ?_⟩
        · intro hd
          obtain ⟨s, off, hs, -⟩ := htree d (hold d hd).2
          rw [hfresh] at hs
          cases hs
        · cases old with
          | none => exact hnd
          | some o => exact hnd.erase o
      · intro e he
        rcases List.mem_cons.mp he with rfl | he
        · exact ⟨_, _, nm.shape_new, rfl⟩
        · obtain ⟨hne, hin⟩ := hold e he
          obtain ⟨s, off, hs, hop⟩ := htree e hin
          have hed : e ≠ d := by
            intro heq
            rw [heq, hfresh] at hs
            cases hs
          exact ⟨s, off, by rw [nm.shape_other hed, if_neg hne, hs], hop⟩
    · rw [update_of_ne haa] at hA'
      obtain ⟨hnd, htree⟩ := ha.tree hA'
      refine ⟨hnd, ?_⟩
      intro e he
      obtain ⟨s, off, hs, hop⟩ := htree e he
      have hed : e ≠ d := by
        intro heq
        rw [heq, hfresh] at hs
        cases hs
      have hne : old ≠ some e := by
        intro heq
        obtain ⟨s', off', hs', hop'⟩ := (ha.tree nm.allocator).2 e (nm.replaces heq)
        rw [hs] at hs'
        cases hs'
        rw [hop] at hop'
        cases hop'
        exact haa rfl
      exact ⟨s, off, by rw [nm.shape_other hed, if_neg hne, hs], hop⟩
  count := fun {a' A'} hA' => by
    rw [nm.mmapAllocators] at hA'
    rw [nm.allocRefs ho hb]
    by_cases haa : a' = a
    · subst haa
      rw [update_self] at hA'
      cases hA'
      simp only [if_true]
      rw [ha.count nm.allocator, u16Inc_mod]
    · rw [update_of_ne haa] at hA'
      rw [if_neg (Ne.symm haa), Nat.add_zero]
      exact ha.count hA'
  live := fun a' => by
    rw [nm.allocRefs ho hb, nm.mmapAllocators]
    by_cases haa : a' = a
    · simp [haa]
    · rw [update_of_ne haa, if_neg (Ne.symm haa), Nat.add_zero]
      exact ha.live a'
  freshMapping := fun {n} hn => by
    rw [nm.mappings] at hn
    by_cases hnm : n = m
    · rw [hnm]
      exact nm.nextMapping'
    · rw [update_of_ne hnm] at hn
      exact Nat.lt_of_lt_of_le (ha.freshMapping hn) nm.le

/-- **A new mapping** is in the hands of the function that made it. -/
theorem core (hc : Core h R F X) : Core h' R F (d :: X) where
  links := hc.links.congr (Heap.nextOf_congr nm.pages) (Heap.prevOf_congr nm.pages)
    (fun b => by rw [nm.buffers]) (fun p => by rw [nm.pages]) nm.le
  views :=
    { data := fun {p} hp hb => by
        rw [Heap.dataOf_congr nm.pages]
        rw [nm.pages] at hp
        rw [nm.buffers] at hb
        exact hc.views.data hp hb
      sentinel := fun {b} hb => by
        rw [nm.buffers] at hb
        rw [Heap.dataOf_congr nm.pages, Heap.lenOf_congr nm.pages]
        exact hc.views.sentinel hb
      region := fun {p e s} hp hs => by
        rw [Heap.dataOf_congr nm.pages] at hp
        rw [Heap.vecOf_congr nm.pages]
        have he : e ≠ d := by
          intro heq
          obtain ⟨t, ht⟩ := hc.data_live hp
          rw [heq, nm.data_fresh hc.objs] at ht
          cases ht
        obtain ⟨t, ht, hvec, -⟩ := nm.dataVec_old hs he
        rw [hvec]
        exact hc.views.region hp ht }
  objs := by
    have hrefs := Heap.refs_congr (Heap.dataOf_congr nm.pages) nm.le hc.links.fresh
    have hzero : h.count X d = 0 := by
      by_contra hn
      have hlive := (hc.objs.live d).mpr (Nat.pos_of_ne_zero hn)
      simp [nm.data_fresh hc.objs] at hlive
    refine nm.objs hc.objs hc.allocs ?_ ?_
    · simp only [Heap.count, hrefs, List.count_cons_self] at hzero ⊢
      omega
    · intro e he
      simp only [Heap.count, hrefs, List.count_cons_of_ne he.symm]
  allocs := nm.allocs hc.objs hc.allocs hc.links.buffer_fresh
  writable := by
    intro b hb p hp
    obtain ⟨e, s, he, hs, hop, hrest⟩ := hc.writable b (hb.congr (congrFun nm.kind b)) p hp
    have hed : e ≠ d := by
      intro heq
      rw [heq, nm.data_fresh hc.objs] at hs
      cases hs
    refine ⟨e, if old = some e then s.outdated else s, ?_, ?_, ?_, ?_⟩
    · rw [Heap.dataOf_congr nm.pages, he]
    · rw [nm.shape_other hed, hs]
      by_cases hold : old = some e <;> simp [hold]
    · by_cases hold : old = some e <;> simp [hold, hop, DataClass.outdated]
    · rw [Heap.vecOf_congr nm.pages, Heap.lenOf_congr nm.pages]
      by_cases hold : old = some e <;> simpa [hold] using hrest

end NewMapping

end Pb
