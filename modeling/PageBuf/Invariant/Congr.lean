import PageBuf.Invariant.Core

/-!
# Congr — what the parts of the invariant depend on

Each part of the invariant survives a change of the heap that leaves alone
what the part speaks of. One kind of change needs no argument of its own:
`Idle`, where only the counters of addresses and requests move.
-/

namespace Pb

open StateRun Function Ring RefCount

variable {h h' : Heap} {R : Nat → List Nat} {F X : List Nat}

theorem none_congr {α β : Type} {o : Option α} {o' : Option β} (ho : o'.isSome = o.isSome) :
    o' = none ↔ o = none := by
  cases o <;> cases o' <;> simp_all

namespace Heap

theorem shapeOf_eq {d : Nat} {D : Data} (hD : h.datas d = some D) :
    h.shapeOf d = some D.shape := by
  simp [shapeOf, hD]

theorem exists_data {d : Nat} (hd : (h.shapeOf d).isSome) : ∃ D, h.datas d = some D := by
  simpa [shapeOf, Option.isSome_iff_exists] using hd

theorem isSome_kindOf (b : Nat) : (h.kindOf b).isSome = (h.buffers b).isSome := by
  simp [kindOf]

theorem buffers_isSome_congr (hk : h'.kindOf = h.kindOf) (b : Nat) :
    (h'.buffers b).isSome = (h.buffers b).isSome := by
  rw [← isSome_kindOf, ← isSome_kindOf, hk]

theorem refs_congr (hd : h'.dataOf = h.dataOf) (hx : h.next ≤ h'.next)
    (hf : ∀ {p}, (h.pages p).isSome → p < h.next) (d : Nat) : h'.refs d = h.refs d := by
  rw [refs, refs, hd]
  refine holders_extend hx (fun p hp hpd => ?_)
  have hs : (h.pages p).isSome := by
    by_contra hn
    simp [dataOf_of_none (Option.not_isSome_iff_eq_none.mp hn)] at hpd
  exact absurd (hf hs) (by omega)

theorem refs_pos {p d : Nat} (hp : p < h.next) (hd : h.dataOf p = some d) :
    0 < h.refs d := holders_pos_iff.mpr ⟨p, hp, hd⟩

/-- The mapped data are the same. -/
def MapsSame (h h' : Heap) : Prop :=
  ∀ {d s}, s.operations ≠ .trivial → (h'.shapeOf d = some s ↔ h.shapeOf d = some s)

theorem mapsSame_of_shape (hs : h'.shapeOf = h.shapeOf) : MapsSame h h' :=
  fun {d s} _ => by rw [hs]

theorem allocatorOf_eq_some {d a : Nat} : h.allocatorOf d = some a ↔
    ∃ s off ob, h.shapeOf d = some s ∧ s.operations = .mmap a off ob := by
  constructor
  · intro ha
    obtain ⟨s, hs, hop⟩ := Option.bind_eq_some_iff.mp ha
    cases hc : s.operations with
    | trivial => simp [hc, DataClass.allocator] at hop
    | mmap a' off ob =>
        simp only [hc, DataClass.allocator, Option.some.injEq] at hop
        exact ⟨s, off, ob, hs, by rw [hc, hop]⟩
  · rintro ⟨s, off, ob, hs, hop⟩
    simp [allocatorOf, hs, hop, DataClass.allocator]

theorem MapsSame.allocatorOf (hs : MapsSame h h') : h'.allocatorOf = h.allocatorOf := by
  funext d
  refine Option.ext (fun a => ?_)
  simp only [allocatorOf_eq_some]
  constructor
  · rintro ⟨s, off, ob, hd, hop⟩
    exact ⟨s, off, ob, (hs (by simp [hop])).mp hd, hop⟩
  · rintro ⟨s, off, ob, hd, hop⟩
    exact ⟨s, off, ob, (hs (by simp [hop])).mpr hd, hop⟩

theorem allocRefs_congr (hs : MapsSame h h') (hk : h'.kindOf = h.kindOf)
    (hx : h.next ≤ h'.next) (hf : ∀ {d}, (h.shapeOf d).isSome → d < h.next)
    (hfb : ∀ {b}, (h.buffers b).isSome → b < h.next) (a : Nat) :
    h'.allocRefs a = h.allocRefs a := by
  have hb : h'.bufferAllocatorOf = h.bufferAllocatorOf := by
    funext b
    simp [bufferAllocatorOf, hk]
  rw [allocRefs, allocRefs, hs.allocatorOf, hb, holders_extend hx, holders_extend hx]
  · intro b hb hsome
    have : (h.kindOf b).isSome := by
      by_contra hn
      simp [bufferAllocatorOf, Option.not_isSome_iff_eq_none.mp hn] at hsome
    exact absurd (hfb (h.isSome_kindOf b ▸ this)) (by omega)
  · intro d hd hsome
    obtain ⟨s, -, -, hs', -⟩ := allocatorOf_eq_some.mp hsome
    exact absurd (hf (by rw [hs']; rfl)) (by omega)

end Heap

/-! ## The parts -/

theorem Links.buffer_fresh (hl : Links h R F) {b : Nat} (hb : (h.buffers b).isSome) :
    b < h.next := hl.fresh ((hl.live b).mpr (.inl hb))

theorem Links.congr (hl : Links h R F) (hn : h'.nextOf = h.nextOf) (hp : h'.prevOf = h.prevOf)
    (hb : ∀ b, (h'.buffers b).isSome = (h.buffers b).isSome)
    (hs : ∀ p, (h'.pages p).isSome = (h.pages p).isSome) (hx : h.next ≤ h'.next) :
    Links h' R F where
  ring := fun {b} hb' => by
    rw [hn, hp]
    exact hl.ring (hb b ▸ hb')
  dead := fun {b} hb' => hl.dead ((none_congr (hb b)).mp hb')
  disj := hl.disj
  page := fun {b p} hp' => (none_congr (hb p)).mpr (hl.page hp')
  flight := hl.flight
  apart := fun {p} hp' => ⟨(none_congr (hb p)).mpr (hl.apart hp').1, (hl.apart hp').2⟩
  live := fun p => by
    rw [hs, hb]
    exact hl.live p
  fresh := fun {p} hp' => Nat.lt_of_lt_of_le (hl.fresh (hs p ▸ hp')) hx

theorem Views.congr (hv : Views h) (hd : h'.dataOf = h.dataOf) (hvec : h'.vecOf = h.vecOf)
    (hb : ∀ b, (h'.buffers b).isSome = (h.buffers b).isSome)
    (hs : ∀ p, (h'.pages p).isSome = (h.pages p).isSome)
    (hsh : ∀ {p d s}, h.dataOf p = some d → h'.shapeOf d = some s → h.shapeOf d = some s) :
    Views h' where
  data := fun {p} hp hn => by
    rw [hd]
    exact hv.data (hs p ▸ hp) ((none_congr (hb p)).mp hn)
  sentinel := fun {b} hb' => by
    rw [hd, Heap.lenOf, hvec]
    exact hv.sentinel (hb b ▸ hb')
  region := fun {p d s} hp hs' => by
    rw [hvec]
    rw [hd] at hp
    exact hv.region hp (hsh hp hs')

theorem Objs.congr {c c' : Nat → Nat} (ho : Objs h c) (hs : h'.shapeOf = h.shapeOf)
    (hu : ∀ {d D'}, h'.datas d = some D' → ∃ D, h.datas d = some D ∧ D'.useCount = D.useCount)
    (hb : h'.blocks = h.blocks) (hx : h.next ≤ h'.next) (hc : ∀ d, c' d = c d) :
    Objs h' c' where
  live := fun d => by
    rw [hs, hc]
    exact ho.live d
  count := fun {d D'} hD' => by
    obtain ⟨D, hD, he⟩ := hu hD'
    rw [he, hc]
    exact ho.count hD
  owned := fun {d s} hs' => by
    rw [hs] at hs'
    rw [hb]
    exact ho.owned hs'
  referenced := fun {d s} hs' => by
    rw [hs] at hs'
    exact ho.referenced hs'
  owner := fun {n} hn => by
    rw [hb] at hn
    rw [hs]
    exact ho.owner hn
  excl := fun {d d' s s'} h₁ h₂ => by
    rw [hs] at h₁ h₂
    exact ho.excl h₁ h₂
  freshData := fun {d} hd => by
    rw [hs] at hd
    exact Nat.lt_of_lt_of_le (ho.freshData hd) hx
  freshBlock := fun {n} hn => by
    rw [hb] at hn
    exact Nat.lt_of_lt_of_le (ho.freshBlock hn) hx

theorem Allocs.congr (ha : Allocs h) (hs : Heap.MapsSame h h')
    (hA : h'.mmapAllocators = h.mmapAllocators) (hM : h'.mappings = h.mappings)
    (hr : ∀ a, h'.allocRefs a = h.allocRefs a) (hx : h.next ≤ h'.next) : Allocs h' where
  mapped := fun {d s a off ob} hd ho => by
    rw [hA, hM]
    exact ha.mapped ((hs (by simp [ho])).mp hd) ho
  tree := fun {a A} haA => by
    rw [hA] at haA
    refine ⟨(ha.tree haA).1, fun d hd => ?_⟩
    obtain ⟨s, off, hd, ho⟩ := (ha.tree haA).2 d hd
    exact ⟨s, off, (hs (by simp [ho])).mpr hd, ho⟩
  count := fun {a A} haA => by
    rw [hA] at haA
    rw [hr]
    exact ha.count haA
  live := fun a => by
    rw [hA, hr]
    exact ha.live a
  freshMapping := fun {m} hm => by
    rw [hM] at hm
    exact Nat.lt_of_lt_of_le (ha.freshMapping hm) hx

theorem Heap.InData.congr {p : Nat} (hi : h.InData p) (hd : h'.dataOf p = h.dataOf p)
    (hv : h'.vecOf p = h.vecOf p)
    (hs : ∀ {d s}, h.dataOf p = some d → h.shapeOf d = some s → h'.shapeOf d = some s) :
    h'.InData p := by
  obtain ⟨d, s, hd', hs', hrest⟩ := hi
  refine ⟨d, s, hd.trans hd', hs hd' hs', ?_⟩
  simpa only [Heap.lenOf, hv] using hrest

theorem Heap.WritesInPlace.congr {b : Nat} (hw : h'.WritesInPlace b)
    (hk : h'.kindOf b = h.kindOf b) : h.WritesInPlace b := by
  obtain ⟨σ, hσ, hc⟩ := hw
  exact ⟨σ, hk ▸ hσ, hc⟩

theorem Writable.congr (hw : Writable h R) (hd : h'.dataOf = h.dataOf)
    (hv : h'.vecOf = h.vecOf) (hk : h'.kindOf = h.kindOf)
    (hs : ∀ {p d s}, h.dataOf p = some d → h.shapeOf d = some s → h'.shapeOf d = some s) :
    Writable h' R := by
  intro b hb p hp
  exact (hw b (hb.congr (congrFun hk b)) p hp).congr (congrFun hd p) (congrFun hv p) hs

theorem Core.page_fresh (hc : Core h R F X) {p d : Nat} (hd : h.dataOf p = some d) :
    p < h.next := by
  refine hc.links.fresh ?_
  by_contra hn
  simp [Heap.dataOf_of_none (Option.not_isSome_iff_eq_none.mp hn)] at hd

/-- A page refers to live data. -/
theorem Core.data_live (hc : Core h R F X) {p d : Nat} (hd : h.dataOf p = some d) :
    ∃ s, h.shapeOf d = some s := by
  have hpos := Heap.refs_pos (hc.page_fresh hd) hd
  exact Option.isSome_iff_exists.mp ((hc.objs.live d).mpr (by unfold Heap.count; omega))

/-! ## Changes that need no argument -/

/-- Nothing but counters has changed: addresses, requests, the sizes and
revisions of buffers, and memory outside of the caller's. -/
structure Idle (h h' : Heap) : Prop where
  next : h.next ≤ h'.next
  pages : h'.pages = h.pages
  datas : h'.datas = h.datas
  kind : h'.kindOf = h.kindOf
  blocks : h'.blocks = h.blocks
  caller : ∀ k, h'.mem (.caller k) = h.mem (.caller k)
  callerLen : h'.callerLen = h.callerLen
  mmapAllocators : h'.mmapAllocators = h.mmapAllocators
  mappings : h'.mappings = h.mappings
  files : h'.files = h.files

theorem Idle.refl (h : Heap) : Idle h h :=
  ⟨Nat.le_refl _, rfl, rfl, rfl, rfl, fun _ => rfl, rfl, rfl, rfl, rfl⟩

theorem Idle.trans {h'' : Heap} (i : Idle h h') (j : Idle h' h'') : Idle h h'' where
  next := Nat.le_trans i.next j.next
  pages := j.pages.trans i.pages
  datas := j.datas.trans i.datas
  kind := j.kind.trans i.kind
  blocks := j.blocks.trans i.blocks
  caller := fun k => (j.caller k).trans (i.caller k)
  callerLen := j.callerLen.trans i.callerLen
  mmapAllocators := j.mmapAllocators.trans i.mmapAllocators
  mappings := j.mappings.trans i.mappings
  files := j.files.trans i.files

theorem Idle.shape (i : Idle h h') : h'.shapeOf = h.shapeOf := by
  funext d
  simp [Heap.shapeOf, i.datas]

theorem Idle.world (i : Idle h h') : World h h' where
  caller := i.caller
  callerLen := i.callerLen
  files := i.files
  next := i.next
  page := fun hp _ => by rwa [i.pages] at hp
  data := fun hs _ => by rwa [i.shape] at hs
  block := fun hn _ => by rwa [i.blocks] at hn
  mapped := fun hs _ => by rwa [i.shape] at hs
  mapping := fun hM => by rwa [i.mappings] at hM
  allocator := fun hA => by
    rw [i.mmapAllocators] at hA
    exact ⟨_, hA, rfl, rfl⟩

theorem Core.idle (hc : Core h R F X) (i : Idle h h') : Core h' R F X where
  links := hc.links.congr (Heap.nextOf_congr i.pages) (Heap.prevOf_congr i.pages)
    (Heap.buffers_isSome_congr i.kind) (fun p => by rw [i.pages]) i.next
  views := hc.views.congr (Heap.dataOf_congr i.pages) (Heap.vecOf_congr i.pages)
    (Heap.buffers_isSome_congr i.kind) (fun p => by rw [i.pages])
    (fun _ hs => by rwa [i.shape] at hs)
  objs := hc.objs.congr i.shape (fun hD => ⟨_, i.datas ▸ hD, rfl⟩) i.blocks i.next
    (fun d => by
      rw [Heap.count, Heap.count,
        Heap.refs_congr (Heap.dataOf_congr i.pages) i.next hc.links.fresh])
  allocs := hc.allocs.congr (Heap.mapsSame_of_shape i.shape) i.mmapAllocators i.mappings
    (Heap.allocRefs_congr (Heap.mapsSame_of_shape i.shape) i.kind i.next hc.objs.freshData hc.links.buffer_fresh)
    i.next
  writable := hc.writable.congr (Heap.dataOf_congr i.pages) (Heap.vecOf_congr i.pages)
    i.kind (fun _ hs => by rwa [i.shape])

end Pb
