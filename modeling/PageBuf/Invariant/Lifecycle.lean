import PageBuf.Invariant.Overwrite

/-!
# Lifecycle — creating and destroying buffers

A new buffer is an empty ring of its own. A buffer is cleared before it is
freed, so that its ring is empty again.
-/

namespace Pb

open StateRun Function Ring RefCount

variable {env : Env} {h h' : Heap} {R R' : Nat → List Nat} {F X : List Nat} {b : Nat} {B : Buffer}

/-- Other buffers and their pages are as they were. -/
structure Untouched (b : Nat) (h h' : Heap) (R R' : Nat → List Nat) : Prop where
  world : World h h'
  ring : ∀ {c}, c ≠ b → R' c = R c
  buffer : ∀ {c}, c ≠ b → h'.buffers c = h.buffers c
  same : ∀ {c p}, c ≠ b → p ∈ R c → Same h h' p

theorem Frame.untouched (f : Frame b h h' R R') : Untouched b h h' R R' :=
  ⟨f.world, f.ring, f.buffer, f.same⟩

/-! ## Creation -/

/-- The buffer that a successful creation adds. -/
def newBuffer (strategy : Strategy) : Buffer := { strategy := strategy, operations := .trivial }

/-- A heap with a new, empty buffer. -/
structure AddBuffer (h h' : Heap) (b : Nat) (strategy : Strategy) : Prop where
  fresh : h.next ≤ b
  next : b < h'.next
  rest : ∃ n c, h' = { h with
    next := n, calls := c
    pages := update h.pages b (some { prev := some b, next := some b })
    buffers := update h.buffers b (some (newBuffer strategy)) }

namespace AddBuffer

variable {strategy : Strategy} (ab : AddBuffer h h' b strategy)

include ab

theorem pages : h'.pages = update h.pages b (some { prev := some b, next := some b }) := by
  obtain ⟨n, c, rfl⟩ := ab.rest
  rfl

theorem buffers : h'.buffers = update h.buffers b (some (newBuffer strategy)) := by
  obtain ⟨n, c, rfl⟩ := ab.rest
  rfl

theorem le : h.next ≤ h'.next := Nat.le_trans ab.fresh (Nat.le_of_lt ab.next)

theorem shape : h'.shapeOf = h.shapeOf := by
  obtain ⟨n, c, rfl⟩ := ab.rest
  rfl

theorem world : World h h' := by
  have hle := ab.le
  have hfresh := ab.fresh
  obtain ⟨n, c, rfl⟩ := ab.rest
  exact
    { World.refl h with
      next := hle
      page := fun {p} hp hlt => by
        have hne : p ≠ b := by omega
        simpa [update_of_ne hne] using hp }

theorem page_none (hl : Links h R F) : h.pages b = none := by
  by_contra hn
  have := hl.fresh (Option.isSome_iff_ne_none.mpr hn)
  have := ab.fresh
  omega

theorem buffer_none (hl : Links h R F) : h.buffers b = none := by
  by_contra hn
  have := hl.buffer_fresh (Option.isSome_iff_ne_none.mpr hn)
  have := ab.fresh
  omega

theorem notMem (hl : Links h R F) {c p : Nat} (hp : p ∈ R c) : p ≠ b := by
  rintro rfl
  have := (hl.live p).mpr (.inr (.inl ⟨c, hp⟩))
  simp [ab.page_none hl] at this

theorem dataOf (hl : Links h R F) : h'.dataOf = h.dataOf := by
  rw [Heap.dataOf_congr (h := h.setPage b (some { prev := some b, next := some b })) ab.pages,
    Heap.dataOf_setPage]
  have : h.dataOf b = none := Heap.dataOf_of_none (ab.page_none hl)
  rw [Option.bind_some, ← this, update_eq_self]

theorem vecOf : h'.vecOf = update h.vecOf b ⟨Ptr.null, 0⟩ := by
  rw [Heap.vecOf_congr (h := h.setPage b (some { prev := some b, next := some b })) ab.pages,
    Heap.vecOf_setPage]
  rfl

theorem same (hc : Core h R F X) {p : Nat} (hp : p ≠ b) : Same h h' p := by
  have hv : h'.vecOf p = h.vecOf p := by rw [ab.vecOf, update_of_ne hp]
  refine ⟨hv, congrFun (ab.dataOf hc.links) p, ?_⟩
  rw [Heap.pageBytes, Heap.pageBytes, Heap.lenOf, Heap.lenOf, hv]
  obtain ⟨n, c, rfl⟩ := ab.rest
  exact Heap.bytes_congr (Heap.byteAt_congr rfl rfl rfl)

theorem kindOf {c : Nat} (hc : c ≠ b) : h'.kindOf c = h.kindOf c := by
  rw [Heap.kindOf, Heap.kindOf, ab.buffers, update_of_ne hc]

theorem bufferAllocatorOf (hc : Core h R F X) : h'.bufferAllocatorOf = h.bufferAllocatorOf := by
  funext c
  rcases eq_or_ne c b with rfl | hne
  · have h₁ : h'.kindOf c = some (strategy, .trivial) := by
      rw [Heap.kindOf, ab.buffers, update_self]
      rfl
    have h₂ : h.kindOf c = none := by
      rw [Heap.kindOf, ab.buffer_none hc.links]
      rfl
    rw [Heap.bufferAllocatorOf, Heap.bufferAllocatorOf, h₁, h₂]
    rfl
  · rw [Heap.bufferAllocatorOf, Heap.bufferAllocatorOf, ab.kindOf hne]

theorem links (hl : Links h R F) : Links h' R F := by
  have hn : h'.nextOf = update h.nextOf b (some b) := by
    rw [Heap.nextOf_congr (h := h.setPage b (some { prev := some b, next := some b })) ab.pages]
    exact Heap.nextOf_setPage
  have hp : h'.prevOf = update h.prevOf b (some b) := by
    rw [Heap.prevOf_congr (h := h.setPage b (some { prev := some b, next := some b })) ab.pages]
    exact Heap.prevOf_setPage
  have hnil : R b = [] := hl.dead (ab.buffer_none hl)
  exact
    { ring := fun {c} hcb => by
        rw [ab.buffers] at hcb
        rw [hn, hp]
        rcases eq_or_ne c b with rfl | hne
        · rw [hnil]
          exact isRing_nil (update_self _ _ _) (update_self _ _ _)
        · rw [update_of_ne hne] at hcb
          have hout : ∀ y ∈ c :: R c, y ≠ b := by
            intro y hy
            rcases List.mem_cons.mp hy with rfl | hy
            · exact hne
            · exact ab.notMem hl hy
          exact (hl.ring hcb).congr (fun y hy => update_of_ne (hout y hy) _ _)
            (fun y hy => update_of_ne (hout y hy) _ _)
      dead := fun {c} hcb => by
        rw [ab.buffers] at hcb
        rcases eq_or_ne c b with rfl | hne
        · simp at hcb
        · rw [update_of_ne hne] at hcb
          exact hl.dead hcb
      disj := hl.disj
      page := fun {c p} hpc => by
        rw [ab.buffers, update_of_ne (ab.notMem hl hpc)]
        exact hl.page hpc
      flight := hl.flight
      apart := fun {p} hpF => by
        have hne : p ≠ b := by
          rintro rfl
          have := (hl.live p).mpr (.inr (.inr hpF))
          simp [ab.page_none hl] at this
        rw [ab.buffers, update_of_ne hne]
        exact hl.apart hpF
      live := fun p => by
        rw [ab.pages, ab.buffers]
        rcases eq_or_ne p b with rfl | hne
        · simp
        · rw [update_of_ne hne, update_of_ne hne]
          exact hl.live p
      fresh := fun {p} hp' => by
        rw [ab.pages] at hp'
        rcases eq_or_ne p b with rfl | hne
        · exact ab.next
        · rw [update_of_ne hne] at hp'
          exact Nat.lt_of_lt_of_le (hl.fresh hp') ab.le }

theorem core (hc : Core h R F X) : Core h' R F X where
  links := ab.links hc.links
  views :=
    { data := fun {p} hp hb => by
        rw [ab.dataOf hc.links]
        have hne : p ≠ b := by
          rintro rfl
          simp [ab.buffers] at hb
        rw [ab.pages, update_of_ne hne] at hp
        rw [ab.buffers, update_of_ne hne] at hb
        exact hc.views.data hp hb
      sentinel := fun {c} hcb => by
        rw [ab.dataOf hc.links, Heap.lenOf, ab.vecOf]
        rw [ab.buffers] at hcb
        rcases eq_or_ne c b with rfl | hne
        · rw [update_self]
          exact ⟨Heap.dataOf_of_none (ab.page_none hc.links), rfl⟩
        · rw [update_of_ne hne] at hcb ⊢
          exact hc.views.sentinel hcb
      region := fun {p d s} hp hs => by
        rw [ab.dataOf hc.links] at hp
        rw [ab.shape] at hs
        rw [ab.vecOf, update_of_ne]
        · exact hc.views.region hp hs
        · rintro rfl
          simp [Heap.dataOf_of_none (ab.page_none hc.links)] at hp }
  objs := by
    have hcount := Heap.refs_congr (ab.dataOf hc.links) ab.le hc.links.fresh
    refine hc.objs.congr ab.shape (fun {d D'} hD => ⟨D', ?_, rfl⟩) ?_ ab.le
      (fun d => by rw [Heap.count, Heap.count, hcount])
    · obtain ⟨n, c, rfl⟩ := ab.rest
      exact hD
    · obtain ⟨n, c, rfl⟩ := ab.rest
      rfl
  allocs := by
    have hrefs : ∀ a, h'.allocRefs a = h.allocRefs a := by
      intro a
      have hmaps := Heap.MapsSame.allocatorOf (Heap.mapsSame_of_shape ab.shape)
      unfold Heap.allocRefs
      rw [hmaps, ab.bufferAllocatorOf hc, holders_extend ab.le, holders_extend ab.le]
      · intro c hle hca
        have hlive : (h.kindOf c).isSome := by
          by_contra hn
          simp [Heap.bufferAllocatorOf, Option.not_isSome_iff_eq_none.mp hn] at hca
        have := hc.links.buffer_fresh (h.isSome_kindOf c ▸ hlive)
        omega
      · intro d hle hda
        obtain ⟨s, -, -, hs, -⟩ := Heap.allocatorOf_eq_some.mp hda
        have := hc.objs.freshData (d := d) (by rw [hs]; rfl)
        omega
    refine hc.allocs.congr (Heap.mapsSame_of_shape ab.shape) ?_ ?_ hrefs ab.le
    · obtain ⟨n, c, rfl⟩ := ab.rest
      rfl
    · obtain ⟨n, c, rfl⟩ := ab.rest
      rfl
  writable := fun c hcw p hp => by
    have hpb := ab.notMem hc.links hp
    have hne : c ≠ b := by
      rintro rfl
      rw [hc.links.dead (ab.buffer_none hc.links)] at hp
      simp at hp
    refine (hc.writable c (hcw.congr (ab.kindOf hne)) p hp).congr (congrFun (ab.dataOf hc.links) p) ?_
      (fun _ hs => by rwa [ab.shape])
    rw [ab.vecOf, update_of_ne hpb]

theorem totals (hc : Core h R F X) (ht : Totals h R) : Totals h' R := by
  intro c C hC
  rw [ab.buffers] at hC
  rcases eq_or_ne c b with rfl | hne
  · rw [update_self] at hC
    cases hC
    rw [hc.links.dead (ab.buffer_none hc.links)]
    rfl
  · rw [update_of_ne hne] at hC
    rw [ht c C hC, List.map_congr_left (fun p hp => ((ab.same hc (ab.notMem hc.links hp)).len).symm)]

theorem untouched (hc : Core h R F X) : Untouched b h h' R R where
  world := ab.world
  ring := fun _ => rfl
  buffer := fun hne => by rw [ab.buffers, update_of_ne hne]
  same := fun _ hp => ab.same hc (ab.notMem hc.links hp)

theorem fits (hc : Core h R F X) (hf : h.Fits) : h'.Fits where
  small := fun d => by
    rw [Heap.refs_congr (ab.dataOf hc.links) ab.le hc.links.fresh]
    exact hf.small d
  allocs := fun a => Nat.le_trans
    (hc.allocRefs_le ab.world (fun {c} hca => by rwa [ab.bufferAllocatorOf hc] at hca)) (hf.allocs a)

end AddBuffer

/-- `pb_trivial_buffer_create_with_strategy`. -/
theorem trivialBufferCreate_run (env : Env) (h : Heap) (strategy : Strategy) :
    Yields (trivialBufferCreate env strategy) h (fun r h' => match r with
      | none => Refused env ∧ Idle h h' ∧ h'.mem = h.mem ∧ h'.buffers = h.buffers
      | some b => AddBuffer h h' b strategy) := by
  unfold trivialBufferCreate
  rcases request_cases env h with ⟨-, hrun⟩ | ⟨hg, hrun⟩
  · refine Yields.step hrun ?_
    rcases request_cases env h.granted with ⟨-, hrun'⟩ | ⟨hg, hrun'⟩
    · refine Yields.step hrun' (Yields.step (modify_run _) (Yields.step (modify_run _) ?_))
      refine yields_pure.mpr ⟨Nat.le_succ _, Nat.lt_succ_self _, h.next + 2, h.calls + 2, rfl⟩
    · refine Yields.step hrun' (yields_pure.mpr ⟨⟨_, hg⟩, ?_, rfl, rfl⟩)
      exact (Idle.granted h).trans (Idle.refused _)
  · exact Yields.step hrun (yields_pure.mpr ⟨⟨_, hg⟩, Idle.refused h, rfl, rfl⟩)

/-! ## Destruction -/

/-- A heap without the buffer `b`. -/
def Heap.freed (h : Heap) (b : Nat) : Heap := (h.setBuffer b none).setPage b none

theorem freeBuffer_run (hb : (h.buffers b).isSome) : freeBuffer b h = .ok ((), h.freed b) :=
  if_pos hb

theorem vecOf_freed {p : Nat} (hp : p ≠ b) : (h.freed b).vecOf p = h.vecOf p := by
  rw [Heap.freed, Heap.vecOf_setPage, update_of_ne hp]
  rfl

/-- An empty ring goes with its buffer. -/
theorem Links.freed (hl : Links h R F) (hb : (h.buffers b).isSome) (hR : R b = []) :
    Links (h.freed b) R F := by
  have hpne : ∀ {c p}, p ∈ R c → p ≠ b := by
    rintro c p hp rfl
    simp [hl.page hp] at hb
  have hFne : ∀ {p}, p ∈ F → p ≠ b := by
    rintro p hp rfl
    simp [(hl.apart hp).1] at hb
  have hbuf : (h.freed b).buffers = update h.buffers b none := rfl
  have hpages : (h.freed b).pages = update h.pages b none := rfl
  exact
    { ring := fun {c} hcb => by
        rw [hbuf] at hcb
        have hne : c ≠ b := by
          rintro rfl
          simp at hcb
        rw [update_of_ne hne] at hcb
        have hout : ∀ y ∈ c :: R c, y ≠ b := by
          intro y hy
          rcases List.mem_cons.mp hy with rfl | hy
          · exact hne
          · exact hpne hy
        refine (hl.ring hcb).congr (fun y hy => ?_) (fun y hy => ?_)
        · rw [Heap.freed, Heap.nextOf_setPage, update_of_ne (hout y hy)]
          rfl
        · rw [Heap.freed, Heap.prevOf_setPage, update_of_ne (hout y hy)]
          rfl
      dead := fun {c} hcb => by
        rw [hbuf] at hcb
        rcases eq_or_ne c b with rfl | hne
        · exact hR
        · rw [update_of_ne hne] at hcb
          exact hl.dead hcb
      disj := hl.disj
      page := fun {c p} hp => by
        rw [hbuf, update_of_ne (hpne hp)]
        exact hl.page hp
      flight := hl.flight
      apart := fun {p} hp => by
        rw [hbuf, update_of_ne (hFne hp)]
        exact hl.apart hp
      live := fun p => by
        rw [hbuf, hpages]
        rcases eq_or_ne p b with rfl | hne
        · simp only [update_self, Option.isSome_none, Bool.false_eq_true, false_or, false_iff,
            not_or, not_exists]
          exact ⟨fun c hp => hpne hp rfl, fun hp => hFne hp rfl⟩
        · rw [update_of_ne hne, update_of_ne hne]
          exact hl.live p
      fresh := fun {p} hp => by
        rw [hpages] at hp
        rcases eq_or_ne p b with rfl | hne
        · simp at hp
        · rw [update_of_ne hne] at hp
          exact hl.fresh hp }

theorem dataOf_freed (hd : h.dataOf b = none) : (h.freed b).dataOf = h.dataOf := by
  rw [Heap.freed, Heap.dataOf_setPage, Option.bind_none]
  show update h.dataOf b none = h.dataOf
  rw [← hd, update_eq_self]

section Free

variable (hc : Core h R F X) (hb : (h.buffers b).isSome)

include hc hb

theorem same_freed {p : Nat} (hp : p ≠ b) : Same h (h.freed b) p := by
  refine ⟨vecOf_freed hp, congrFun (dataOf_freed (hc.views.sentinel hb).1) p, ?_⟩
  rw [Heap.pageBytes, Heap.pageBytes, Heap.lenOf, Heap.lenOf, vecOf_freed hp]
  exact Heap.bytes_congr (Heap.byteAt_congr rfl rfl rfl)

theorem untouched_freed (hR : ∀ {c p}, p ∈ R c → p ≠ b) : Untouched b h (h.freed b) R R where
  world :=
    { World.refl h with
      page := fun {p} hp _ => by
        rcases eq_or_ne p b with rfl | hne
        · simp [Heap.freed] at hp
        · rwa [Heap.freed, Heap.pages_setPage, update_of_ne hne] at hp }
  ring := fun _ => rfl
  buffer := fun hne => update_of_ne hne _ _
  same := fun _ hp => same_freed hc hb (hR hp)

/-- Freeing an empty trivial buffer. -/
theorem core_freed (hR : R b = []) (htriv : h.IsTrivial b) : Core (h.freed b) R F X where
  links := hc.links.freed hb hR
  views :=
    { data := fun {p} hp hbp => by
        rw [dataOf_freed (hc.views.sentinel hb).1]
        have hne : p ≠ b := by
          rintro rfl
          simp [Heap.freed] at hp
        refine hc.views.data (h := h) (p := p) ?_ ?_
        · rwa [Heap.freed, Heap.pages_setPage, update_of_ne hne] at hp
        · have : (h.freed b).buffers p = h.buffers p := update_of_ne hne _ _
          rwa [this] at hbp
      sentinel := fun {c} hcb => by
        have hne : c ≠ b := by
          rintro rfl
          simp [Heap.freed, Heap.setPage] at hcb
        have : (h.freed b).buffers c = h.buffers c := update_of_ne hne _ _
        rw [this] at hcb
        rw [dataOf_freed (hc.views.sentinel hb).1, Heap.lenOf, vecOf_freed hne]
        exact hc.views.sentinel hcb
      region := fun {p d s} hp hs => by
        rw [dataOf_freed (hc.views.sentinel hb).1] at hp
        have hne : p ≠ b := by
          rintro rfl
          simp [(hc.views.sentinel hb).1] at hp
        rw [vecOf_freed hne]
        exact hc.views.region hp hs }
  objs := by
    refine hc.objs.congr rfl (fun hD => ⟨_, hD, rfl⟩) rfl (Nat.le_refl _) (fun d => ?_)
    rw [Heap.count, Heap.count, Heap.refs, dataOf_freed (hc.views.sentinel hb).1]
    rfl
  allocs := by
    have hba : (h.freed b).bufferAllocatorOf = h.bufferAllocatorOf := by
      funext c
      rcases eq_or_ne c b with rfl | hne
      · obtain ⟨B, hB, hop⟩ := htriv
        have h₁ : (h.freed c).kindOf c = none := by
          show ((update h.buffers c none) c).map _ = none
          rw [update_self]
          rfl
        rw [Heap.bufferAllocatorOf, Heap.bufferAllocatorOf, h₁, Heap.kindOf, hB, Option.map_some,
          hop]
        rfl
      · have : (h.freed b).kindOf c = h.kindOf c := by
          show ((update h.buffers b none) c).map _ = _
          rw [update_of_ne hne]
          rfl
        rw [Heap.bufferAllocatorOf, Heap.bufferAllocatorOf, this]
    refine hc.allocs.congr (Heap.mapsSame_of_shape rfl) rfl rfl (fun a => ?_) (Nat.le_refl _)
    rw [Heap.allocRefs, Heap.allocRefs, hba]
    rfl
  writable := fun c hcw p hp => by
    have hpb : p ≠ b := by
      rintro rfl
      simp [hc.links.page hp] at hb
    have hne : c ≠ b := by
      rintro rfl
      simp [hR] at hp
    have hk : (h.freed b).kindOf c = h.kindOf c := by
      show ((update h.buffers b none) c).map _ = _
      rw [update_of_ne hne]
      rfl
    exact (hc.writable c (hcw.congr hk) p hp).congr (congrFun (dataOf_freed (hc.views.sentinel hb).1) p)
      (vecOf_freed hpb) (fun _ hs => hs)

end Free

/-- `pb_trivial_buffer_destroy`. -/
theorem trivialBufferDestroy_spec (hi : Inv h R) (hf : h.Fits) (htriv : h.IsTrivial b) :
    Yields (trivialBufferDestroy env b) h (fun _ h' => Inv h' (update R b []) ∧ h'.Fits ∧
      h'.buffers b = none ∧ Untouched b h h' R (update R b [])) := by
  unfold trivialBufferDestroy
  refine Yields.bind (trivialBufferClear_spec hi hf htriv) ?_
  rintro _ h₁ hs
  have htriv₁ := htriv.congr hs.frame.kind
  have hc₁ := hs.core
  have hR : update R b [] b = [] := update_self _ _ _
  have hout : ∀ {c p}, p ∈ update R b [] c → p ≠ b := by
    rintro c p hp rfl
    have := hc₁.links.page hp
    have hb := htriv₁.isSome
    simp [this] at hb
  refine Yields.intro (freeBuffer_run htriv₁.isSome) ⟨⟨core_freed hc₁ htriv₁.isSome hR htriv₁, ?_⟩,
    ?_, update_self _ _ _, ?_⟩
  · intro c C hC
    have hne : c ≠ b := by
      rintro rfl
      simp [Heap.freed, Heap.setPage] at hC
    have hbc : (h₁.freed b).buffers c = h₁.buffers c := update_of_ne hne _ _
    rw [hbc] at hC
    rw [hs.totals c C hC]
    exact congrArg List.sum (List.map_congr_left (fun p hp =>
      (same_freed hc₁ htriv₁.isSome (hout hp)).len.symm))
  · have hf₁ := hs.fits hf
    refine ⟨fun d => ?_, fun a => Nat.le_trans ?_ (hf₁.allocs a)⟩
    · rw [Heap.refs, dataOf_freed (hc₁.views.sentinel htriv₁.isSome).1]
      exact hf₁.small d
    · refine hc₁.allocRefs_le (untouched_freed hc₁ htriv₁.isSome hout).world
        (fun {c} hca => ?_)
      rcases eq_or_ne c b with rfl | hne
      · simp [Heap.bufferAllocatorOf, Heap.kindOf, Heap.freed, Heap.setPage] at hca
      · have : (h₁.freed b).kindOf c = h₁.kindOf c := by
          show ((update h₁.buffers b none) c).map _ = _
          rw [update_of_ne hne]
          rfl
        rwa [Heap.bufferAllocatorOf, this] at hca
  · have hu := untouched_freed hc₁ htriv₁.isSome hout
    have hfr := hs.frame
    exact ⟨hfr.world.trans hu.world, hfr.ring, fun hne => (hu.buffer hne).trans (hfr.buffer hne),
      fun hne hp => (hfr.same hne hp).trans (hu.same hne (by rwa [hfr.ring hne]))⟩

end Pb
