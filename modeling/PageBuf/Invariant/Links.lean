import PageBuf.Invariant.Pages

/-!
# Links — linking and unlinking pages

The surgery on the rings: what the assignments to `prev` and `next` do, and
that they turn rings into rings.
-/

namespace Pb

open StateRun Function Ring RefCount

variable {env : Env} {h h' : Heap} {R : Nat → List Nat} {F X l₁ l₂ : List Nat} {d x b p : Nat}

/-! ## Assignments to the fields of a page -/

/-- Only pages have changed, and of them neither the data nor the region, nor
the length of a `page_end`. -/
structure Edited (h h' : Heap) : Prop where
  rest : h' = { h with pages := h'.pages }
  dataOf : h'.dataOf = h.dataOf
  live : ∀ p, (h'.pages p).isSome = (h.pages p).isSome
  region : ∀ p, (h'.vecOf p).base.region = (h.vecOf p).base.region
  sentinel : ∀ b, (h.buffers b).isSome → h'.lenOf b = h.lenOf b

theorem Edited.trans {h'' : Heap} (e : Edited h h') (e' : Edited h' h'') : Edited h h'' where
  rest := by
    rw [e'.rest, e.rest]
  dataOf := e'.dataOf.trans e.dataOf
  live := fun p => (e'.live p).trans (e.live p)
  region := fun p => (e'.region p).trans (e.region p)
  sentinel := fun b hb => (e'.sentinel b (by rw [e.rest]; exact hb)).trans (e.sentinel b hb)

theorem Edited.buffers (e : Edited h h') : h'.buffers = h.buffers := by
  rw [e.rest]

theorem Edited.world (e : Edited h h') : World h h' := by
  have hlive := e.live
  rw [e.rest] at hlive ⊢
  exact { World.refl h with page := fun {p} hp _ => (hlive p).symm.trans hp }

theorem Edited.byteAt (e : Edited h h') (r : Region) (i : Nat) :
    h'.byteAt r i = h.byteAt r i := by
  rw [e.rest]
  exact Heap.byteAt_congr rfl rfl rfl i

theorem Edited.bytes (e : Edited h h') (q : Ptr) (n : Nat) : h'.bytes q n = h.bytes q n :=
  Heap.bytes_congr (e.byteAt _)

/-- A page whose vector was not assigned to. -/
theorem Edited.same (e : Edited h h') (hv : h'.vecOf p = h.vecOf p) : Same h h' p :=
  ⟨hv, congrFun e.dataOf p, by
    rw [Heap.pageBytes, Heap.pageBytes, e.bytes, Heap.lenOf, Heap.lenOf, hv]⟩

theorem Edited.of_setPage {P P' : Page} (hP : h.pages p = some P) (hd : P'.data = P.data)
    (hr : P'.dataVec.base.region = P.dataVec.base.region)
    (hs : (h.buffers p).isSome → P'.dataVec.len = P.dataVec.len) :
    Edited h (h.setPage p (some P')) where
  rest := rfl
  dataOf := by
    rw [Heap.dataOf_setPage, Option.bind_some, hd, ← Heap.dataOf_eq hP, update_eq_self]
  live := fun q => by
    rw [Heap.pages_setPage]
    rcases eq_or_ne q p with rfl | hq <;> simp [*]
  region := fun q => by
    rw [Heap.vecOf_setPage]
    rcases eq_or_ne q p with rfl | hq
    · simp [hr, Heap.vecOf_eq hP]
    · rw [update_of_ne hq]
  sentinel := fun b hb => by
    rw [Heap.lenOf, Heap.vecOf_setPage, Heap.lenOf]
    rcases eq_or_ne b p with rfl | hq
    · simp [hs hb, Heap.vecOf_eq hP]
    · rw [update_of_ne hq]

/-- An edit that leaves the invariant of the rings and the pages written in
place. -/
theorem Core.edit {R' : Nat → List Nat} {F' : List Nat} (hc : Core h R F X) (e : Edited h h')
    (hl : Links h' R' F') (hw : Writable h' R') : Core h' R' F' X where
  links := hl
  views :=
    { data := fun {p} hp hb => by
        rw [e.dataOf]
        exact hc.views.data (e.live p ▸ hp) (by rwa [e.buffers] at hb)
      sentinel := fun {b} hb => by
        rw [e.buffers] at hb
        rw [e.dataOf, e.sentinel b hb]
        exact hc.views.sentinel hb
      region := fun {p d s} hp hs => by
        rw [e.region]
        rw [e.dataOf] at hp
        refine hc.views.region hp ?_
        rw [e.rest] at hs
        exact hs }
  objs := by
    have hrefs : h'.refs = h.refs := by
      funext d
      rw [Heap.refs, e.dataOf, e.rest]
      rfl
    have hcount : h'.count X = h.count X := by
      funext d
      rw [Heap.count, Heap.count, hrefs]
    rw [hcount, e.rest]
    exact { hc.objs with }
  allocs := by
    rw [e.rest]
    exact { hc.allocs with }
  writable := hw

/-- The link fields of one page are assigned to. -/
theorem modifyPage_links {f : Page → Page} (hp : (h.pages p).isSome)
    (hf : ∀ P, (f P).dataVec = P.dataVec ∧ (f P).data = P.data) :
    ∃ P, h.pages p = some P ∧
      modifyPage p f h = .ok ((), h.setPage p (some (f P))) ∧
      Edited h (h.setPage p (some (f P))) ∧
      (h.setPage p (some (f P))).vecOf = h.vecOf := by
  obtain ⟨P, hP⟩ := Option.isSome_iff_exists.mp hp
  refine ⟨P, hP, modifyPage_run hP f, Edited.of_setPage hP (hf P).2 (by rw [(hf P).1])
    (fun _ => by rw [(hf P).1]), ?_⟩
  rw [Heap.vecOf_setPage, Option.getD_some, (hf P).1, ← Heap.vecOf_eq hP, update_eq_self]

theorem setNext_run (hp : (h.pages p).isSome) (o : Option Nat) :
    ∃ h', modifyPage p (fun P => { P with next := o }) h = .ok ((), h') ∧ Edited h h' ∧
      h'.vecOf = h.vecOf ∧ h'.nextOf = update h.nextOf p o ∧ h'.prevOf = h.prevOf := by
  obtain ⟨P, hP, hrun, he, hv⟩ := modifyPage_links (f := fun P => { P with next := o }) hp
    (fun _ => ⟨rfl, rfl⟩)
  refine ⟨_, hrun, he, hv, Heap.nextOf_setPage, ?_⟩
  rw [Heap.prevOf_setPage, Option.bind_some, ← Heap.prevOf_eq hP, update_eq_self]

theorem setPrev_run (hp : (h.pages p).isSome) (o : Option Nat) :
    ∃ h', modifyPage p (fun P => { P with prev := o }) h = .ok ((), h') ∧ Edited h h' ∧
      h'.vecOf = h.vecOf ∧ h'.nextOf = h.nextOf ∧ h'.prevOf = update h.prevOf p o := by
  obtain ⟨P, hP, hrun, he, hv⟩ := modifyPage_links (f := fun P => { P with prev := o }) hp
    (fun _ => ⟨rfl, rfl⟩)
  refine ⟨_, hrun, he, hv, ?_, Heap.prevOf_setPage⟩
  rw [Heap.nextOf_setPage, Option.bind_some, ← Heap.nextOf_eq hP, update_eq_self]

theorem setLinks_run (hp : (h.pages p).isSome) (o o' : Option Nat) :
    ∃ h', modifyPage p (fun P => { P with prev := o, next := o' }) h = .ok ((), h') ∧
      Edited h h' ∧ h'.vecOf = h.vecOf ∧ h'.nextOf = update h.nextOf p o' ∧
      h'.prevOf = update h.prevOf p o := by
  obtain ⟨P, hP, hrun, he, hv⟩ :=
    modifyPage_links (f := fun P => { P with prev := o, next := o' }) hp (fun _ => ⟨rfl, rfl⟩)
  exact ⟨_, hrun, he, hv, Heap.nextOf_setPage, Heap.prevOf_setPage⟩

/-- `page` gets its links and its neighbours point to it. -/
theorem linkPage_run {prv nxt : Nat} (hx : (h.pages x).isSome) (hpr : (h.pages prv).isSome)
    (hnx : (h.pages nxt).isSome) :
    ∃ h', linkPage prv nxt x h = .ok ((), h') ∧ Edited h h' ∧ h'.vecOf = h.vecOf ∧
      h'.nextOf = update (update h.nextOf x (some nxt)) prv (some x) ∧
      h'.prevOf = update (update h.prevOf x (some prv)) nxt (some x) := by
  obtain ⟨h₁, hr₁, e₁, v₁, n₁, p₁⟩ := setLinks_run hx (some prv) (some nxt)
  obtain ⟨h₂, hr₂, e₂, v₂, n₂, p₂⟩ := setNext_run (h := h₁) (p := prv)
    (by rw [e₁.live]; exact hpr) (some x)
  obtain ⟨h₃, hr₃, e₃, v₃, n₃, p₃⟩ := setPrev_run (h := h₂) (p := nxt)
    (by rw [e₂.live, e₁.live]; exact hnx) (some x)
  refine ⟨h₃, ?_, e₁.trans (e₂.trans e₃), v₃.trans (v₂.trans v₁), ?_, ?_⟩
  · exact (bind_run hr₁).trans ((bind_run hr₂).trans hr₃)
  · rw [n₃, n₂, n₁]
  · rw [p₃, p₂, p₁]

/-! ## Rings -/

theorem Links.node_live (hl : Links h R F) {y : Nat} (hb : (h.buffers b).isSome)
    (hy : y ∈ b :: R b) : (h.pages y).isSome := by
  rcases List.mem_cons.mp hy with rfl | hy
  · exact (hl.live y).mpr (.inl hb)
  · exact (hl.live y).mpr (.inr (.inl ⟨b, hy⟩))

/-- No two rings meet, their ends included. -/
theorem Links.node_disj (hl : Links h R F) {b' y : Nat} (hb : (h.buffers b).isSome)
    (hb' : (h.buffers b').isSome) (hy : y ∈ b :: R b) (hy' : y ∈ b' :: R b') : b = b' := by
  rcases List.mem_cons.mp hy with rfl | hy <;> rcases List.mem_cons.mp hy' with heq | hy'
  · exact heq
  · simp [hl.page hy'] at hb
  · subst heq
    simp [hl.page hy] at hb'
  · exact hl.disj hy hy'

theorem Links.flight_notMem (hl : Links h R F) (hx : x ∈ F) (hb : (h.buffers b).isSome) :
    x ∉ b :: R b := by
  intro hm
  rcases List.mem_cons.mp hm with rfl | hm
  · simp [(hl.apart hx).1] at hb
  · exact (hl.apart hx).2 b hm

/-- A page in flight is linked at a cut of a ring. -/
theorem Links.link (hl : Links h R (x :: F)) (hR : R b = l₁ ++ l₂)
    (hb : (h.buffers b).isSome)
    (hn : h'.nextOf = update (update h.nextOf x (some (l₂.headD b))) (l₁.getLastD b) (some x))
    (hp : h'.prevOf = update (update h.prevOf x (some (l₁.getLastD b))) (l₂.headD b) (some x))
    (hlive : ∀ p, (h'.pages p).isSome = (h.pages p).isSome) (hbuf : h'.buffers = h.buffers)
    (hx : h'.next = h.next) : Links h' (update R b (l₁ ++ x :: l₂)) F := by
  have hring := hl.ring hb
  have hxF := hl.apart (p := x) (by simp)
  have hxb : x ∉ b :: (l₁ ++ l₂) := hR ▸ hl.flight_notMem (by simp) hb
  have hlast : l₁.getLastD b ∈ b :: R b := by
    rw [hR]
    exact List.cons_subset_cons b (List.subset_append_left l₁ l₂) (getLastD_mem b l₁)
  have hhead : l₂.headD b ∈ b :: R b := by
    rw [hR]
    exact List.cons_subset_cons b (List.subset_append_right l₁ l₂) (headD_mem b l₂)
  have hxlast : x ≠ l₁.getLastD b := fun he => hxb (by rw [← hR, he]; exact hlast)
  have hxhead : x ≠ l₂.headD b := fun he => hxb (by rw [← hR, he]; exact hhead)
  have hmem : ∀ {b' p}, p ∈ update R b (l₁ ++ x :: l₂) b' ↔ p ∈ R b' ∨ b' = b ∧ p = x := by
    intro b' p
    rcases eq_or_ne b' b with rfl | hne
    · rw [update_self, hR]
      simp only [List.mem_append, List.mem_cons, true_and]
      tauto
    · rw [update_of_ne hne]
      simp [hne]
  exact
    { ring := fun {b'} hb' => by
        rw [hbuf] at hb'
        rcases eq_or_ne b' b with rfl | hne
        · rw [update_self]
          refine IsRing.insert ?_ ?_ (hR ▸ hring) hxb ?_ ?_ ?_ ?_
          · intro y hy hyl
            rw [hn, update_of_ne hyl, update_of_ne (ne_of_mem_of_not_mem hy hxb)]
          · intro y hy hyl
            rw [hp, update_of_ne hyl, update_of_ne (ne_of_mem_of_not_mem hy hxb)]
          · rw [hn, update_of_ne hxlast, update_self]
          · rw [hp, update_of_ne hxhead, update_self]
          · rw [hn, update_self]
          · rw [hp, update_self]
        · rw [update_of_ne hne]
          have houtside : ∀ y ∈ b' :: R b', y ∉ b :: R b ∧ y ≠ x := by
            intro y hy
            refine ⟨fun hy' => hne (hl.node_disj hb' hb hy hy'), ?_⟩
            rintro rfl
            exact hl.flight_notMem (by simp) hb' hy
          refine (hl.ring hb').congr ?_ ?_
          · intro y hy
            obtain ⟨ho, hyx⟩ := houtside y hy
            rw [hn, update_of_ne (ne_of_mem_of_not_mem hlast ho).symm, update_of_ne hyx]
          · intro y hy
            obtain ⟨ho, hyx⟩ := houtside y hy
            rw [hp, update_of_ne (ne_of_mem_of_not_mem hhead ho).symm, update_of_ne hyx]
      dead := fun {b'} hb' => by
        rw [hbuf] at hb'
        have hne : b' ≠ b := by
          rintro rfl
          simp [hb'] at hb
        rw [update_of_ne hne]
        exact hl.dead hb'
      disj := fun {b₁ b₂ p} h₁ h₂ => by
        rcases hmem.mp h₁ with k₁ | ⟨e₁, rfl⟩ <;> rcases hmem.mp h₂ with k₂ | ⟨e₂, heq⟩
        · exact hl.disj k₁ k₂
        · exact absurd (heq ▸ k₁) (hxF.2 b₁)
        · exact absurd k₂ (hxF.2 b₂)
        · rw [e₁, e₂]
      page := fun {b' p} hp' => by
        rw [hbuf]
        rcases hmem.mp hp' with hp' | ⟨-, rfl⟩
        · exact hl.page hp'
        · exact hxF.1
      flight := (List.nodup_cons.mp hl.flight).2
      apart := fun {p} hpF => by
        rw [hbuf]
        obtain ⟨hpb, hpR⟩ := hl.apart (List.mem_cons_of_mem x hpF)
        refine ⟨hpb, fun b' hm => ?_⟩
        rcases hmem.mp hm with hm | ⟨-, rfl⟩
        · exact hpR b' hm
        · exact (List.nodup_cons.mp hl.flight).1 hpF
      live := fun p => by
        rw [hlive, hbuf, hl.live p]
        simp only [hmem, List.mem_cons]
        constructor
        · rintro (hpb | ⟨b', hpR⟩ | rfl | hpF)
          · exact .inl hpb
          · exact .inr (.inl ⟨b', .inl hpR⟩)
          · exact .inr (.inl ⟨b, .inr ⟨rfl, rfl⟩⟩)
          · exact .inr (.inr hpF)
        · rintro (hpb | ⟨b', hpR | ⟨-, rfl⟩⟩ | hpF)
          · exact .inl hpb
          · exact .inr (.inl ⟨b', hpR⟩)
          · exact .inr (.inr (.inl rfl))
          · exact .inr (.inr (.inr hpF))
      fresh := fun {p} hp' => by
        rw [hx]
        exact hl.fresh (hlive p ▸ hp') }

/-- The assignments by which `seek`, `trim` and `clear` take a page out of its
ring. -/
theorem unlink_run {α : Type} {P : Page} {prv nxt : Nat} {f : PbM α} {Q : α → Heap → Prop}
    (hP : h.pages x = some P) (hprv : P.prev = some prv) (hnxt : P.next = some nxt)
    (hpr : (h.pages prv).isSome) (hnx : (h.pages nxt).isSome)
    (hf : ∀ h', Edited h h' → h'.vecOf = h.vecOf →
      h'.nextOf = update (update h.nextOf prv (some nxt)) x none →
      h'.prevOf = update (update h.prevOf nxt (some prv)) x none → Yields f h' Q) :
    Yields (do
      let nextPage ← deref P.next
      modifyPage (← deref P.prev) (fun Q => { Q with next := some nextPage })
      modifyPage nextPage (fun Q => { Q with prev := P.prev })
      modifyPage x (fun Q => { Q with prev := none, next := none })
      f) h Q := by
  obtain ⟨h₁, hr₁, e₁, v₁, n₁, p₁⟩ := setNext_run hpr (some nxt)
  obtain ⟨h₂, hr₂, e₂, v₂, n₂, p₂⟩ := setPrev_run (h := h₁) (p := nxt)
    (by rw [e₁.live]; exact hnx) P.prev
  obtain ⟨h₃, hr₃, e₃, v₃, n₃, p₃⟩ := setLinks_run (h := h₂) (p := x)
    (by rw [e₂.live, e₁.live, hP]; rfl) none none
  refine Yields.step (deref_run hnxt) (Yields.step (deref_run hprv) ?_)
  refine Yields.step hr₁ (Yields.step hr₂ (Yields.step hr₃ ?_))
  refine hf h₃ (e₁.trans (e₂.trans e₃)) (v₃.trans (v₂.trans v₁)) ?_ ?_
  · rw [n₃, n₂, n₁]
  · rw [p₃, p₂, p₁, hprv]

/-- A page is taken out of its ring. -/
theorem Links.unlink (hl : Links h R F) (hR : R b = l₁ ++ x :: l₂)
    (hb : (h.buffers b).isSome)
    (hn : h'.nextOf = update (update h.nextOf (l₁.getLastD b) (some (l₂.headD b))) x none)
    (hp : h'.prevOf = update (update h.prevOf (l₂.headD b) (some (l₁.getLastD b))) x none)
    (hlive : ∀ p, (h'.pages p).isSome = (h.pages p).isSome) (hbuf : h'.buffers = h.buffers)
    (hx : h'.next = h.next) : Links h' (update R b (l₁ ++ l₂)) (x :: F) := by
  have hring : IsRing h.nextOf h.prevOf b (l₁ ++ x :: l₂) := hR ▸ hl.ring hb
  have hxR : x ∈ R b := by simp [hR]
  have hnd : x ∉ b :: (l₁ ++ l₂) := by
    have hperm : (b :: (l₁ ++ x :: l₂)).Perm (x :: b :: (l₁ ++ l₂)) :=
      (List.Perm.cons b List.perm_middle).trans (List.Perm.swap x b _)
    exact (List.nodup_cons.mp (hperm.nodup_iff.mp hring.nodup)).1
  have hlast : l₁.getLastD b ∈ b :: (l₁ ++ l₂) :=
    List.cons_subset_cons b (List.subset_append_left l₁ l₂) (getLastD_mem b l₁)
  have hhead : l₂.headD b ∈ b :: (l₁ ++ l₂) :=
    List.cons_subset_cons b (List.subset_append_right l₁ l₂) (headD_mem b l₂)
  have hsub : ∀ {y}, y ∈ b :: (l₁ ++ l₂) → y ∈ b :: R b := by
    intro y hy
    rw [hR]
    simp only [List.mem_cons, List.mem_append] at hy ⊢
    tauto
  have hxF : x ∉ F := fun hm => (hl.apart hm).2 b hxR
  have hmem : ∀ {b' p}, p ∈ R b' ↔ p ∈ update R b (l₁ ++ l₂) b' ∨ b' = b ∧ p = x := by
    intro b' p
    rcases eq_or_ne b' b with rfl | hne
    · rw [update_self, hR]
      simp only [List.mem_append, List.mem_cons, true_and]
      tauto
    · rw [update_of_ne hne]
      simp [hne]
  have hxout : ∀ b', x ∉ update R b (l₁ ++ l₂) b' := by
    intro b' hm
    have := hl.disj (hmem.mpr (.inl hm)) hxR
    subst this
    rw [update_self] at hm
    exact hnd (List.mem_cons_of_mem b' hm)
  exact
    { ring := fun {b'} hb' => by
        rw [hbuf] at hb'
        rcases eq_or_ne b' b with rfl | hne
        · rw [update_self]
          refine IsRing.remove ?_ ?_ hring ?_ ?_
          · intro y hy hyl
            rw [hn, update_of_ne (ne_of_mem_of_not_mem hy hnd), update_of_ne hyl]
          · intro y hy hyl
            rw [hp, update_of_ne (ne_of_mem_of_not_mem hy hnd), update_of_ne hyl]
          · rw [hn, update_of_ne (ne_of_mem_of_not_mem hlast hnd), update_self]
          · rw [hp, update_of_ne (ne_of_mem_of_not_mem hhead hnd), update_self]
        · rw [update_of_ne hne]
          have houtside : ∀ y ∈ b' :: R b', y ∉ b :: R b :=
            fun y hy hy' => hne (hl.node_disj hb' hb hy hy')
          refine (hl.ring hb').congr ?_ ?_
          · intro y hy
            rw [hn, update_of_ne, update_of_ne]
            · exact (ne_of_mem_of_not_mem (hsub hlast) (houtside y hy)).symm
            · exact (ne_of_mem_of_not_mem (List.mem_cons_of_mem b hxR) (houtside y hy)).symm
          · intro y hy
            rw [hp, update_of_ne, update_of_ne]
            · exact (ne_of_mem_of_not_mem (hsub hhead) (houtside y hy)).symm
            · exact (ne_of_mem_of_not_mem (List.mem_cons_of_mem b hxR) (houtside y hy)).symm
      dead := fun {b'} hb' => by
        rw [hbuf] at hb'
        have hne : b' ≠ b := by
          rintro rfl
          simp [hb'] at hb
        rw [update_of_ne hne]
        exact hl.dead hb'
      disj := fun h₁ h₂ => hl.disj (hmem.mpr (.inl h₁)) (hmem.mpr (.inl h₂))
      page := fun hp' => by
        rw [hbuf]
        exact hl.page (hmem.mpr (.inl hp'))
      flight := List.nodup_cons.mpr ⟨hxF, hl.flight⟩
      apart := fun {p} hpF => by
        rw [hbuf]
        rcases List.mem_cons.mp hpF with rfl | hpF
        · exact ⟨hl.page hxR, hxout⟩
        · exact ⟨(hl.apart hpF).1, fun b' hm => (hl.apart hpF).2 b' (hmem.mpr (.inl hm))⟩
      live := fun p => by
        rw [hlive, hbuf, hl.live p]
        simp only [hmem, List.mem_cons]
        constructor
        · rintro (hpb | ⟨b', hpR | ⟨-, rfl⟩⟩ | hpF)
          · exact .inl hpb
          · exact .inr (.inl ⟨b', hpR⟩)
          · exact .inr (.inr (.inl rfl))
          · exact .inr (.inr (.inr hpF))
        · rintro (hpb | ⟨b', hpR⟩ | rfl | hpF)
          · exact .inl hpb
          · exact .inr (.inl ⟨b', .inl hpR⟩)
          · exact .inr (.inl ⟨b, .inr ⟨rfl, rfl⟩⟩)
          · exact .inr (.inr hpF)
      fresh := fun {p} hp' => by
        rw [hx]
        exact hl.fresh (hlive p ▸ hp') }

/-! ## Cutting a page -/

/-- The vector of a page is changed within its region. -/
theorem setVec_run {f : Page → Page} {v : DataVec} (hp : (h.pages p).isSome)
    (hf : ∀ P, h.pages p = some P → f P = { P with dataVec := v })
    (hr : v.base.region = (h.vecOf p).base.region) (hb : h.buffers p = none) :
    ∃ h', modifyPage p f h = .ok ((), h') ∧ Edited h h' ∧ h'.vecOf = update h.vecOf p v ∧
      h'.nextOf = h.nextOf ∧ h'.prevOf = h.prevOf := by
  obtain ⟨P, hP⟩ := Option.isSome_iff_exists.mp hp
  rw [Heap.vecOf_eq hP] at hr
  refine ⟨_, modifyPage_run hP f, ?_, ?_, ?_, ?_⟩
  · rw [hf P hP]
    exact Edited.of_setPage hP rfl hr (fun hs => by simp [hb] at hs)
  · rw [Heap.vecOf_setPage, hf P hP]
    rfl
  · rw [Heap.nextOf_setPage, hf P hP, Option.bind_some, ← Heap.nextOf_eq hP, update_eq_self]
  · rw [Heap.prevOf_setPage, hf P hP, Option.bind_some, ← Heap.prevOf_eq hP, update_eq_self]

end Pb
