import PageBuf.Client.EmptyPages

/-!
# Dangling — when a page that is destroyed is still linked

`pb_trivial_buffer_insert` returns the length of the page it has linked, and
its callers take a 0 for a refusal and destroy the page. An empty page is
linked all the same. The transfers make such a page where they come to a page
of the source without bytes; without that, what is destroyed is not linked.
-/

namespace Pb

open StateRun Function Ring Relation

variable {env : Env} {h h' g : Heap} {R : Nat → List Nat} {b q x : Nat}

namespace Heap

/-- The links lead from the one node to the other. -/
def Leads (h : Heap) : Nat → Nat → Prop :=
  ReflTransGen (fun p q => h.nextOf p = some q ∨ h.prevOf p = some q)

/-- The page is linked into the ring of some buffer. -/
def IsLinked (h : Heap) (x : Nat) : Prop := ∃ b, (h.buffers b).isSome ∧ h.Leads b x

/-- The links of every buffer lead to pages that are there. -/
def NoDangling (h : Heap) : Prop := ∀ q, h.IsLinked q → (h.pages q).isSome

end Heap

/-! ## Rings and links -/

/-- The links of a buffer lead to its ring. -/
theorem Links.mem_of_leads {F : List Nat} (hl : Links h R F) (hb : (h.buffers b).isSome)
    (hq : h.Leads b q) : q ∈ b :: R b := by
  have hring := hl.ring hb
  induction hq with
  | refl => exact List.mem_cons_self
  | @tail y z _ hyz ih =>
      rcases List.mem_cons.mp ih with rfl | hy
      · rcases hyz with hn | hp
        · rw [hring.next_end] at hn
          cases hn
          exact headD_mem _ _
        · rw [hring.prev_end] at hp
          cases hp
          exact getLastD_mem _ _
      · obtain ⟨l₁, l₂, hR⟩ := List.append_of_mem hy
        rw [hR] at hring ⊢
        rcases hyz with hn | hp
        · rw [hring.next_mem] at hn
          cases hn
          refine List.cons_subset_cons b ?_ (headD_mem b l₂)
          exact fun q hq => by simp [hq]
        · rw [hring.prev_mem] at hp
          cases hp
          exact List.cons_subset_cons b (List.subset_append_left l₁ _) (getLastD_mem b l₁)

theorem Links.noDangling {F : List Nat} (hl : Links h R F) : h.NoDangling := by
  rintro q ⟨b, hb, hq⟩
  exact hl.node_live hb (hl.mem_of_leads hb hq)

/-- A page in flight is not linked. -/
theorem Links.not_linked {F : List Nat} (hl : Links h R (x :: F)) : ¬h.IsLinked x := by
  rintro ⟨b, hb, hq⟩
  obtain ⟨hnone, hnot⟩ := hl.apart List.mem_cons_self
  rcases List.mem_cons.mp (hl.mem_of_leads hb hq) with rfl | hR
  · simp [hnone] at hb
  · exact hnot b hR

/-! ## Calls of `pb_trivial_buffer_insert` -/

/-- The insertions of pages made from a length: the buffer, the place, the page
maker, the offset and the length that an action hands to the loop. -/
inductive InsertsPages (env : Env) (h : Heap) :
    Action → Nat → PbM Nat → (Nat → Nat → PbM (Option Nat)) → Nat → Nat → Prop where
  | insertData (b it off : Nat) (buf : List UInt8) :
      InsertsPages env h (.op (.insertData b it off buf)) b (pure it) (makeDataPage env b buf) off
        buf.length
  | insertDataRef (b it off : Nat) (buf : Ptr) (len : Nat) :
      InsertsPages env h (.op (.insertDataRef b it off buf len)) b (pure it)
        (fun inserted n => trivialBufferPageCreateRef env (buf.add inserted) n) off len
  | writeData (b : Nat) (buf : List UInt8) :
      InsertsPages env h (.op (.writeData b buf)) b (pure b) (makeDataPage env b buf) 0 buf.length
  | writeDataRef (b : Nat) (buf : Ptr) (len : Nat) :
      InsertsPages env h (.op (.writeDataRef b buf len)) b (pure b)
        (fun inserted n => trivialBufferPageCreateRef env (buf.add inserted) n) 0 len
  | extend (b len : Nat) :
      InsertsPages env h (.op (.extend b len)) b (bufferGetEndIterator b)
        (fun _ n => trivialBufferPageCreate env b n) 0 len
  | reserve (b size k : Nat) (hk : bufferGetDataSize env b h = .ok (k, h)) :
      InsertsPages env h (.op (.reserve b size)) b (bufferGetEndIterator b)
        (fun _ n => trivialBufferPageCreate env b n) 0 (size - k)
  | rewind (b len : Nat) :
      InsertsPages env h (.op (.rewind b len)) b (bufferGetIterator env b)
        (fun _ n => trivialBufferPageCreate env b n) 0 len

/-- The transfers: the buffer, the place, the offset, the source and the length,
where the strategy accepts the call. -/
inductive InsertsBuffer (h : Heap) : Action → Nat → Nat → Nat → Nat → Nat → Prop where
  | insertBuffer (b it off src len : Nat) (hacc : it ≠ b → ¬h.RejectsInsert b) :
      InsertsBuffer h (.op (.insertBuffer b it off src len)) b it off src len
  | writeBuffer (b src len : Nat) (hacc : ¬h.RejectsWrite b) :
      InsertsBuffer h (.op (.writeBuffer b src len)) b b 0 src len

/-- In a run of the action from `h`, `pb_trivial_buffer_insert` is called in the
state `g` with the page `x` for the offset `off` in `it`. -/
inductive InsertCall (env : Env) (h : Heap) (a : Action) : Nat → Nat → Nat → Nat → Heap → Prop where
  | pages {b it off len x : Nat} {place : PbM Nat} {make : Nat → Nat → PbM (Option Nat)}
      {s : InsertLoop} {g g' : Heap} {B : Buffer}
      (ha : InsertsPages env h a b place make off len)
      (hr : LoopReaches (insertPagesRound env b place make) (⟨off, len, 0⟩, h) (s, g))
      (hl : s.len ≠ 0) (hB : g.buffers b = some B) (hp : place g = .ok (it, g))
      (hm : make s.inserted (cutLen B.strategy.pageSize s.len) g = .ok (some x, g')) :
      InsertCall env h a b it s.offset x g'
  | transfer {b it off src len x : Nat} {s : TransferLoop} {g g' : Heap} {B B' : Buffer}
      (ha : InsertsBuffer h a b it off src len) (hB : h.buffers b = some B)
      (hr : LoopReaches (insertBufferRound env (transferAlgorithm env b B.strategy) b it src)
        (⟨off, len, 0, (h.pagesOf src).headD src, 0⟩, h) (s, g))
      (hl : s.len ≠ 0) (hs : s.srcIt ≠ src) (hB' : g.buffers b = some B')
      (hm : (transferAlgorithm env b B.strategy).make s.srcIt
        ((transferAlgorithm env b B.strategy).cut B'.strategy.pageSize (g.lenOf s.srcIt) s.srcOffset
          s.len) s.srcOffset g = .ok (some x, g')) :
      InsertCall env h a b it s.offset x g'

/-! ## The condition -/

/-- No page without bytes comes before the first `len` bytes of `src` are
complete. -/
def NoEmptyBefore (h : Heap) (src len : Nat) : Prop :=
  ∀ l₁ p l₂, h.pagesOf src = l₁ ++ p :: l₂ → h.lenOf p = 0 → len ≤ (h.flat l₁).length

/-- Transfers are between two buffers. -/
def BetweenBuffers (_ : Heap) : Action → Prop
  | .op (.insertBuffer b _ _ src _) => src ≠ b
  | .op (.writeBuffer b src _) => src ≠ b
  | _ => True

/-- A transfer that goes ahead comes to no page without bytes. -/
def MeetsBytes (h : Heap) : Action → Prop
  | .op (.insertBuffer b it _ src len) =>
      src ≠ b ∧ (NoEmptyBefore h src len ∨ it ≠ b ∧ h.RejectsInsert b)
  | .op (.writeBuffer b src len) => src ≠ b ∧ (NoEmptyBefore h src len ∨ h.RejectsWrite b)
  | _ => True

/-- Pages may be shared and split freely. -/
def unrestricted : Allowance where
  share := fun _ _ _ _ => True
  split := fun _ _ _ => True

section Rounds

variable {Start : Nat → Prop} {K : Prop} {src it off len : Nat} {s : TransferLoop} {R' : Nat → List Nat}

/-- The source page of a round has bytes. -/
theorem TransferAt.filled (ft : Footing h R []) (hsrc : (h.buffers src).isSome)
    (hne : src ≠ b) (hall : NoEmptyBefore h src len)
    (t : TransferAt unrestricted Start K b src it off len h R s g R') (hl : s.len ≠ 0)
    (hs : s.srcIt ∈ R' src) : 0 < g.lenOf s.srcIt := by
  obtain ⟨hR, hlen⟩ := t.elsewhere src hne
  rw [hR] at hs
  obtain ⟨-, m₁, m₂, hm, hhead, hat, -⟩ := t.reading hne hl
  obtain ⟨k, rfl⟩ := exists_cons_of_headD hhead (by
    rintro rfl
    rw [hhead] at hs
    exact ft.links.notMem_self hsrc hs)
  rw [hlen _ hs]
  refine Nat.pos_of_ne_zero fun hz => ?_
  have hle := hall m₁ s.srcIt k (by rw [ft.links.pagesOf hsrc, hm]) hz
  have hsum := t.sum
  rw [Heap.length_flat] at hle
  omega

end Rounds

/-! ## Insertions that return 0 -/

/-- What the loop of an insertion relies on. -/
theorem InsertsPages.spec {a : Action} {off len : Nat} {place : PbM Nat}
    {make : Nat → Nat → PbM (Option Nat)} (ha : InsertsPages env h a b place make off len)
    (hl : Links h R []) (hn : a.Names h) : h.IsTrivial b ∧
      (∀ g R', Links g R' [] → g.IsTrivial b → R b ⊆ R' b → IsPlace place b g R') ∧
      ∀ g R' i n, Links g R' [] → 0 < n → MakesNew unrestricted (make i n) g R' [] n none := by
  have at_place : ∀ {it}, it ∈ b :: R b → ∀ g R', Links g R' [] → g.IsTrivial b →
      R b ⊆ R' b → IsPlace (pure it) b g R' :=
    fun hit _ _ _ _ hsub => ⟨_, rfl, List.cons_subset_cons b hsub hit⟩
  have at_end : b ∈ b :: R b := List.mem_cons_self
  cases ha with
  | insertData b it off buf =>
      exact ⟨hn.1, at_place (hl.isPlaceOf hn.1 hn.2), fun g R' i n hl hn => makesNew_data hl hn buf i⟩
  | insertDataRef b it off buf len =>
      exact ⟨hn.1, at_place (hl.isPlaceOf hn.1 hn.2), fun g R' i n hl hn => makesNew_createRef hl hn⟩
  | writeData b buf =>
      exact ⟨hn, at_place at_end, fun g R' i n hl hn => makesNew_data hl hn buf i⟩
  | writeDataRef b buf len =>
      exact ⟨hn, at_place at_end, fun g R' i n hl hn => makesNew_createRef hl hn⟩
  | extend b len => exact ⟨hn, at_place at_end, fun g R' _ n hl hn => makesNew_create hl hn⟩
  | reserve b size k hk => exact ⟨hn, at_place at_end, fun g R' _ n hl hn => makesNew_create hl hn⟩
  | rewind b len =>
      refine ⟨hn, fun g R' hl' ht' _ => ?_, fun g R' _ n hl hn => makesNew_create hl hn⟩
      exact ⟨_, bufferGetIterator_run ht' hl', headD_mem b (R' b)⟩

/-- What a transfer relies on. -/
theorem InsertsBuffer.spec {a : Action} {it off src len : Nat}
    (ha : InsertsBuffer h a b it off src len) (hl : Links h R []) (hn : a.Names h)
    (hM : MeetsBytes h a) : h.IsTrivial b ∧ h.IsTrivial src ∧ len < 2 ^ 64 ∧ it ∈ b :: R b ∧
      src ≠ b ∧ NoEmptyBefore h src len := by
  cases ha with
  | insertBuffer b it off src len hacc =>
      obtain ⟨ht, hp, hsrc, hlen⟩ := hn
      obtain ⟨hne, hall | ⟨hit, hrej⟩⟩ := hM
      · exact ⟨ht, hsrc, hlen, hl.isPlaceOf ht hp, hne, hall⟩
      · exact absurd hrej (hacc hit)
  | writeBuffer b src len hacc =>
      obtain ⟨ht, hsrc, hlen⟩ := hn
      obtain ⟨hne, hall | hrej⟩ := hM
      · exact ⟨ht, hsrc, hlen, List.mem_cons_self, hne, hall⟩
      · exact absurd hrej hacc

/-- The page is still in flight where an insertion of a new page returns 0. -/
theorem NewPage.refused {g' : Heap} {R' : Nat → List Nat} {it off n : Nat} {shared : Option Nat}
    (np : NewPage unrestricted g g' R' [] x n shared) (ft : Footing g R' []) (ht : g.IsTrivial b)
    (hit : it ∈ b :: R' b) (hn : 0 < n) :
    Returns (trivialBufferInsert env b it off x) g' (fun k g'' =>
      k = 0 → ∃ R', Links g'' R' [x]) := by
  refine (returns_insertNew ft ht hit np fun _ _ _ => trivial).mono ?_
  rintro k g'' (⟨-, hsteps, -⟩ | ⟨rfl, -⟩) hz
  · exact ⟨R', hsteps.links ft.links⟩
  · omega

section Refused

variable {a : Action} {it off len : Nat} (ft : Footing h R []) (hn : a.Names h)

include ft hn

theorem InsertsPages.refused {place : PbM Nat} {make : Nat → Nat → PbM (Option Nat)}
    {s : InsertLoop} {g' : Heap} {B : Buffer} (ha : InsertsPages env h a b place make off len)
    (hr : LoopReaches (insertPagesRound env b place make) (⟨off, len, 0⟩, h) (s, g))
    (hl : s.len ≠ 0) (hp : place g = .ok (it, g))
    (hm : make s.inserted (cutLen B.strategy.pageSize s.len) g = .ok (some x, g')) :
    Returns (trivialBufferInsert env b it s.offset x) g' (fun k g'' =>
      k = 0 → ∃ R', Links g'' R' [x]) := by
  obtain ⟨ht, hplace, hmake⟩ := ha.spec ft.links hn
  -- the state of the loop
  have hI : ∃ R', InsertAt unrestricted b place h R s g R' := by
    refine Returns.reaches (I := fun s g => ∃ R', InsertAt unrestricted b place h R s g R') ?_ hr
      ⟨R, .refl, List.Subset.refl _, fun _ _ _ _ _ _ => trivial⟩
    intro s g _ hI
    obtain ⟨R', hI⟩ := hI
    refine (hI.round ft ht hplace hmake).mono ?_
    intro r g' hr
    cases r with
    | inl s' => exact hr.imp fun _ hI => hI.1
    | inr k => trivial
  obtain ⟨R', hsteps, hsub, -⟩ := hI
  have ft' : Footing g R' [] := hsteps.footing ft
  have ht' : g.IsTrivial b := hsteps.trivial_of ht
  obtain ⟨it', hrun, hit⟩ := hplace g R' ft'.links ht' hsub
  rw [hp] at hrun
  cases hrun
  have hpos := cutLen_pos B.strategy.pageSize hl
  have np : NewPage unrestricted g g' R' [] x _ none :=
    hmake g R' s.inserted _ ft'.links hpos (some x) g' hm
  exact np.refused ft' ht' hit hpos

theorem InsertsBuffer.refused {src : Nat} {s : TransferLoop} {g' : Heap} {B B' : Buffer}
    (hM : MeetsBytes h a) (ha : InsertsBuffer h a b it off src len) (hB : h.buffers b = some B)
    (hr : LoopReaches (insertBufferRound env (transferAlgorithm env b B.strategy) b it src)
      (⟨off, len, 0, (h.pagesOf src).headD src, 0⟩, h) (s, g))
    (hl : s.len ≠ 0) (hs : s.srcIt ≠ src)
    (hm : (transferAlgorithm env b B.strategy).make s.srcIt
      ((transferAlgorithm env b B.strategy).cut B'.strategy.pageSize (g.lenOf s.srcIt) s.srcOffset
        s.len) s.srcOffset g = .ok (some x, g')) :
    Returns (trivialBufferInsert env b it s.offset x) g' (fun k g'' =>
      k = 0 → ∃ R', Links g'' R' [x]) := by
  obtain ⟨ht, hsrc, hlen, hit, hne, hall⟩ := ha.spec ft.links hn hM
  obtain ⟨Start, law⟩ := transferAlgorithm_law env b B.strategy
  rw [ft.links.pagesOf hsrc.isSome] at hr
  -- nothing is asked of where the transfer stands inside a page
  have hallowed : ∀ s g R' n, TransferAt unrestricted Start False b src it off len h R s g R' →
      s.len ≠ 0 → s.srcIt ∈ R' src → RoundAllowed unrestricted B.strategy it g s n :=
    fun s g R' _ t hl hs =>
      ⟨t.filled ft hsrc.isSome hne hall hl hs, fun _ _ _ => trivial, fun _ _ _ => trivial⟩
  have hI : ∃ R', TransferAt unrestricted Start False b src it off len h R s g R' := by
    refine Returns.reaches
      (I := fun s g => ∃ R', TransferAt unrestricted Start False b src it off len h R s g R') ?_ hr
      ⟨R, .start law hit off len⟩
    intro s g _ hI
    obtain ⟨R', t⟩ := hI
    refine (t.round law ft hB (ht.allocator hB) hsrc hlen False.elim
      (hallowed s g R' _ t)).mono ?_
    intro r g' hr
    obtain ⟨R'', -, -, hr'⟩ := hr
    cases r with
    | inl s' => exact ⟨R'', hr'⟩
    | inr k => trivial
  obtain ⟨R', t⟩ := hI
  have ft' : Footing g R' [] := t.steps.footing ft
  have hsR : s.srcIt ∈ R' src := (List.mem_cons.mp t.srcIt).resolve_left hs
  obtain ⟨hpos, -, hmake⟩ :=
    t.makes law ft hlen hl hsR (hallowed s g R' _ t hl hsR) rfl
  have np : NewPage unrestricted g g' R' [] x _ _ := hmake (some x) g' hm
  exact np.refused ft' (t.steps.trivial_of ht) t.place hpos

/-- **Where `pb_trivial_buffer_insert` returns 0**, the page is still in flight. -/
theorem InsertCall.refused (hc : InsertCall env h a b it off x g) (hM : MeetsBytes h a) :
    Returns (trivialBufferInsert env b it off x) g (fun k g' =>
      k = 0 → ∃ R', Links g' R' [x]) := by
  cases hc with
  | pages ha hr hl hB hp hm => exact ha.refused ft hn hr hl hp hm
  | transfer ha hB hr hl hs hB' hm => exact ha.refused ft hn hM hB hr hl hs hm

end Refused

/-! ## Runs -/

theorem transferAllowed_bytes {src it off len : Nat} (ft : Footing h R [])
    (hsrc : (h.buffers src).isSome) (hne : src ≠ b) (hall : NoEmptyBefore h src len) :
    TransferAllowed env unrestricted h R b it off src len :=
  fun _ _ _ _ _ _ _ t _ hl hs =>
    ⟨t.filled ft hsrc hne hall hl hs, fun _ _ _ => trivial, fun _ _ _ => trivial⟩

theorem unrestricted_run : RunInvariant env unrestricted MeetsBytes (fun _ => True) where
  initial := fun _ _ _ => trivial
  step := fun _ _ _ _ _ => trivial
  view := fun _ _ _ _ _ _ => trivial
  allowed := fun h R a ft _ hn hM => by
    cases a with
    | overwriteBuffer b src len => trivial
    | op o =>
        cases o with
        | insertData b it off buf => exact fun _ _ _ _ _ => trivial
        | insertDataRef b it off buf len => exact fun _ _ _ _ _ => trivial
        | insertBuffer b it off src len =>
            obtain ⟨ht, -, hsrc, -⟩ := hn
            intro hacc
            obtain ⟨hne, hall | ⟨hit, hrej⟩⟩ := hM
            · exact transferAllowed_bytes ft hsrc.isSome hne hall
            · exact absurd hrej (hacc hit)
        | writeBuffer b src len =>
            obtain ⟨ht, hsrc, -⟩ := hn
            intro hacc
            obtain ⟨hne, hall | hrej⟩ := hM
            · exact transferAllowed_bytes ft hsrc.isSome hne hall
            · exact absurd hrej hacc
        | _ => trivial

/-- A page that is gone stays gone: no step makes a page at an old address. -/
theorem PageStep.gone {G : Allowance} {c c' : Layout} (s : PageStep G c c')
    (ft : Footing c.heap c.rings c.flight) (hlt : q < c.heap.next) (hq : c.heap.pages q = none) :
    c'.heap.pages q = none := by
  by_contra hn
  have hlive : ¬(c.heap.pages q).isSome := by simp [hq]
  rcases (s.links.live q).mp (Option.isSome_iff_ne_none.mpr hn) with hb | hheld
  · rw [Heap.buffers_isSome_congr s.effect.kind] at hb
    exact hlive ((ft.links.live q).mpr (.inl hb))
  · rcases s.holds hheld with hold | hnew
    · exact hlive ((ft.links.live q).mpr (.inr hold))
    · omega

theorem PageSteps.gone {G : Allowance} {c c' : Layout} (s : PageSteps G c c')
    (ft : Footing c.heap c.rings c.flight) (hlt : q < c.heap.next) (hq : c.heap.pages q = none) :
    c'.heap.pages q = none ∧ c.heap.next ≤ c'.heap.next := by
  have hinv := s.invariant (I := fun a => a.heap.pages q = none ∧ c.heap.next ≤ a.heap.next) ft
    ⟨hq, Nat.le_refl _⟩ fun a a' ft hI hs =>
      ⟨hs.gone ft (by omega) hI.1, Nat.le_trans hI.2 hs.effect.next⟩
  exact hinv.1

theorem CallEffect.gone {G : Allowance} (e : CallEffect G h R h') (ft : Footing h R [])
    (hlt : q < h.next) (hq : h.pages q = none) : h'.pages q = none ∧ h.next ≤ h'.next := by
  cases e with
  | steps s => exact s.gone ft hlt hq
  | @created _ b strategy ab =>
      have hne : q ≠ b := by
        have := ab.fresh
        omega
      rw [ab.pages, update_of_ne hne]
      exact ⟨hq, ab.le⟩
  | @destroyed h₁ R' b s ht hR =>
      obtain ⟨hq₁, hle⟩ : h₁.pages q = none ∧ h.next ≤ h₁.next := s.gone ft hlt hq
      refine ⟨?_, hle⟩
      by_cases hne : q = b
      · rw [Heap.freed, Heap.pages_setPage, hne, update_self]
      · rw [Heap.freed, Heap.pages_setPage, update_of_ne hne]
        exact hq₁

/-- What is gone after a call stays gone in the rest of the run. -/
theorem gone_in_run (hr : ReachableBy env MeetsBytes h) (hlt : q < h.next)
    (hq : h.pages q = none) (hrun : ReflTransGen (NamedStep env MeetsBytes) h h') :
    h'.pages q = none ∧ h.next ≤ h'.next := by
  obtain ⟨mem, callerLen, files, hbefore⟩ := hr
  induction hrun with
  | refl => exact ⟨hq, Nat.le_refl _⟩
  | @tail h₁ h₂ hsteps hstep ih =>
      obtain ⟨hq₁, hle₁⟩ := ih
      have hr₁ : ReachableBy env MeetsBytes h₁ := ⟨mem, callerLen, files, hbefore.trans hsteps⟩
      obtain ⟨R, ft, -⟩ := hr₁.invariant unrestricted_run
      obtain ⟨a, r, hn, hM, hrun⟩ := hstep
      have e := returns_perform ft hn (unrestricted_run.allowed _ R a ft trivial hn hM) r _ hrun
      obtain ⟨hq₂, hle₂⟩ := e.gone ft (by omega) hq₁
      exact ⟨hq₂, by omega⟩

/-- Pages that are destroyed are not linked: the links lead to pages that are
there, an insertion that returns 0 has not linked the page its caller then
destroys, and what is destroyed is never linked again. -/
structure DestroyedUnlinked (env : Env) (M : Heap → Action → Prop) (h : Heap) : Prop where
  linked : h.NoDangling
  refused : ∀ a b it off x g g', a.Names h → M h a → InsertCall env h a b it off x g →
    trivialBufferInsert env b it off x g = .ok (0, g') → ¬g'.IsLinked x ∧
      ∀ g'', pageDestroy x g' = .ok ((), g'') → g''.NoDangling
  gone : ∀ q h', q < h.next → h.pages q = none → ReflTransGen (NamedStep env M) h h' →
    ¬h'.IsLinked q

/-- **Where no transfer comes to a page without bytes**, no destroyed page is
linked, in any state of any run. -/
theorem destroyed_unlinked (hr : ReachableBy env MeetsBytes h) :
    DestroyedUnlinked env MeetsBytes h := by
  obtain ⟨R, ft, -⟩ := hr.invariant unrestricted_run
  refine ⟨ft.links.noDangling, ?_, ?_⟩
  · intro a b it off x g g' hn hM hc hrun
    obtain ⟨R', hl⟩ := hc.refused ft hn hM 0 g' hrun rfl
    refine ⟨hl.not_linked, fun g'' hdestroy => ?_⟩
    exact (hl.gone (returns_pageDestroy x g' () g'' hdestroy)).noDangling
  · intro q h' hlt hq hrun hlinked
    obtain ⟨mem, callerLen, files, hbefore⟩ := hr
    have hr' : ReachableBy env MeetsBytes h' := ⟨mem, callerLen, files, hbefore.trans hrun⟩
    obtain ⟨R', ft', -⟩ := hr'.invariant unrestricted_run
    have hlive := ft'.links.noDangling q hlinked
    rw [(gone_in_run ⟨mem, callerLen, files, hbefore⟩ hlt hq hrun).1] at hlive
    cases hlive

/-! ## The page that is linked and destroyed -/

/-- One more byte is written to the buffer 3 than the buffer 1 has. -/
def Heap.dangling : Heap := (Heap.insertedAt 3).after .generous (.writeBuffer 3 1 5)

theorem destroyed_linked :
    ¬∀ env h, ReachableBy env BetweenBuffers h → DestroyedUnlinked env BetweenBuffers h := by
  intro hall
  have hr : ReachableBy .generous BetweenBuffers .dangling := by
    refine ReachableBy.after ?_ ⟨⟨_, rfl, rfl⟩, ⟨_, rfl, rfl⟩, by omega⟩ (by decide : 1 ≠ 3)
      (by decide +kernel)
    exact (reachableBy_threeBytes (fun _ _ => trivial) (fun _ _ _ => trivial)).after
      ⟨⟨_, rfl, rfl⟩, .inr (by decide)⟩ trivial (by decide)
  have hlinked : Heap.dangling.IsLinked 13 := by
    refine ⟨3, by decide +kernel, ReflTransGen.single (.inr ?_)⟩
    decide +kernel
  have hlive := (hall .generous .dangling hr).linked 13 hlinked
  exact absurd hlive (by decide +kernel)

/-- The page without bytes comes after the four bytes of the buffer 1. -/
theorem noEmptyBefore_insertedAt : NoEmptyBefore (.insertedAt 3) 1 4 := by
  intro l₁ p l₂ hl hz
  have hpages : (Heap.insertedAt 3).pagesOf 1 = [10, 9, 6] := by decide +kernel
  rw [hpages] at hl
  match l₁, hl with
  | [], hl =>
      cases hl
      exact absurd hz (by decide +kernel)
  | [_], hl =>
      cases hl
      exact absurd hz (by decide +kernel)
  | [_, _], hl =>
      cases hl
      decide +kernel
  | _ :: _ :: _ :: _, hl => simp at hl

theorem destroyed_unlinked_insertedAt : DestroyedUnlinked .generous MeetsBytes
    ((Heap.insertedAt 3).after .generous (.writeBuffer 3 1 4)) := by
  refine destroyed_unlinked (ReachableBy.after ?_ ⟨⟨_, rfl, rfl⟩, ⟨_, rfl, rfl⟩, by omega⟩
    ⟨by decide, .inl noEmptyBefore_insertedAt⟩ (by decide +kernel))
  exact (reachableBy_threeBytes (fun _ _ => trivial) (fun _ _ _ => trivial)).after
    ⟨⟨_, rfl, rfl⟩, .inr (by decide)⟩ trivial (by decide)

end Pb
