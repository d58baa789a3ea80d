import PageBuf.Invariant.PageMoves
import PageBuf.Invariant.Calls

/-!
# PageRuns — operations as sequences of steps

Every operation that returns has taken steps. The insertions ask which splits
and which sharing is allowed, and the transfers that no round meets an empty
source page; nothing is asked of the other operations.
-/

namespace Pb

open StateRun Function Ring RefCount

variable {env : Env} {h h' h₁ h'' g : Heap} {R R' : Nat → List Nat} {F : List Nat}
  {b src it p x n : Nat} {G : Allowance} {k₁ k₂ l₁ l₂ m₁ m₂ : List Nat}

theorem PageStep.steps {c c' : Layout} (s : PageStep G c c') : PageSteps G c c' :=
  Relation.ReflTransGen.single s

theorem PageSteps.refl {c : Layout} : PageSteps G c c := Relation.ReflTransGen.refl

theorem PageSteps.step {c c' c'' : Layout} (s : PageSteps G c c') (s' : PageStep G c' c'') :
    PageSteps G c c'' :=
  Relation.ReflTransGen.tail s s'

theorem PageSteps.trivial_of (s : PageSteps G ⟨h, R, F⟩ ⟨h', R', F⟩) (ht : h.IsTrivial b) :
    h'.IsTrivial b :=
  ht.congr s.kind

/-- The rings after steps. -/
theorem PageSteps.links {F' : List Nat} (s : PageSteps G ⟨h, R, F⟩ ⟨h', R', F'⟩)
    (hl : Links h R F) : Links h' R' F' := by
  cases Relation.ReflTransGen.cases_tail s with
  | inl heq => cases heq; exact hl
  | inr hlast =>
      obtain ⟨c, -, hstep⟩ := hlast
      exact hstep.links

/-- A page that was there does not get longer. -/
theorem PageStep.old_len {c c' : Layout} (s : PageStep G c c') (hp : p < c.heap.next) :
    c'.heap.lenOf p ≤ c.heap.lenOf p := by
  have hset : ∀ {f : Nat → Nat} {y k : Nat}, (y = p → k ≤ f p) → update f y k p ≤ f p := by
    intro f y k hk
    by_cases he : y = p
    · subst he
      rw [update_self]
      exact hk rfl
    · rw [update_of_ne (Ne.symm he)]
  cases s.effect with
  | quiet _ c => exact Nat.le_of_eq (congrFun c.len_same p)
  | link _ c => exact Nat.le_of_eq (congrFun c.len_same p)
  | own hx _ _ _ _ _ c =>
      rw [c.len_update]
      refine hset fun he => ?_
      dsimp only at hp
      omega
  | share hx _ _ _ _ _ c =>
      rw [c.len_update]
      refine hset fun he => ?_
      dsimp only at hp
      omega
  | split _ _ hy _ _ _ _ _ _ c =>
      rw [c.len_split]
      dsimp only at hp
      refine Nat.le_trans (hset ?_) (hset fun he => by omega)
      rintro rfl
      rw [update_of_ne (by omega)]
      exact Nat.sub_le _ _
  | destroy _ _ c =>
      rw [c.len_update]
      exact hset fun _ => Nat.zero_le _
  | drop _ _ _ _ c =>
      rw [c.len_update]
      exact hset fun _ => Nat.zero_le _
  | shrink _ _ _ hv c =>
      rw [c.len_update]
      refine hset fun he => ?_
      subst he
      have hstart := hv.start
      have hstop := hv.stop
      show _ ≤ (Heap.vecOf _ _).len
      omega
  | dup _ _ _ _ _ _ _ hlen _ c =>
      rw [c.len_update]
      refine hset fun he => ?_
      subst he
      exact Nat.le_of_eq hlen

theorem PageSteps.old_len {c c' : Layout} (s : PageSteps G c c') (hp : p < c.heap.next) :
    c'.heap.lenOf p ≤ c.heap.lenOf p := by
  have hold : c'.heap.lenOf p ≤ c.heap.lenOf p ∧ c.heap.next ≤ c'.heap.next := by
    induction s with
    | refl => exact ⟨Nat.le_refl _, Nat.le_refl _⟩
    | tail _ hstep ih =>
        have hlen := hstep.old_len (p := p) (by omega)
        have hnext := hstep.effect.next
        omega
  exact hold.1

/-- Steps after which `b` has no other pages than before. -/
theorem PageSteps.noLonger {F' : List Nat} (s : PageSteps G ⟨h, R, F⟩ ⟨h', R', F'⟩)
    (hl : Links h R F) (hsub : R' b ⊆ R b) (n : Nat) : NoLonger b n h h' R R' :=
  .of_subset hsub fun _ hq => s.old_len (hl.ring_fresh hq)

/-- Steps after which the rings are the same. -/
theorem PageSteps.insertsUpTo (s : PageSteps G ⟨h, R, F⟩ ⟨h', R, F⟩) (hl : Links h R F)
    (b n : Nat) : InsertsUpTo b n h h' R R :=
  ⟨s.noLonger hl (List.Subset.refl _) n, fun _ _ => rfl⟩

/-! ## Removal -/

/-- One ring loses pages and the others stay. -/
theorem subset_update {l : List Nat} (hl : l ⊆ R b) (c : Nat) : update R b l c ⊆ R c := by
  rcases eq_or_ne c b with rfl | hne
  · rw [update_self]
    exact hl
  · rw [update_of_ne hne]
    exact List.Subset.refl _

/-- One round of `seek` or `trim` on a linked page: the page is shortened to
`f`'s bounds, and unlinked when nothing is left. -/
theorem returns_removeRound {f : Page → Page} {move : PbM Nat} {s : RemoveLoop} {it' : Nat}
    (hl : Links h R []) (hb : (h.buffers b).isSome) (hR : R b = l₁ ++ s.it :: l₂)
    (hf : ∀ P, h.pages s.it = some P → f P = { P with dataVec := (f P).dataVec } ∧
      (f P).dataVec.len = P.dataVec.len - n ∧ (f P).dataVec.Inside P.dataVec)
    (hmove : ∀ h', Links h' R [] → h'.kindOf = h.kindOf → move h' = .ok (it', h'))
    (hit' : it' ∈ b :: (l₁ ++ l₂)) :
    Returns (do
      modifyPage s.it f
      let it ←
        if h.lenOf s.it - n = 0 then do
          let it ← move
          unlinkPage s.it
          pure it
        else pure s.it
      if n = 0 then pure (.inr s.removed)
      else do
        trivialBufferDecrementDataSize b n
        pure (.inl ⟨it, s.len - n, s.removed + n⟩)) h (fun (r : RemoveLoop ⊕ Nat) h' =>
      ∃ R', PageSteps G ⟨h, R, []⟩ ⟨h', R', []⟩ ∧ (∀ c, R' c ⊆ R c) ∧
        match r with
        | .inl s' => s'.it ∈ b :: R' b
        | .inr _ => True) := by
  have hpR : s.it ∈ R b := mem_cut hR
  obtain ⟨P, hP⟩ := Option.isSome_iff_exists.mp (hl.node_live hb (List.mem_cons_of_mem b hpR))
  obtain ⟨hvec, hlen, hin⟩ := hf P hP
  obtain ⟨h₁, hr₁, c, hn, hp, hs⟩ := setBounds_run hP hvec
  rw [← Heap.vecOf_eq hP] at hlen hin
  have hl₁ : Links h₁ R [] := hl.congr hn hp (Heap.buffers_isSome_congr c.kind) hs c.next
  -- what follows the removal, from a state the steps have come to
  have rest : ∀ h₂ R' it₂, PageSteps G ⟨h, R, []⟩ ⟨h₂, R', []⟩ → (∀ c, R' c ⊆ R c) →
      it₂ ∈ b :: R' b →
      Returns (if n = 0 then pure (.inr s.removed)
        else do
          trivialBufferDecrementDataSize b n
          pure (.inl ⟨it₂, s.len - n, s.removed + n⟩)) h₂ (fun (r : RemoveLoop ⊕ Nat) h' =>
        ∃ R', PageSteps G ⟨h, R, []⟩ ⟨h', R', []⟩ ∧ (∀ c, R' c ⊆ R c) ∧
          match r with
          | .inl s' => s'.it ∈ b :: R' b
          | .inr _ => True) := by
    intro h₂ R' it₂ hsteps hsub hit₂
    have hl₂ : Links h₂ R' [] := hsteps.links hl
    by_cases hz : n = 0
    · rw [if_pos hz]
      exact Returns.pure ⟨R', hsteps, hsub, True.intro⟩
    · rw [if_neg hz]
      have hdec : Returns (trivialBufferDecrementDataSize b n) h₂
          (fun _ h' => Still h₂ h' h₂.datas) := by
        unfold trivialBufferDecrementDataSize
        refine returns_modifyBuffer (fun B => ?_) _
        rfl
      refine Returns.bind hdec ?_
      intro u h₃ s₃
      exact Returns.pure ⟨R', hsteps.step (s₃.step hl₂), hsub, hit₂⟩
  refine Returns.step hr₁ ?_
  by_cases hz : h.lenOf s.it - n = 0
  · simp only [hz, if_true]
    refine Returns.step (hmove h₁ hl₁ c.kind) ?_
    refine Returns.bind (returns_unlinkEmpty (G := G) hl hb hR hn hp hs c) ?_
    intro u h₂ hstep
    refine Returns.pure_bind (rest h₂ _ it' hstep.steps ?_ ?_)
    · refine subset_update ?_
      rw [hR]
      exact List.append_subset.mpr ⟨List.subset_append_left _ _,
        fun q hq => List.mem_append_right _ (List.mem_cons_of_mem _ hq)⟩
    · rwa [update_self]
  · simp only [hz, if_false]
    have hstep : PageStep G ⟨h, R, []⟩ ⟨h₁, R, []⟩ :=
      ⟨.shrink hb hpR (hlen ▸ Nat.pos_of_ne_zero hz) hin c, hl₁⟩
    exact Returns.pure_bind (rest h₁ R s.it hstep.steps (fun _ => List.Subset.refl _)
      (List.mem_cons_of_mem b hpR))

theorem returns_seekRound {s : RemoveLoop} (hl : Links h R []) (ht : h.IsTrivial b)
    (hit : s.it ∈ b :: R b) :
    Returns (seekRound env b s) h (fun r h' => ∃ R', PageSteps G ⟨h, R, []⟩ ⟨h', R', []⟩ ∧
      (∀ c, R' c ⊆ R c) ∧ match r with
      | .inl s' => s'.it ∈ b :: R' b
      | .inr _ => True) := by
  unfold seekRound bufferIsEndIterator trivialBufferIsEndIterator
  split
  · exact Returns.pure ⟨R, .refl, fun _ => List.Subset.refl _, True.intro⟩
  · next hcond =>
      have hne : s.it ≠ b := by
        rintro he
        simp [he] at hcond
      obtain ⟨l₁, l₂, hR⟩ := List.append_of_mem ((List.mem_cons.mp hit).resolve_left hne)
      refine returns_pageGetLen fun _ => ?_
      have hmove : ∀ h', Links h' R [] → h'.kindOf = h.kindOf →
          bufferNextIterator env b s.it h' = .ok (l₂.headD b, h') := by
        intro h' hl' hk
        exact bufferNextIterator_run (ht.congr hk) hl' hR
      refine returns_removeRound hl ht.isSome hR ?_ hmove ?_
      · intro P hP
        have hle : (if h.lenOf s.it < s.len then h.lenOf s.it else s.len) ≤ P.dataVec.len := by
          rw [Heap.lenOf, Heap.vecOf_eq hP]
          split <;> omega
        refine ⟨rfl, rfl, rfl, Nat.le_add_right _ _, ?_⟩
        simp only [Ptr.add_offset]
        omega
      · exact List.cons_subset_cons b (List.subset_append_right l₁ l₂) (headD_mem b l₂)

theorem returns_trimRound {s : RemoveLoop} (hl : Links h R []) (ht : h.IsTrivial b)
    (hit : s.it ∈ b :: R b) :
    Returns (trimRound env b s) h (fun r h' => ∃ R', PageSteps G ⟨h, R, []⟩ ⟨h', R', []⟩ ∧
      (∀ c, R' c ⊆ R c) ∧ match r with
      | .inl s' => s'.it ∈ b :: R' b
      | .inr _ => True) := by
  unfold trimRound bufferIsEndIterator trivialBufferIsEndIterator
  split
  · exact Returns.pure ⟨R, .refl, fun _ => List.Subset.refl _, True.intro⟩
  · next hcond =>
      have hne : s.it ≠ b := by
        rintro he
        simp [he] at hcond
      obtain ⟨l₁, l₂, hR⟩ := List.append_of_mem ((List.mem_cons.mp hit).resolve_left hne)
      refine returns_pageGetLen fun _ => ?_
      have hmove : ∀ h', Links h' R [] → h'.kindOf = h.kindOf →
          bufferPrevIterator env b ((s.it :: l₂).headD b) h' = .ok (l₁.getLastD b, h') := by
        intro h' hl' hk
        exact bufferPrevIterator_run (ht.congr hk) hl' hR
      refine returns_removeRound hl ht.isSome hR ?_ hmove ?_
      · intro P hP
        refine ⟨rfl, rfl, rfl, Nat.le_refl _, ?_⟩
        dsimp only
        omega
      · exact List.cons_subset_cons b (List.subset_append_left l₁ l₂) (getLastD_mem b l₁)

/-- What has been reached from `h`, with an iterator in the ring of `b`. -/
def Walked (G : Allowance) (b : Nat) (h : Heap) (R : Nat → List Nat) (it : Nat) (h' : Heap) :
    Prop :=
  ∃ R', PageSteps G ⟨h, R, []⟩ ⟨h', R', []⟩ ∧ (∀ c, R' c ⊆ R c) ∧ it ∈ b :: R' b

/-- What an operation that makes no pages does to them: some of them go. -/
def Sheds (G : Allowance) (h : Heap) (R : Nat → List Nat) (h' : Heap) : Prop :=
  ∃ R', PageSteps G ⟨h, R, []⟩ ⟨h', R', []⟩ ∧ ∀ c, R' c ⊆ R c

/-- A loop of `seek` or `trim`. -/
theorem returns_removeLoop {round : RemoveLoop → PbM (RemoveLoop ⊕ Nat)} {fuel : Nat}
    {s : RemoveLoop} (hl : Links h R []) (ht : h.IsTrivial b) (hit : s.it ∈ b :: R b)
    (hround : ∀ g R' s, Links g R' [] → g.IsTrivial b → s.it ∈ b :: R' b →
      Returns (round s) g (fun r h' => ∃ R'', PageSteps G ⟨g, R', []⟩ ⟨h', R'', []⟩ ∧
        (∀ c, R'' c ⊆ R' c) ∧ match r with
        | .inl s' => s'.it ∈ b :: R'' b
        | .inr _ => True)) :
    Returns (loopM .diverges round fuel s) h (fun _ h' => Sheds G h R h') := by
  refine Returns.loop (I := fun s h' => Walked G b h R s.it h') ?_ fuel s h
    ⟨R, .refl, fun _ => List.Subset.refl _, hit⟩
  intro s h₁ hw
  obtain ⟨R₁, hsteps, hsub, hit₁⟩ := hw
  refine (hround h₁ R₁ s (hsteps.links hl) (hsteps.trivial_of ht) hit₁).mono ?_
  intro r h₂ hr
  obtain ⟨R₂, hsteps', hsub', hr'⟩ := hr
  have hsub₂ : ∀ c, R₂ c ⊆ R c := fun c q hq => hsub c (hsub' c hq)
  cases r with
  | inl s' => exact ⟨R₂, hsteps.trans hsteps', hsub₂, hr'⟩
  | inr k => exact ⟨R₂, hsteps.trans hsteps', hsub₂⟩

theorem returns_bumpIfPositive (hl : Links h R F) (k : Nat) :
    Returns (bumpIfPositive b k) h (fun _ h' => PageStep G ⟨h, R, F⟩ ⟨h', R, F⟩) := by
  have hinc : Returns (trivialBufferIncrementDataRevision b) h
      (fun _ h' => Still h h' h.datas) := by
    unfold trivialBufferIncrementDataRevision
    refine returns_modifyBuffer (fun B => ?_) h
    rfl
  unfold bumpIfPositive
  split
  · exact hinc.mono fun _ _ s => s.step hl
  · exact Returns.pure ((Still.refl h).step hl)

/-- What an operation does to the pages. -/
def Steps (G : Allowance) (h : Heap) (R : Nat → List Nat) (h' : Heap) : Prop :=
  ∃ R', PageSteps G ⟨h, R, []⟩ ⟨h', R', []⟩

theorem Sheds.steps (s : Sheds G h R h') : Steps G h R h' := by
  obtain ⟨R', hsteps, -⟩ := s
  exact ⟨R', hsteps⟩

section Operations

variable (hl : Links h R []) (ht : h.IsTrivial b)

include hl ht

theorem returns_trivialBufferSeek (len : Nat) :
    Returns (trivialBufferSeek env b len) h (fun _ h' => Sheds G h R h') := by
  unfold trivialBufferSeek
  refine returns_getBuffer fun B _ => ?_
  split
  · exact Returns.pure ⟨R, .refl, fun _ => List.Subset.refl _⟩
  · refine Returns.step (bufferGetIterator_run ht hl) ?_
    refine Returns.bind (returns_removeLoop hl ht (headD_mem b (R b))
      (fun g R' s hl' ht' hit => returns_seekRound (G := G) hl' ht' hit)) ?_
    rintro k h₁ ⟨R₁, hsteps, hsub⟩
    refine Returns.bind (returns_bumpIfPositive (G := G) (hsteps.links hl) k) ?_
    intro u h₂ hstep
    exact Returns.pure ⟨R₁, hsteps.step hstep, hsub⟩

theorem returns_trivialBufferTrim (len : Nat) :
    Returns (trivialBufferTrim env b len) h (fun _ h' => Sheds G h R h') := by
  unfold trivialBufferTrim
  refine returns_getBuffer fun B _ => ?_
  split
  · exact Returns.pure ⟨R, .refl, fun _ => List.Subset.refl _⟩
  · refine Returns.pure_bind (Returns.step (bufferPrevIterator_end ht hl) ?_)
    refine Returns.bind (returns_removeLoop hl ht (getLastD_mem b (R b))
      (fun g R' s hl' ht' hit => returns_trimRound (G := G) hl' ht' hit)) ?_
    rintro k h₁ ⟨R₁, hsteps, hsub⟩
    refine Returns.bind (returns_bumpIfPositive (G := G) (hsteps.links hl) k) ?_
    intro u h₂ hstep
    exact Returns.pure ⟨R₁, hsteps.step hstep, hsub⟩

/-- After `clear` the ring is empty. -/
theorem returns_trivialBufferClear :
    Returns (trivialBufferClear env b) h (fun _ h' =>
      ∃ R', PageSteps G ⟨h, R, []⟩ ⟨h', R', []⟩ ∧ (∀ c, R' c ⊆ R c) ∧ R' b = []) := by
  unfold trivialBufferClear trivialBufferClearImpl
  have hinc : Returns (trivialBufferIncrementDataRevision b) h
      (fun _ h' => Still h h' h.datas) := by
    unfold trivialBufferIncrementDataRevision
    refine returns_modifyBuffer (fun B => ?_) h
    rfl
  refine Returns.bind hinc ?_
  intro u h₁ s₁
  have hsize : Returns (modifyBuffer b (fun B => { B with dataSize := 0 })) h₁
      (fun _ h' => Still h₁ h' h₁.datas) := by
    refine returns_modifyBuffer (fun B => ?_) h₁
    rfl
  refine Returns.bind hsize ?_
  intro u h₂ s₂
  have s := s₁.then_same s₂
  have hl₂ : Links h₂ R [] := hl.still s.pages s.kind s.next
  have ht₂ : h₂.IsTrivial b := ht.congr s.kind
  refine Returns.step (bufferGetIterator_run ht₂ hl₂) (Returns.step get_run ?_)
  refine Returns.loop (I := fun it h' => ∃ R', PageSteps G ⟨h, R, []⟩ ⟨h', R', []⟩ ∧
    (∀ c, R' c ⊆ R c) ∧ it = (R' b).headD b) ?_ _ _ _
    ⟨R, (s.step hl).steps, fun _ => List.Subset.refl _, rfl⟩
  intro it h₃ hw
  obtain ⟨R₃, hsteps, hsub, hit⟩ := hw
  have hl₃ := hsteps.links hl
  have ht₃ := hsteps.trivial_of ht
  unfold clearRound bufferIsEndIterator trivialBufferIsEndIterator
  by_cases he : it = b
  · rw [if_pos (by simpa using he)]
    refine Returns.pure ⟨R₃, hsteps, hsub, ?_⟩
    exact (hl₃.headD_eq_self_iff ht₃.isSome).mp (by rw [← hit, he])
  · rw [if_neg (by simpa using he)]
    obtain ⟨l, hR₃⟩ := exists_cons_of_headD hit (by
      rintro hnil
      rw [hnil] at hit
      exact he hit)
    refine Returns.step (bufferNextIterator_first ht₃ hl₃ hR₃) ?_
    have hR₃' : R₃ b = [] ++ it :: l := hR₃
    refine Returns.bind (returns_unlinkPage_step (G := G) hl₃ ht₃.isSome hR₃') ?_
    intro u h₄ hstep
    refine Returns.pure ⟨_, hsteps.step hstep, fun c => ?_, ?_⟩
    · refine List.Subset.trans (subset_update ?_ c) (hsub c)
      rw [hR₃]
      exact List.subset_cons_self it l
    · rw [update_self]
      rfl

/-- A linked page is made writable. -/
theorem returns_ensureWritable (hp : p ∈ R b) :
    Returns (ensureWritable env b p) h (fun _ h' => PageStep G ⟨h, R, []⟩ ⟨h', R, []⟩) := by
  unfold ensureWritable
  refine returns_getBuffer fun B _ => returns_getPage fun P hP => returns_deref fun d hd => ?_
  refine returns_getData fun D _ => ?_
  split
  · exact returns_trivialBufferDupPageData hl ht.isSome hp (by rw [Heap.dataOf_eq hP, hd])
  · exact Returns.pure ((Still.refl h).step hl)

/-- One round of `overwrite_data`. What was written and what is still to be
written add up to the length of the caller's memory. -/
theorem returns_overwriteDataRound {buf : List UInt8} {s : OverwriteLoop} (hit : s.it ∈ b :: R b) :
    Returns (overwriteDataRound env b buf s) h (fun r h' =>
      PageSteps G ⟨h, R, []⟩ ⟨h', R, []⟩ ∧
      match r with
      | .inl s' => s'.it ∈ b :: R b ∧ s'.written + s'.len = s.written + s.len
      | .inr _ => True) := by
  unfold overwriteDataRound bufferIsEndIterator trivialBufferIsEndIterator
  split
  · exact Returns.pure ⟨.refl, True.intro⟩
  · next hcond =>
      have hne : s.it ≠ b := by
        intro he
        simp [he] at hcond
      have hpR := (List.mem_cons.mp hit).resolve_left hne
      obtain ⟨l₁, l₂, hR⟩ := List.append_of_mem hpR
      refine Returns.bind (returns_ensureWritable (G := G) hl ht hpR) ?_
      intro r h₁ hstep
      have ht₁ : h₁.IsTrivial b := hstep.steps.trivial_of ht
      cases r with
      | false => exact Returns.pure ⟨hstep.steps, True.intro⟩
      | true =>
          refine returns_pageGetLen fun _ => ?_
          dsimp only
          have hle : (if h₁.lenOf s.it < s.len then h₁.lenOf s.it else s.len) ≤ s.len := by
            split <;> omega
          generalize (if h₁.lenOf s.it < s.len then h₁.lenOf s.it else s.len) = n at hle
          by_cases hz : n = 0
          · rw [if_pos hz]
            exact Returns.pure ⟨hstep.steps, True.intro⟩
          · rw [if_neg hz]
            refine returns_callerSlice fun bs => returns_pageGetBase fun q => ?_
            refine Returns.bind (returns_memWrite q bs h₁) ?_
            intro u h₂ s₂
            have hstep₂ : PageStep G ⟨h₁, R, []⟩ ⟨h₂, R, []⟩ := s₂.step hstep.links
            refine Returns.step (bufferNextIterator_run (ht₁.congr s₂.kind) hstep₂.links hR)
              (Returns.pure ⟨hstep.steps.step hstep₂, ?_, by dsimp only; omega⟩)
            rw [hR]
            refine List.cons_subset_cons b ?_ (headD_mem b l₂)
            exact fun q hq => by simp [hq]

theorem returns_trivialBufferOverwriteData (buf : List UInt8) :
    Returns (trivialBufferOverwriteData env b buf) h (fun _ h' => Sheds G h R h') := by
  unfold trivialBufferOverwriteData
  refine returns_getBuffer fun B _ => ?_
  split
  · exact Returns.pure ⟨R, .refl, fun _ => List.Subset.refl _⟩
  · refine Returns.step (bufferGetIterator_run ht hl) ?_
    refine Returns.bind (P := fun _ h' => PageSteps G ⟨h, R, []⟩ ⟨h', R, []⟩) ?_ ?_
    · refine Returns.loop (I := fun s h' => PageSteps G ⟨h, R, []⟩ ⟨h', R, []⟩ ∧ s.it ∈ b :: R b)
        ?_ _ _ _ ⟨.refl, headD_mem b (R b)⟩
      intro s h₁ hI
      obtain ⟨hsteps, hit⟩ := hI
      refine (returns_overwriteDataRound (G := G) (hsteps.links hl) (hsteps.trivial_of ht)
        hit).mono ?_
      intro r h₂ hr
      cases r with
      | inl s' => exact ⟨hsteps.trans hr.1, hr.2.1⟩
      | inr k => exact hsteps.trans hr.1
    · intro k h₁ hsteps
      refine Returns.bind (returns_bumpIfPositive (G := G) (hsteps.links hl) k) ?_
      intro u h₂ hstep
      exact Returns.pure ⟨R, hsteps.step hstep, fun _ => List.Subset.refl _⟩

/-- One round of `read_data`. What was read and what is still to be read add up
to the length of the caller's memory. -/
theorem returns_readDataRound {s : ReadLoop} (hit : s.it ∈ b :: R b) :
    Returns (readDataRound env b s) h (fun r h' =>
      PageSteps G ⟨h, R, []⟩ ⟨h', R, []⟩ ∧
      match r with
      | .inl s' => s'.it ∈ b :: R b ∧ s'.out.length + s'.len = s.out.length + s.len
      | .inr _ => True) := by
  unfold readDataRound bufferIsEndIterator trivialBufferIsEndIterator
  split
  · exact Returns.pure ⟨.refl, True.intro⟩
  · next hcond =>
      have hne : s.it ≠ b := by
        intro he
        simp [he] at hcond
      obtain ⟨l₁, l₂, hR⟩ := List.append_of_mem ((List.mem_cons.mp hit).resolve_left hne)
      refine returns_getPage fun P _ => Returns.bind (returns_memRead_length _ _ h) ?_
      intro bs h₁ hread
      obtain ⟨s₁, hbs⟩ := hread
      have hstep : PageStep G ⟨h, R, []⟩ ⟨h₁, R, []⟩ := s₁.step hl
      refine Returns.step (bufferNextIterator_run (ht.congr s₁.kind) hstep.links hR)
        (Returns.pure ⟨hstep.steps, ?_, ?_⟩)
      · rw [hR]
        refine List.cons_subset_cons b ?_ (headD_mem b l₂)
        exact fun q hq => by simp [hq]
      · have hle : (if P.dataVec.len < s.len then P.dataVec.len else s.len) ≤ s.len := by
          split <;> omega
        dsimp only
        rw [List.length_append, hbs]
        omega

theorem returns_trivialBufferReadData (len : Nat) :
    Returns (trivialBufferReadData env b len) h (fun _ h' => Sheds G h R h') := by
  unfold trivialBufferReadData
  refine Returns.step (bufferGetIterator_run ht hl) (Returns.step get_run ?_)
  refine Returns.loop (I := fun s h' => PageSteps G ⟨h, R, []⟩ ⟨h', R, []⟩ ∧ s.it ∈ b :: R b)
    ?_ _ _ _ ⟨.refl, headD_mem b (R b)⟩
  intro s h₁ hI
  obtain ⟨hsteps, hit⟩ := hI
  refine (returns_readDataRound (G := G) (hsteps.links hl) (hsteps.trivial_of ht) hit).mono ?_
  intro r h₂ hr
  cases r with
  | inl s' => exact ⟨hsteps.trans hr.1, hr.2.1⟩
  | inr bs => exact ⟨R, hsteps.trans hr.1, fun _ => List.Subset.refl _⟩

end Operations

/-! ## Insertion -/

/-- A buffer keeps its strategy and its class. -/
theorem buffer_of_kind {B : Buffer} (hk : g.kindOf = h.kindOf) (hB : h.buffers b = some B) :
    ∃ B', g.buffers b = some B' ∧ B'.strategy = B.strategy ∧ B'.operations = B.operations := by
  have hkb := congrFun hk b
  rw [Heap.kindOf, Heap.kindOf, hB, Option.map_some, Option.map_eq_some_iff] at hkb
  obtain ⟨B', hB', heq⟩ := hkb
  exact ⟨B', hB', (Prod.mk.inj heq).1, (Prod.mk.inj heq).2⟩

/-- Pages of buffers with a page size are not longer than that, or than pages of
the buffer were. -/
def WithinLimits (h : Heap) (R : Nat → List Nat) (h' : Heap) (R' : Nat → List Nat) : Prop :=
  ∀ c B, h.buffers c = some B → 0 < B.strategy.pageSize →
    NoLonger c B.strategy.pageSize h h' R R'

/-- What an operation does to the pages that cuts what it inserts. -/
def Limited (G : Allowance) (h : Heap) (R : Nat → List Nat) (h' : Heap) : Prop :=
  ∃ R', PageSteps G ⟨h, R, []⟩ ⟨h', R', []⟩ ∧ WithinLimits h R h' R'

theorem WithinLimits.refl (h : Heap) (R : Nat → List Nat) : WithinLimits h R h R :=
  fun c B _ _ => NoLonger.refl c B.strategy.pageSize h R

theorem WithinLimits.trans {R'' : Nat → List Nat} (w : WithinLimits h R h' R')
    (hk : h'.kindOf = h.kindOf) (w' : WithinLimits h' R' h'' R'') : WithinLimits h R h'' R'' := by
  intro c B hB hpos
  obtain ⟨B', hB', hσ, -⟩ := buffer_of_kind hk hB
  have hlast := w' c B' hB' (by rw [hσ]; exact hpos)
  rw [hσ] at hlast
  exact (w c B hB hpos).trans hlast (Nat.le_refl _)

theorem Limited.steps (s : Limited G h R h') : Steps G h R h' := by
  obtain ⟨R', hsteps, -⟩ := s
  exact ⟨R', hsteps⟩

theorem Limited.refl : Limited G h R h := ⟨R, .refl, .refl h R⟩

theorem Sheds.limited (s : Sheds G h R h') (hl : Links h R []) : Limited G h R h' := by
  obtain ⟨R', hsteps, hsub⟩ := s
  exact ⟨R', hsteps, fun c B _ _ => hsteps.noLonger hl (hsub c) B.strategy.pageSize⟩

/-- An insertion of pages that are within the page size of their buffer. -/
theorem InsertsUpTo.withinLimits (up : InsertsUpTo b n h h' R R')
    (s : PageSteps G ⟨h, R, []⟩ ⟨h', R', []⟩) (hl : Links h R [])
    (hn : ∀ B, h.buffers b = some B → 0 < B.strategy.pageSize → n ≤ B.strategy.pageSize ∨
      ∃ p ∈ R b, n ≤ h.lenOf p) : WithinLimits h R h' R' := by
  intro c B hB hpos
  rcases eq_or_ne c b with rfl | hne
  · intro q hq
    rcases up.target q hq with hle | hold
    · rcases hn B hB hpos with hn | ⟨p, hp, hn⟩
      · exact .inl (Nat.le_trans hle hn)
      · exact .inr ⟨p, hp, Nat.le_trans hle hn⟩
    · exact .inr hold
  · exact s.noLonger hl (by rw [up.others c hne]; exact List.Subset.refl _) _

theorem cutLen_le_pageSize {pageSize : Nat} (hpos : 0 < pageSize) (k : Nat) :
    cutLen pageSize k ≤ pageSize := by
  unfold cutLen
  split <;> omega

/-- The split of `it` at an offset is allowed after a page was made that shares
the data `shared`. -/
def MaySplit (G : Allowance) (h : Heap) (it off : Nat) (shared : Option Nat) : Prop :=
  0 < min off (h.lenOf it) → ∀ d, h.dataOf it = some d →
    G.split (h.lenOf it) (min off (h.lenOf it)) (h.refs d + if shared = some d then 1 else 0)

/-- At offset 0 nothing is split. -/
theorem maySplit_zero (shared : Option Nat) : MaySplit G h it 0 shared := by
  intro hpos
  simp at hpos

section Insert

variable {off : Nat} {shared : Option Nat} (ft : Footing h R []) (ht : h.IsTrivial b)
  (hit : it ∈ b :: R b) (np : NewPage G h h₁ R [] x n shared) (hg : MaySplit G h it off shared)

include ft np

theorem NewPage.noLonger (m : Nat) : NoLonger b m h h₁ R R :=
  np.step.steps.noLonger ft.links (List.Subset.refl _) m

theorem NewPage.elsewhere : Elsewhere b h h₁ R R := by
  refine fun c _ => ⟨rfl, fun q hq => ?_⟩
  have := ft.links.ring_fresh hq
  have := np.fresh
  rw [np.len, update_of_ne (by omega)]

include ht hit hg

/-- A page just made is inserted, or the split of the page there was refused
and it is not linked. -/
theorem returns_insertNew :
    Returns (trivialBufferInsert env b it off x) h₁ (fun k h' =>
      (k = 0 ∧ PageSteps G ⟨h, R, []⟩ ⟨h', R, [x]⟩ ∧ Elsewhere b h h' R R) ∨
      (k = n ∧ ∃ R', PageSteps G ⟨h, R, []⟩ ⟨h', R', []⟩ ∧ R b ⊆ R' b ∧ it ∈ b :: R' b ∧
        CutAt it off h h' ∧ NoLonger b n h h' R R' ∧ Elsewhere b h h' R R')) := by
  have hitlt : it < h.next := by
    rcases List.mem_cons.mp hit with rfl | hitR
    · exact ft.links.buffer_fresh ht.isSome
    · exact ft.links.ring_fresh hitR
  have hne : it ≠ x := by
    have := np.fresh
    omega
  have hlen : h₁.lenOf it = h.lenOf it := by rw [np.len, update_of_ne hne]
  have hbx : b ≠ x := by
    have := np.fresh
    have := ft.links.buffer_fresh ht.isSome
    omega
  have ht₁ : h₁.IsTrivial b := ht.congr np.step.effect.kind
  have hlx : h₁.lenOf x = n := by rw [np.len, update_self]
  obtain ⟨k₁, k₂, hR, hhead⟩ : ∃ k₁ k₂, R b = k₁ ++ k₂ ∧ it = k₂.headD b := by
    rcases List.mem_cons.mp hit with rfl | hitR
    · exact ⟨R it, [], by simp, rfl⟩
    · obtain ⟨k₁, k₂, hR⟩ := List.append_of_mem hitR
      exact ⟨k₁, it :: k₂, hR, rfl⟩
  refine (returns_trivialBufferInsert (G := G) np.step.links ht₁ ?_ hR hhead ?_).mono ?_
  · rw [np.len, update_of_ne hbx]
    exact (ft.sentinel ht.isSome).2
  · intro hpos d hd
    rw [np.data it hne] at hd
    rw [hlen] at hpos ⊢
    rw [np.refs d (ft.born hd)]
    exact hg hpos d hd
  · rintro k h' (⟨rfl, s⟩ | ⟨rfl, l₁, l₂, hsteps, hit', hsub, hcut, hsize, he⟩)
    · refine .inl ⟨rfl, np.step.steps.step (s.step np.step.links), ?_⟩
      exact (np.elsewhere ft).trans (s.elsewhere b R)
    · refine .inr ⟨hlx, _, np.step.steps.trans hsteps, ?_, ?_,
        hcut.after np.step.effect.next hitlt fun p hp => ?_,
        (np.noLonger ft n).trans (hlx ▸ hsize) (Nat.le_refl _), (np.elsewhere ft).trans he⟩
      · rw [update_self]
        intro q hq
        have := hsub hq
        simp only [List.mem_append, List.mem_cons] at this ⊢
        tauto
      · rw [update_self, hit']
        refine List.cons_subset_cons b ?_ (headD_mem b l₂)
        exact fun q hq => by simp [hq]
      · have := np.fresh
        rw [np.len, update_of_ne (by omega)]

end Insert

/-- The place of an insertion: a page of the ring, or its end. -/
def IsPlace (place : PbM Nat) (b : Nat) (h : Heap) (R : Nat → List Nat) : Prop :=
  ∃ it, place h = .ok (it, h) ∧ it ∈ b :: R b

theorem returns_insertPagesRound {place : PbM Nat} {make : Nat → Nat → PbM (Option Nat)}
    {s : InsertLoop} (ft : Footing h R []) (ht : h.IsTrivial b) (hp : IsPlace place b h R)
    (hmake : ∀ n, 0 < n → MakesNew G (make s.inserted n) h R [] n none)
    (hg : s.len ≠ 0 → ∀ it, place h = .ok (it, h) → MaySplit G h it s.offset none) :
    Returns (insertPagesRound env b place make s) h (fun r h' =>
      ∃ R', PageSteps G ⟨h, R, []⟩ ⟨h', R', []⟩ ∧ R b ⊆ R' b ∧
        (∀ B, h.buffers b = some B →
          InsertsUpTo b (cutLen B.strategy.pageSize s.len) h h' R R') ∧
        match r with
        | .inl s' => s'.offset = 0
        | .inr _ => True) := by
  unfold insertPagesRound
  split
  · exact Returns.pure ⟨R, .refl, List.Subset.refl _, fun _ _ => (PageSteps.refl : PageSteps G _ _).insertsUpTo ft.links b _, True.intro⟩
  · next hz =>
      refine returns_getBuffer fun B hB => ?_
      have hn : 0 < cutLen B.strategy.pageSize s.len := cutLen_pos _ hz
      have hsize : ∀ {g S}, InsertsUpTo b (cutLen B.strategy.pageSize s.len) h g R S →
          ∀ B', h.buffers b = some B' →
            InsertsUpTo b (cutLen B'.strategy.pageSize s.len) h g R S := by
        intro g S hno B' hB'
        rw [hB] at hB'
        cases hB'
        exact hno
      dsimp only
      generalize cutLen B.strategy.pageSize s.len = n at hn hsize
      obtain ⟨it, hrun, hit⟩ := hp
      refine Returns.step hrun (Returns.bind (hmake n hn) ?_)
      intro r h₁ hr
      cases r with
      | none =>
          have hsteps : PageSteps G ⟨h, R, []⟩ ⟨h₁, R, []⟩ := PageStep.steps hr
          exact Returns.pure ⟨R, hsteps, List.Subset.refl _,
            hsize (hsteps.insertsUpTo ft.links b n), True.intro⟩
      | some x =>
          have np : NewPage G h h₁ R [] x n none := hr
          refine Returns.bind (returns_insertNew ft ht hit np (hg hz it hrun)) ?_
          rintro k h₂ (⟨rfl, hsteps, -⟩ | ⟨rfl, R', hsteps, hsub, -, -, hno, he⟩)
          · rw [if_pos rfl]
            refine Returns.bind (returns_pageDestroy x h₂) ?_
            intro u h₃ g
            have hsteps' := hsteps.step (g.destroy (hsteps.links ft.links))
            exact Returns.pure ⟨R, hsteps', List.Subset.refl _,
              hsize (hsteps'.insertsUpTo ft.links b n), True.intro⟩
          · rw [if_neg (by omega)]
            exact Returns.pure ⟨R', hsteps, hsub, hsize ⟨hno, fun c hc => (he c hc).1⟩, rfl⟩

/-- Where an insertion stands after some rounds: only its first round can split
a page. -/
def InsertAt (G : Allowance) (b : Nat) (place : PbM Nat) (h : Heap) (R : Nat → List Nat)
    (s : InsertLoop) (g : Heap) (R' : Nat → List Nat) : Prop :=
  PageSteps G ⟨h, R, []⟩ ⟨g, R', []⟩ ∧ R b ⊆ R' b ∧
    (s.len ≠ 0 → ∀ it, place g = .ok (it, g) → MaySplit G g it s.offset none)

section InsertAt

variable {place : PbM Nat} {make : Nat → Nat → PbM (Option Nat)} (ft : Footing h R [])
  (ht : h.IsTrivial b)
  (hp : ∀ g R', Links g R' [] → g.IsTrivial b → R b ⊆ R' b → IsPlace place b g R')
  (hmake : ∀ g R' i n, Links g R' [] → 0 < n → MakesNew G (make i n) g R' [] n none)

include ft ht hp hmake

theorem InsertAt.round {s : InsertLoop} (hI : InsertAt G b place h R s g R') :
    Returns (insertPagesRound env b place make s) g (fun r g' =>
      match r with
      | .inl s' => ∃ R'', InsertAt G b place h R s' g' R'' ∧ WithinLimits g R' g' R''
      | .inr _ => ∃ R'', PageSteps G ⟨h, R, []⟩ ⟨g', R'', []⟩ ∧ WithinLimits g R' g' R'') := by
  obtain ⟨hsteps, hsub, hsplit⟩ := hI
  have ft' : Footing g R' [] := hsteps.footing ft
  have ht' : g.IsTrivial b := hsteps.trivial_of ht
  refine (returns_insertPagesRound ft' ht' (hp g R' ft'.links ht' hsub)
    (fun n hn => hmake g R' _ n ft'.links hn) hsplit).mono ?_
  intro r g' hr
  obtain ⟨R'', hsteps', hsub', hup, hr'⟩ := hr
  have hw : WithinLimits g R' g' R'' := by
    obtain ⟨B, hB, -⟩ := ht'
    refine (hup B hB).withinLimits hsteps' ft'.links ?_
    intro B' hB' hpos
    rw [hB] at hB'
    cases hB'
    exact .inl (cutLen_le_pageSize hpos _)
  cases r with
  | inl s' =>
      refine ⟨R'', ⟨hsteps.trans hsteps', fun q hq => hsub' (hsub hq), fun _ it _ => ?_⟩, hw⟩
      rw [show s'.offset = 0 from hr']
      exact maySplit_zero none
  | inr k => exact ⟨R'', hsteps.trans hsteps', hw⟩

/-- The insertion loop. -/
theorem returns_insertPages {offset len : Nat}
    (hg : len ≠ 0 → ∀ it, place h = .ok (it, h) → MaySplit G h it offset none) :
    Returns (insertPages env b place make offset len) h (fun _ h' => Limited G h R h') := by
  unfold insertPages
  refine Returns.loop (I := fun s g => ∃ R', InsertAt G b place h R s g R' ∧
    WithinLimits h R g R') ?_ _ _ _ ⟨R, ⟨.refl, List.Subset.refl _, hg⟩, .refl h R⟩
  intro s g hI
  obtain ⟨R', hI, hw⟩ := hI
  have hkind := hI.1.kind
  refine (hI.round ft ht hp hmake).mono ?_
  intro r g' hr
  cases r with
  | inl s' =>
      obtain ⟨R'', hI', hw'⟩ := hr
      exact ⟨R'', hI', hw.trans hkind hw'⟩
  | inr k =>
      obtain ⟨R'', hsteps, hw'⟩ := hr
      exact ⟨R'', hsteps, hw.trans hkind hw'⟩

end InsertAt

/-! ## Transfers -/

/-- The data that a page made from the page `p` shares. -/
def sharedBy (strategy : Strategy) (g : Heap) (p : Nat) : Option Nat :=
  if strategy.cloneOnWrite then none else g.dataOf p

/-- The page makers of the four algorithms. -/
theorem transferAlgorithm_makesNew {strategy : Strategy} (hl : Links h R F) (hn : 0 < n)
    (off : Nat) (hp : p ≠ h.next)
    (hg : strategy.cloneOnWrite = false → ∀ d, h.dataOf p = some d →
      G.share (h.lenOf p) off n (h.refs d)) :
    MakesNew G ((transferAlgorithm env b strategy).make p n off) h R F n
      (sharedBy strategy h p) := by
  unfold transferAlgorithm sharedBy
  cases hc : strategy.cloneOnWrite with
  | true =>
      cases strategy.fragmentAsTarget with
      | true => exact makesNew_copied hl hn p off
      | false => exact makesNew_copied hl hn p off
  | false =>
      cases strategy.fragmentAsTarget with
      | true => exact makesNew_shared hl hn off hp (hg hc)
      | false => exact makesNew_shared hl hn off hp (hg hc)

/-- What a round of a transfer asks for: a source page that is not empty, and
leave to share `n` bytes of it and to split the page at the place of the
insertion. -/
structure RoundAllowed (G : Allowance) (strategy : Strategy) (it : Nat) (g : Heap)
    (s : TransferLoop) (n : Nat) : Prop where
  filled : 0 < g.lenOf s.srcIt
  share : strategy.cloneOnWrite = false → ∀ d, g.dataOf s.srcIt = some d →
    G.share (g.lenOf s.srcIt) s.srcOffset n (g.refs d)
  split : MaySplit G g it s.offset (sharedBy strategy g s.srcIt)

/-- One round of a transfer, up to the end of it or to the next loop state. -/
theorem returns_insertBufferRound {alg : TransferAlgorithm} {s : TransferLoop} {B : Buffer}
    {shared : Option Nat} (ft : Footing h R []) (hB : h.buffers b = some B)
    (hop : B.operations = .trivial) (hsrc : h.IsTrivial src) (hit : it ∈ b :: R b)
    (hsp : R src = m₁ ++ s.srcIt :: m₂) (hl : s.len ≠ 0)
    (hn : n = alg.cut B.strategy.pageSize (h.lenOf s.srcIt) s.srcOffset s.len) (hpos : 0 < n)
    (hmake : MakesNew G (alg.make s.srcIt n s.srcOffset) h R [] n shared)
    (hg : MaySplit G h it s.offset shared) :
    Returns (insertBufferRound env alg b it src s) h (fun r h' => ∃ R',
      PageSteps G ⟨h, R, []⟩ ⟨h', R', []⟩ ∧ InsertsUpTo b n h h' R R' ∧
      match r with
      | .inl s' => it ∈ b :: R' b ∧ CutAt it s.offset h h' ∧ Elsewhere b h h' R R' ∧ ∃ j₁ j₂,
          R' src = j₁ ++ s.srcIt :: j₂ ∧ (src ≠ b → j₁ = m₁ ∧ j₂ = m₂) ∧
          ((s' = ⟨0, s.len - n, s.inserted + n, j₂.headD src, 0⟩ ∧
              (alg.always = true ∨ s.srcOffset + n = h'.lenOf s.srcIt)) ∨
            (s' = ⟨0, s.len - n, s.inserted + n, s.srcIt, s.srcOffset + n⟩ ∧
              alg.always = false ∧ s.srcOffset + n ≠ h'.lenOf s.srcIt))
      | .inr _ => True) := by
  have ht : h.IsTrivial b := ⟨B, hB, hop⟩
  have hspR : s.srcIt ∈ R src := mem_cut hsp
  have hne : s.srcIt ≠ src := fun he => ft.links.notMem_self hsrc.isSome (he ▸ hspR)
  unfold insertBufferRound bufferIsEndIterator trivialBufferIsEndIterator
  rw [if_neg (by simp [hl, hne])]
  refine Returns.step (getBuffer_run hB) (returns_pageGetLen fun _ => ?_)
  rw [← hn]
  refine Returns.bind hmake ?_
  intro r h₁ hr
  cases r with
  | none =>
      have hstep : PageStep G ⟨h, R, []⟩ ⟨h₁, R, []⟩ := hr
      exact Returns.pure ⟨R, hstep.steps,
        hstep.steps.insertsUpTo ft.links b n, True.intro⟩
  | some x =>
      have np : NewPage G h h₁ R [] x n shared := hr
      refine Returns.bind (returns_insertNew ft ht hit np hg) ?_
      rintro k h₂ (⟨rfl, hsteps, he⟩ | ⟨rfl, R', hsteps, hsub, hit', hcut, hno, he⟩)
      · rw [if_pos rfl]
        refine Returns.bind (returns_pageDestroy x h₂) ?_
        intro u h₃ g
        have hsteps' := hsteps.step (g.destroy (hsteps.links ft.links))
        exact Returns.pure ⟨R, hsteps', hsteps'.insertsUpTo ft.links b n,
          True.intro⟩
      · rw [if_neg (by omega)]
        have hl' := hsteps.links ft.links
        have hsrc' := hsteps.trivial_of hsrc
        have hj : ∃ j₁ j₂, R' src = j₁ ++ s.srcIt :: j₂ ∧ (src ≠ b → j₁ = m₁ ∧ j₂ = m₂) := by
          by_cases hsb : src = b
          · subst hsb
            obtain ⟨j₁, j₂, hj⟩ := List.append_of_mem (hsub hspR)
            exact ⟨j₁, j₂, hj, fun hf => absurd rfl hf⟩
          · exact ⟨m₁, m₂, by rw [(he src hsb).1, hsp], fun _ => ⟨rfl, rfl⟩⟩
        obtain ⟨j₁, j₂, hj, hjm⟩ := hj
        have hup : InsertsUpTo b k h h₂ R R' := ⟨hno, fun c hc => (he c hc).1⟩
        refine returns_pageGetLen fun _ => ?_
        by_cases hmove : alg.always = true ∨ s.srcOffset + k = h₂.lenOf s.srcIt
        · rw [if_pos (by simpa using hmove)]
          refine Returns.step (bufferNextIterator_run hsrc' hl' hj) (Returns.pure ?_)
          exact ⟨R', hsteps, hup, hit', hcut, he, j₁, j₂, hj, hjm, .inl ⟨rfl, hmove⟩⟩
        · rw [if_neg (by simpa using hmove)]
          rw [not_or] at hmove
          exact Returns.pure ⟨R', hsteps, hup, hit', hcut, he, j₁, j₂, hj, hjm,
            .inr ⟨rfl, by simpa using hmove.1, hmove.2⟩⟩

/-- Where a buffer is inserted into itself before bytes of its first page, the
split leaves of that page what the first round takes, or that round is the last
one to read it. -/
def HeadKept (alg : TransferAlgorithm) (pageSize b src it offset len : Nat) (h : Heap)
    (R : Nat → List Nat) : Prop :=
  src = b → it ≠ b → it = (R b).headD b → alg.always = true ∨
    len ≤ alg.cut pageSize (h.lenOf it) 0 len ∨
    alg.cut pageSize (h.lenOf it) 0 len ≤ h.lenOf it - min offset (h.lenOf it)

/-- Where a transfer stands after some rounds. From a source of its own it has
read the bytes before its iterator; if `K`, it stands inside the page it reads
from. -/
structure TransferAt (G : Allowance) (Start : Nat → Prop) (K : Prop)
    (b src it offset len : Nat) (h : Heap) (R : Nat → List Nat) (s : TransferLoop) (g : Heap)
    (R' : Nat → List Nat) : Prop where
  steps : PageSteps G ⟨h, R, []⟩ ⟨g, R', []⟩
  first : s.offset = 0 ∨ s = ⟨offset, len, 0, (R src).headD src, 0⟩ ∧ g = h ∧ R' = R
  elsewhere : Elsewhere b h g R R'
  place : it ∈ b :: R' b
  sum : s.inserted + s.len = len
  srcOffset : s.srcOffset ≤ s.inserted
  srcIt : s.srcIt ∈ src :: R' src
  notEnd : s.srcOffset = 0 ∨ s.srcOffset ≠ g.lenOf s.srcIt
  reading : src ≠ b → s.len ≠ 0 → Start s.srcOffset ∧ ∃ m₁ m₂, R src = m₁ ++ m₂ ∧
    s.srcIt = m₂.headD src ∧ (m₁.map h.lenOf).sum + s.srcOffset = s.inserted ∧
    (s.srcOffset = 0 ∨ s.srcOffset < h.lenOf s.srcIt)
  inside : K → s.len ≠ 0 → Start s.srcOffset ∧
    (s.srcOffset = 0 ∨ s.srcOffset < g.lenOf s.srcIt)

section Loop

variable {Start : Nat → Prop} {K : Prop} {offset len : Nat} {s s' : TransferLoop}
  {alg : TransferAlgorithm} {pageSize : Nat}

/-- A round after which the iterator stays stands inside its page again. -/
theorem TransferAt.stays_inside (law : CutLaw alg Start)
    (hK : K → HeadKept alg pageSize b src it offset len h R)
    (t : TransferAt G Start K b src it offset len h R s g R') (ft : Footing g R' [])
    (hcut : CutAt it s.offset g h') (hs : s.srcIt ∈ R' src) (hit : it ∈ b :: R' b)
    (hb : (g.buffers b).isSome) (hl : s.len ≠ 0) (hfilled : 0 < g.lenOf s.srcIt)
    (hn : n = alg.cut pageSize (g.lenOf s.srcIt) s.srcOffset s.len)
    (halways : alg.always = false) (hlast : s.srcOffset + n ≠ h'.lenOf s.srcIt)
    (hl' : s.len - n ≠ 0) (k : K) :
    Start (s.srcOffset + n) ∧ s.srcOffset + n < h'.lenOf s.srcIt := by
  obtain ⟨hstart, hat⟩ := t.inside k hl
  have hlt : s.srcOffset < g.lenOf s.srcIt := by omega
  have hfit : s.srcOffset + alg.cut pageSize (g.lenOf s.srcIt) s.srcOffset s.len ≤
      g.lenOf s.srcIt := law.fits hlt hstart
  rw [← hn] at hfit
  have hlen := hcut s.srcIt (ft.links.ring_fresh hs)
  -- what is left of the page after the round
  have hrest : s.srcOffset + n < h'.lenOf s.srcIt ∧ s.srcOffset + n ≠ g.lenOf s.srcIt := by
    by_cases he : s.srcIt = it
    · rw [if_pos he, ← he] at hlen
      rcases t.first with h0 | ⟨rfl, rfl, rfl⟩
      · rw [h0, Nat.zero_min, Nat.sub_zero] at hlen
        omega
      · -- the split is of the page that is read: the source is the target
        dsimp only at *
        have hitb : it ≠ b := by
          rintro rfl
          rw [he, (ft.sentinel hb).2] at hfilled
          omega
        have hsb : src = b := ft.links.disj hs (he ▸ (List.mem_cons.mp hit).resolve_left hitb)
        subst hsb
        have hkept := hK k rfl hitb he.symm
        rw [← he, ← hn, halways] at hkept
        rw [he] at hlen hfit hlast ⊢
        rcases hkept with hf | hle | hle
        · cases hf
        · omega
        · rw [he] at hle
          omega
    · rw [if_neg he] at hlen
      omega
  refine ⟨?_, hrest.1⟩
  rw [hn]
  exact law.next hlt hstart (by rw [← hn]; exact hrest.2) (by rw [← hn]; exact hl')

/-- The next loop state stands where it should. -/
theorem TransferAt.next (law : CutLaw alg Start)
    (hK : K → HeadKept alg pageSize b src it offset len h R)
    (t : TransferAt G Start K b src it offset len h R s g R') (ft : Footing g R' [])
    (hb : (g.buffers b).isSome)
    {R'' : Nat → List Nat} {j₁ j₂ : List Nat} (hsteps : PageSteps G ⟨g, R', []⟩ ⟨h', R'', []⟩)
    (hit : it ∈ b :: R'' b) (hcut : CutAt it s.offset g h') (he : Elsewhere b g h' R' R'')
    (hsp : R' src = m₁ ++ s.srcIt :: m₂) (hj : R'' src = j₁ ++ s.srcIt :: j₂)
    (hjm : src ≠ b → j₁ = m₁ ∧ j₂ = m₂) (hl : s.len ≠ 0) (hfilled : 0 < g.lenOf s.srcIt)
    (hn : n = alg.cut pageSize (g.lenOf s.srcIt) s.srcOffset s.len) (hle : n ≤ s.len)
    (hnd : (R src).Nodup) (hsrcR : src ∉ R src)
    (hs' : (s' = ⟨0, s.len - n, s.inserted + n, j₂.headD src, 0⟩ ∧
        (alg.always = true ∨ s.srcOffset + n = h'.lenOf s.srcIt)) ∨
      (s' = ⟨0, s.len - n, s.inserted + n, s.srcIt, s.srcOffset + n⟩ ∧
        alg.always = false ∧ s.srcOffset + n ≠ h'.lenOf s.srcIt)) :
    TransferAt G Start K b src it offset len h R s' h' R'' := by
  have hsum := t.sum
  have hoff := t.srcOffset
  have hbase : PageSteps G ⟨h, R, []⟩ ⟨h', R'', []⟩ := t.steps.trans hsteps
  have helse := t.elsewhere.trans he
  -- where a source of its own is read
  have hread : src ≠ b → Start s.srcOffset ∧ R src = m₁ ++ s.srcIt :: m₂ ∧
      (m₁.map h.lenOf).sum + s.srcOffset = s.inserted ∧ s.srcOffset < h.lenOf s.srcIt ∧
      g.lenOf s.srcIt = h.lenOf s.srcIt ∧ h'.lenOf s.srcIt = h.lenOf s.srcIt := by
    intro hne
    obtain ⟨hR, hlen⟩ := t.elsewhere src hne
    obtain ⟨hR', hlen'⟩ := helse src hne
    rw [hR] at hsp
    have hmem : s.srcIt ∈ R src := mem_cut hsp
    obtain ⟨hstart, k₁, k₂, hk, hhead, hat, hlt⟩ := t.reading hne hl
    have hk₂ : k₂ ≠ [] := by
      rintro rfl
      rw [hhead] at hmem
      exact hsrcR hmem
    obtain ⟨k, rfl⟩ := exists_cons_of_headD hhead hk₂
    rw [hk] at hnd
    obtain ⟨hnk₁, hnk₂⟩ := notMem_of_nodup_cut hnd
    obtain ⟨rfl, -, rfl⟩ :=
      (List.append_cons_inj_of_notMem hnk₁ hnk₂).mp (hk.symm.trans hsp)
    refine ⟨hstart, hsp, hat, ?_, hlen _ hmem, hlen' _ hmem⟩
    rw [hlen _ hmem] at hfilled
    omega
  rcases hs' with ⟨rfl, hlast⟩ | ⟨rfl, halways, hlast⟩
  · refine ⟨hbase, .inl rfl, helse, hit, by dsimp only; omega, Nat.zero_le _, ?_, .inl rfl, ?_,
      fun _ _ => ⟨law.zero, .inl rfl⟩⟩
    · rw [hj]
      refine List.cons_subset_cons src ?_ (headD_mem src j₂)
      exact fun q hq => by simp [hq]
    · intro hne hl'
      obtain ⟨rfl, rfl⟩ := hjm hne
      obtain ⟨hstart, hR, hat, hlt, hlen, hlen'⟩ := hread hne
      rw [hlen] at hn
      have hpage : s.srcOffset + n = h.lenOf s.srcIt := by
        rcases hlast with ha | he'
        · rw [hn]
          exact law.whole hlt hstart ha (by rw [← hn]; exact hl')
        · rw [he', hlen']
      refine ⟨law.zero, j₁ ++ [s.srcIt], j₂, by simp [hR], rfl, ?_, .inl rfl⟩
      simp only [List.map_append, List.map_cons, List.map_nil, List.sum_append, List.sum_cons,
        List.sum_nil]
      omega
  · refine ⟨hbase, .inl rfl, helse, hit, by dsimp only; omega, by dsimp only; omega, ?_,
      .inr hlast, ?_, ?_⟩
    · rw [hj]
      exact List.mem_cons_of_mem src List.mem_append_cons_self
    · intro hne hl'
      obtain ⟨hstart, hR, hat, hlt, hlen, hlen'⟩ := hread hne
      rw [hlen] at hn
      rw [hlen'] at hlast
      have hfit : s.srcOffset + alg.cut pageSize (h.lenOf s.srcIt) s.srcOffset s.len ≤
          h.lenOf s.srcIt := law.fits hlt hstart
      rw [← hn] at hfit
      refine ⟨?_, m₁, s.srcIt :: m₂, hR, rfl, by dsimp only; omega, .inr ?_⟩
      · dsimp only
        rw [hn]
        exact law.next hlt hstart (by rw [← hn]; exact hlast) (by rw [← hn]; exact hl')
      · dsimp only
        omega
    · intro k hl'
      have hmem : s.srcIt ∈ R' src := hsp ▸ mem_cut rfl
      obtain ⟨hstart, hlt⟩ := t.stays_inside law hK ft hcut hmem t.place hb hl hfilled hn
        halways hlast hl' k
      exact ⟨hstart, .inr hlt⟩

section Rounds

variable {B : Buffer} (law : CutLaw (transferAlgorithm env b B.strategy) Start)
  (ft : Footing h R []) (hB : h.buffers b = some B) (hop : B.operations = .trivial)
  (hsrc : h.IsTrivial src) (hlen : len < 2 ^ 64)
  (hK : K → HeadKept (transferAlgorithm env b B.strategy) B.strategy.pageSize b src it offset len h
    R)

include law ft hB hop hsrc hlen hK

omit hB hop hsrc hK in
/-- The page of a round that is allowed. -/
theorem TransferAt.makes {pageSize : Nat}
    (t : TransferAt G Start K b src it offset len h R s g R') (hl : s.len ≠ 0)
    (hs : s.srcIt ∈ R' src) (ok : RoundAllowed G B.strategy it g s n)
    (hn : n = (transferAlgorithm env b B.strategy).cut pageSize (g.lenOf s.srcIt) s.srcOffset
      s.len) :
    0 < n ∧ n ≤ s.len ∧ MakesNew G
      ((transferAlgorithm env b B.strategy).make s.srcIt n s.srcOffset) g R' [] n
      (sharedBy B.strategy g s.srcIt) := by
  have ft' : Footing g R' [] := t.steps.footing ft
  have hne' : s.srcOffset ≠ g.lenOf s.srcIt := by
    have := ok.filled
    rcases t.notEnd with h0 | hne'
    · omega
    · exact hne'
  have hsum := t.sum
  have hoff := t.srcOffset
  have hbounds : 0 < n ∧ n ≤ s.len := by
    rw [hn]
    exact law.bounds ok.filled (Nat.pos_of_ne_zero hl) hne' (by omega)
  exact ⟨hbounds.1, hbounds.2, transferAlgorithm_makesNew ft'.links hbounds.1 s.srcOffset
    (Nat.ne_of_lt (ft'.links.ring_fresh hs)) ok.share⟩

/-- A round that is allowed. No page gets longer than what it cuts. -/
theorem TransferAt.round (t : TransferAt G Start K b src it offset len h R s g R')
    (ok : s.len ≠ 0 → s.srcIt ∈ R' src → RoundAllowed G B.strategy it g s
      ((transferAlgorithm env b B.strategy).cut B.strategy.pageSize (g.lenOf s.srcIt) s.srcOffset
        s.len)) :
    Returns (insertBufferRound env (transferAlgorithm env b B.strategy) b it src s) g
      (fun r g' => ∃ R'', PageSteps G ⟨g, R', []⟩ ⟨g', R'', []⟩ ∧
        InsertsUpTo b ((transferAlgorithm env b B.strategy).cut B.strategy.pageSize
          (g.lenOf s.srcIt) s.srcOffset s.len) g g' R' R'' ∧
        match r with
        | .inl s' => TransferAt G Start K b src it offset len h R s' g' R''
        | .inr _ => True) := by
  have ft' : Footing g R' [] := t.steps.footing ft
  have hsrc' := t.steps.trivial_of hsrc
  by_cases hz : s.len = 0 ∨ s.srcIt = src
  · unfold insertBufferRound bufferIsEndIterator trivialBufferIsEndIterator
    rw [if_pos (by simpa using hz)]
    exact Returns.pure ⟨R', .refl, ⟨NoLonger.refl b _ g R', fun _ _ => rfl⟩, True.intro⟩
  · rw [not_or] at hz
    obtain ⟨hl, hne⟩ := hz
    have hspR : s.srcIt ∈ R' src := (List.mem_cons.mp t.srcIt).resolve_left hne
    obtain ⟨m₁, m₂, hsp⟩ := List.append_of_mem hspR
    have ok := ok hl hspR
    -- the buffer has kept its strategy
    obtain ⟨B', hB', hσ, hop'⟩ := buffer_of_kind t.steps.kind hB
    rw [hop] at hop'
    obtain ⟨hpos, hle, hmake⟩ := t.makes law ft hlen hl hspR ok rfl
    refine (returns_insertBufferRound ft' hB' hop' hsrc' t.place hsp hl (by rw [hσ]) hpos hmake
      ok.split).mono ?_
    intro r g' hr
    obtain ⟨R'', hsteps, hup, hr'⟩ := hr
    refine ⟨R'', hsteps, hup, ?_⟩
    cases r with
    | inr k => trivial
    | inl s' =>
        obtain ⟨hit', hcut, he, j₁, j₂, hj, hjm, hs'⟩ := hr'
        exact t.next law hK ft' (by rw [hB']; rfl) hsteps hit' hcut he hsp hj hjm hl
          ok.filled rfl hle (ft.links.nodup hsrc.isSome) (ft.links.notMem_self hsrc.isSome) hs'

omit ft hB hop hsrc hlen hK in
/-- The transfer before its first round. -/
theorem TransferAt.start (hit : it ∈ b :: R b) (offset len : Nat) :
    TransferAt G Start K b src it offset len h R ⟨offset, len, 0, (R src).headD src, 0⟩ h R where
  steps := .refl
  first := .inr ⟨rfl, rfl, rfl⟩
  elsewhere := Elsewhere.refl b h R
  place := hit
  sum := Nat.zero_add len
  srcOffset := Nat.le_refl 0
  srcIt := headD_mem src (R src)
  notEnd := .inl rfl
  reading := fun _ _ => ⟨law.zero, [], R src, rfl, rfl, rfl, .inl rfl⟩
  inside := fun _ _ => ⟨law.zero, .inl rfl⟩

/-- **The transfer loop**, where every round it comes to is allowed. -/
theorem returns_insertBufferLoop (hit : it ∈ b :: R b)
    (hround : ∀ s g R', TransferAt G Start K b src it offset len h R s g R' →
      LoopReaches (insertBufferRound env (transferAlgorithm env b B.strategy) b it src)
        (⟨offset, len, 0, (R src).headD src, 0⟩, h) (s, g) →
      s.len ≠ 0 → s.srcIt ∈ R' src → RoundAllowed G B.strategy it g s
        ((transferAlgorithm env b B.strategy).cut B.strategy.pageSize (g.lenOf s.srcIt)
          s.srcOffset s.len)) :
    Returns (insertBufferLoop env (transferAlgorithm env b B.strategy) b it offset src len) h
      (fun _ h' => Steps G h R h') := by
  unfold insertBufferLoop
  refine Returns.step (bufferGetIterator_run hsrc ft.links) ?_
  refine Returns.loop_from
    (I := fun s g => ∃ R', TransferAt G Start K b src it offset len h R s g R') ?_
    ⟨R, .start law hit offset len⟩
  intro s g hreach hI
  obtain ⟨R', t⟩ := hI
  refine (t.round law ft hB hop hsrc hlen hK (hround s g R' t hreach)).mono ?_
  intro r g' hr
  obtain ⟨R'', hsteps, -, hr'⟩ := hr
  cases r with
  | inl s' => exact ⟨R'', hr'⟩
  | inr k => exact ⟨R'', t.steps.trans hsteps⟩

end Rounds

end Loop

end Pb
