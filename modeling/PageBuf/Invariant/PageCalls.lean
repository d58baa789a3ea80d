import PageBuf.Invariant.PageRuns

/-!
# PageCalls — calls as sequences of steps, and runs of calls

What a call does to the pages when the page it names is linked, whatever the
offset and whatever the counters: it takes steps, or makes a buffer, or clears
one and frees it. An invariant that steps, creation and freeing keep holds in
every state that clients bring about.
-/

namespace Pb

open StateRun Function Ring RefCount Relation

variable {env : Env} {h h' h₁ : Heap} {R R' : Nat → List Nat} {b src it off len : Nat}
  {G : Allowance}

/-- The buffer takes no insertions but at its end. -/
def Heap.RejectsInsert (h : Heap) (b : Nat) : Prop :=
  ∃ B, h.buffers b = some B ∧ B.strategy.rejectsInsert = true

/-- The buffer takes no writes. -/
def Heap.RejectsWrite (h : Heap) (b : Nat) : Prop :=
  ∃ B, h.buffers b = some B ∧ B.strategy.rejectsWrite = true

/-- The test of the insertions before they go ahead. -/
theorem accepts_insert {B : Buffer} (hB : h.buffers b = some B)
    (hrej : ¬(!decide (it = b) && B.strategy.rejectsInsert) = true) :
    it ≠ b → ¬h.RejectsInsert b := by
  rintro hne ⟨B', hB', hr⟩
  rw [hB] at hB'
  cases hB'
  simp [hne, hr] at hrej

theorem accepts_write {B : Buffer} (hB : h.buffers b = some B)
    (hrej : ¬B.strategy.rejectsWrite = true) : ¬h.RejectsWrite b := by
  rintro ⟨B', hB', hr⟩
  rw [hB] at hB'
  cases hB'
  exact hrej hr

/-! ## Insertions -/

section Insertions

variable (ft : Footing h R []) (ht : h.IsTrivial b)

include ft ht

/-- Insertion at a place that does not move. -/
theorem returns_insertPages_at {make : Nat → Nat → PbM (Option Nat)} (hit : it ∈ b :: R b)
    (hmake : ∀ g R' i n, Links g R' [] → 0 < n → MakesNew G (make i n) g R' [] n none)
    (hg : len ≠ 0 → MaySplit G h it off none) :
    Returns (insertPages env b (pure it) make off len) h (fun _ h' => Limited G h R h') := by
  refine returns_insertPages ft ht (fun g R' _ _ hsub => ?_) hmake ?_
  · exact ⟨it, rfl, List.cons_subset_cons b hsub hit⟩
  · intro hlen it' hrun
    cases hrun
    exact hg hlen

theorem returns_trivialBufferInsertData (hit : it ∈ b :: R b) (buf : List UInt8)
    (hg : buf ≠ [] → (it ≠ b → ¬h.RejectsInsert b) →
      MaySplit G h it off none) :
    Returns (trivialBufferInsertData env b it off buf) h (fun _ h' => Limited G h R h') := by
  unfold trivialBufferInsertData bufferIsEndIterator trivialBufferIsEndIterator
  refine returns_getBuffer fun B hB => ?_
  split
  · exact Returns.pure .refl
  · next hrej =>
      refine returns_insertPages_at ft ht hit (fun g R' i n hl hn => makesNew_data hl hn buf i) ?_
      intro hlen
      exact hg (by rintro rfl; exact hlen rfl) (accepts_insert hB hrej)

theorem returns_trivialBufferInsertDataRef (hit : it ∈ b :: R b) (buf : Ptr)
    (hg : len ≠ 0 → (it ≠ b → ¬h.RejectsInsert b) →
      MaySplit G h it off none) :
    Returns (trivialBufferInsertDataRef env b it off buf len) h (fun _ h' => Limited G h R h') := by
  unfold trivialBufferInsertDataRef bufferIsEndIterator trivialBufferIsEndIterator
  refine returns_getBuffer fun B hB => ?_
  split
  · exact Returns.pure .refl
  · next hrej =>
      refine returns_insertPages_at ft ht hit (fun g R' i n hl hn => makesNew_createRef hl hn) ?_
      intro hlen
      exact hg hlen (accepts_insert hB hrej)

theorem returns_trivialBufferWriteData (buf : List UInt8) :
    Returns (trivialBufferWriteData env b buf) h (fun _ h' => Limited G h R h') := by
  unfold trivialBufferWriteData
  refine returns_getBuffer fun B _ => ?_
  split
  · exact Returns.pure .refl
  · refine Returns.pure_bind ?_
    exact returns_insertPages_at ft ht List.mem_cons_self
      (fun g R' i n hl hn => makesNew_data hl hn buf i) (fun _ => maySplit_zero none)

theorem returns_trivialBufferWriteDataRef (buf : Ptr) (len : Nat) :
    Returns (trivialBufferWriteDataRef env b buf len) h (fun _ h' => Limited G h R h') := by
  unfold trivialBufferWriteDataRef
  refine returns_getBuffer fun B _ => ?_
  split
  · exact Returns.pure .refl
  · refine Returns.pure_bind ?_
    exact returns_insertPages_at ft ht List.mem_cons_self
      (fun g R' i n hl hn => makesNew_createRef hl hn) (fun _ => maySplit_zero none)

theorem returns_trivialBufferExtend (len : Nat) :
    Returns (trivialBufferExtend env b len) h (fun _ h' => Limited G h R h') := by
  unfold trivialBufferExtend
  refine returns_getBuffer fun B _ => ?_
  split
  · exact Returns.pure .refl
  · exact returns_insertPages_at ft ht List.mem_cons_self
      (fun g R' _ n hl hn => makesNew_create hl hn) (fun _ => maySplit_zero none)

theorem returns_trivialBufferReserve (size : Nat) :
    Returns (trivialBufferReserve env b size) h (fun _ h' => Limited G h R h') := by
  unfold trivialBufferReserve
  refine returns_getBuffer fun B _ => ?_
  split
  · exact Returns.pure .refl
  · refine Returns.bind (returns_bufferGetDataSize ht) ?_
    intro k _ he
    cases he
    split
    · exact Returns.pure .refl
    · exact returns_trivialBufferExtend ft ht (size - k)

theorem returns_trivialBufferRewind (len : Nat) :
    Returns (trivialBufferRewind env b len) h (fun _ h' => Limited G h R h') := by
  unfold trivialBufferRewind
  refine returns_getBuffer fun B _ => ?_
  split
  · exact Returns.pure .refl
  · refine returns_insertPages ft ht (fun g R' hl' ht' _ => ?_)
      (fun g R' _ n hl hn => makesNew_create hl hn) (fun _ _ _ => maySplit_zero none)
    exact ⟨_, bufferGetIterator_run ht' hl', headD_mem b (R' b)⟩

end Insertions

/-! ## Transfers -/

/-- Every round that a transfer comes to is allowed. -/
def TransferAllowed (env : Env) (G : Allowance) (h : Heap) (R : Nat → List Nat)
    (b it off src len : Nat) : Prop :=
  ∀ B Start s g R', h.buffers b = some B →
    CutLaw (transferAlgorithm env b B.strategy) Start →
    TransferAt G Start (HeadKept (transferAlgorithm env b B.strategy) B.strategy.pageSize b src it
      off len h R) b src it off len h R s g R' →
    LoopReaches (insertBufferRound env (transferAlgorithm env b B.strategy) b it src)
      (⟨off, len, 0, (R src).headD src, 0⟩, h) (s, g) →
    s.len ≠ 0 → s.srcIt ∈ R' src → RoundAllowed G B.strategy it g s
      ((transferAlgorithm env b B.strategy).cut B.strategy.pageSize (g.lenOf s.srcIt) s.srcOffset
        s.len)

section Transfers

variable (ft : Footing h R []) (ht : h.IsTrivial b) (hsrc : h.IsTrivial src) (hlen : len < 2 ^ 64)

include ft ht hsrc hlen

theorem returns_trivialBufferInsertBuffer (hit : it ∈ b :: R b)
    (ha : (it ≠ b → ¬h.RejectsInsert b) →
      TransferAllowed env G h R b it off src len) :
    Returns (trivialBufferInsertBuffer env b it off src len) h (fun _ h' => Steps G h R h') := by
  unfold trivialBufferInsertBuffer bufferIsEndIterator trivialBufferIsEndIterator
  refine returns_getBuffer fun B hB => ?_
  split
  · exact Returns.pure ⟨R, .refl⟩
  · next hrej =>
      obtain ⟨Start, law⟩ := transferAlgorithm_law env b B.strategy
      have ha' := ha (accepts_insert hB hrej)
      exact returns_insertBufferLoop law ft hB (ht.allocator hB) hsrc hlen id hit
        (fun s g R' t hr hl hs => ha' B Start s g R' hB law t hr hl hs)

theorem returns_trivialBufferWriteBuffer
    (ha : ¬h.RejectsWrite b →
      TransferAllowed env G h R b b 0 src len) :
    Returns (trivialBufferWriteBuffer env b src len) h (fun _ h' => Steps G h R h') := by
  unfold trivialBufferWriteBuffer
  refine returns_getBuffer fun B hB => ?_
  split
  · exact Returns.pure ⟨R, .refl⟩
  · next hrej =>
      refine Returns.pure_bind ?_
      obtain ⟨Start, law⟩ := transferAlgorithm_law env b B.strategy
      have ha' := ha (accepts_write hB hrej)
      exact returns_insertBufferLoop law ft hB (ht.allocator hB) hsrc hlen id List.mem_cons_self
        (fun s g R' t hr hl hs => ha' B Start s g R' hB law t hr hl hs)

end Transfers

/-! ## Overwriting with a buffer -/

theorem returns_stepWhenFull (hl : Links h R []) (ht : h.IsTrivial b) (hit : it ∈ R b) :
    Returns (stepWhenFull env b it off) h (fun r h' => h = h' ∧ r.1 ∈ b :: R b) := by
  obtain ⟨l₁, l₂, hR⟩ := List.append_of_mem hit
  unfold stepWhenFull
  refine returns_pageGetLen fun _ => ?_
  split
  · refine Returns.step (bufferNextIterator_run ht hl hR) (Returns.pure ⟨rfl, ?_⟩)
    rw [hR]
    refine List.cons_subset_cons b ?_ (headD_mem b l₂)
    exact fun q hq => by simp [hq]
  · exact Returns.pure ⟨rfl, List.mem_cons_of_mem b hit⟩

theorem returns_overwriteBufferRound {s : OverwriteBufferLoop} (hl : Links h R [])
    (ht : h.IsTrivial b) (hsrc : h.IsTrivial src) (hit : s.it ∈ b :: R b)
    (hsit : s.srcIt ∈ src :: R src) :
    Returns (overwriteBufferRound env b src s) h (fun r h' =>
      PageSteps G ⟨h, R, []⟩ ⟨h', R, []⟩ ∧
      match r with
      | .inl s' => s'.it ∈ b :: R b ∧ s'.srcIt ∈ src :: R src
      | .inr _ => True) := by
  unfold overwriteBufferRound bufferIsEndIterator trivialBufferIsEndIterator
  split
  · exact Returns.pure ⟨.refl, True.intro⟩
  · next hcond =>
      have hne : s.it ≠ b := by
        intro he
        simp [he] at hcond
      have hsne : s.srcIt ≠ src := by
        intro he
        simp [he] at hcond
      have hpR := (List.mem_cons.mp hit).resolve_left hne
      have hspR := (List.mem_cons.mp hsit).resolve_left hsne
      refine Returns.bind (returns_ensureWritable (G := G) hl ht hpR) ?_
      intro r h₁ hstep
      cases r with
      | false => exact Returns.pure ⟨hstep.steps, True.intro⟩
      | true =>
          refine returns_pageGetLen fun _ => returns_pageGetLen fun _ => ?_
          dsimp only
          generalize overwriteLen (h₁.lenOf s.it) (h₁.lenOf s.srcIt) s.len = n
          by_cases hz : n = 0
          · rw [if_pos hz]
            exact Returns.pure ⟨hstep.steps, True.intro⟩
          · rw [if_neg hz]
            refine returns_pageGetBase fun q => Returns.bind (returns_memRead _ n h₁) ?_
            intro bs h₂ s₂
            have hstep₂ : PageStep G ⟨h₁, R, []⟩ ⟨h₂, R, []⟩ := s₂.step hstep.links
            refine returns_pageGetBase fun q' => Returns.bind (returns_memWrite _ bs h₂) ?_
            intro u h₃ s₃
            have hstep₃ : PageStep G ⟨h₂, R, []⟩ ⟨h₃, R, []⟩ := s₃.step hstep₂.links
            have hsteps := (hstep.steps.step hstep₂).step hstep₃
            have hl₃ := hstep₃.links
            refine Returns.bind (returns_stepWhenFull hl₃ (hsteps.trivial_of ht) hpR) ?_
            rintro ⟨it', off'⟩ _ ⟨he, hit'⟩
            cases he
            refine Returns.bind (returns_stepWhenFull hl₃ (hsteps.trivial_of hsrc) hspR) ?_
            rintro ⟨sit', soff'⟩ _ ⟨he, hsit'⟩
            cases he
            exact Returns.pure ⟨hsteps, hit', hsit'⟩

theorem returns_trivialBufferOverwriteBuffer (hl : Links h R []) (ht : h.IsTrivial b)
    (hsrc : h.IsTrivial src) (len : Nat) :
    Returns (trivialBufferOverwriteBuffer env b src len) h (fun _ h' => Sheds G h R h') := by
  unfold trivialBufferOverwriteBuffer
  refine returns_getBuffer fun B _ => ?_
  split
  · exact Returns.pure ⟨R, .refl, fun _ => List.Subset.refl _⟩
  · refine Returns.step (bufferGetIterator_run ht hl) ?_
    refine Returns.step (bufferGetIterator_run hsrc hl) ?_
    refine Returns.bind (P := fun _ h' => PageSteps G ⟨h, R, []⟩ ⟨h', R, []⟩) ?_ ?_
    · refine Returns.loop (I := fun s h' => PageSteps G ⟨h, R, []⟩ ⟨h', R, []⟩ ∧
        s.it ∈ b :: R b ∧ s.srcIt ∈ src :: R src) ?_ _ _ _
        ⟨.refl, headD_mem b (R b), headD_mem src (R src)⟩
      intro s h₁ hI
      obtain ⟨hsteps, hit, hsit⟩ := hI
      have hl₁ := hsteps.links hl
      refine (returns_overwriteBufferRound (G := G) hl₁ (hsteps.trivial_of ht)
        (hsteps.trivial_of hsrc) hit hsit).mono ?_
      intro r h₂ hr
      obtain ⟨hsteps', hr'⟩ := hr
      cases r with
      | inl s' => exact ⟨hsteps.trans hsteps', hr'⟩
      | inr k => exact hsteps.trans hsteps'
    · intro k h₁ hsteps
      refine Returns.bind (returns_bumpIfPositive (G := G) (hsteps.links hl) k) ?_
      intro u h₂ hstep
      exact Returns.pure ⟨R, hsteps.step hstep, fun _ => List.Subset.refl _⟩

/-! ## Calls -/

/-- What a call of a client does: steps, a new buffer, or the end of one. -/
inductive CallEffect (G : Allowance) (h : Heap) (R : Nat → List Nat) : Heap → Prop where
  | steps {h' : Heap} {R' : Nat → List Nat} (s : PageSteps G ⟨h, R, []⟩ ⟨h', R', []⟩) :
      CallEffect G h R h'
  | created {h' : Heap} {b : Nat} {strategy : Strategy} (ab : AddBuffer h h' b strategy) :
      CallEffect G h R h'
  | destroyed {h₁ : Heap} {R' : Nat → List Nat} {b : Nat}
      (s : PageSteps G ⟨h, R, []⟩ ⟨h₁, R', []⟩) (ht : h₁.IsTrivial b) (hR : R' b = []) :
      CallEffect G h R (h₁.freed b)

theorem Steps.effect (s : Steps G h R h') : CallEffect G h R h' := by
  obtain ⟨R', s⟩ := s
  exact .steps s

theorem Sheds.effect (s : Sheds G h R h') : CallEffect G h R h' := s.steps.effect

theorem returns_trivialBufferCreate (hl : Links h R []) (strategy : Strategy) :
    Returns (trivialBufferCreate env strategy) h (fun _ h' => CallEffect G h R h') := by
  refine (trivialBufferCreate_run env h strategy).returns.mono ?_
  intro r h' hr
  cases r with
  | none =>
      obtain ⟨-, hi, -, -⟩ := hr
      have s : Still h h' h.datas := ⟨hi.pages, hi.datas, hi.kind, hi.next⟩
      exact .steps (s.step hl).steps
  | some b => exact .created hr

theorem returns_trivialBufferDestroy (hl : Links h R []) (ht : h.IsTrivial b) :
    Returns (trivialBufferDestroy env b) h (fun _ h' => CallEffect G h R h') := by
  unfold trivialBufferDestroy
  refine Returns.bind (returns_trivialBufferClear (G := G) hl ht) ?_
  intro u h₁ hclear
  obtain ⟨R', hsteps, -, hR⟩ := hclear
  have ht₁ := hsteps.trivial_of ht
  exact Returns.of_run (freeBuffer_run ht₁.isSome) (.destroyed hsteps ht₁ hR)

/-- What the insertions among the actions ask for. -/
def Action.Allowed (env : Env) (G : Allowance) (h : Heap) (R : Nat → List Nat) : Action → Prop
  | .op (.insertData b it off buf) => buf ≠ [] →
      (it ≠ b → ¬h.RejectsInsert b) →
      MaySplit G h it off none
  | .op (.insertDataRef b it off _ len) => len ≠ 0 →
      (it ≠ b → ¬h.RejectsInsert b) →
      MaySplit G h it off none
  | .op (.insertBuffer b it off src len) =>
      (it ≠ b → ¬h.RejectsInsert b) →
      TransferAllowed env G h R b it off src len
  | .op (.writeBuffer b src len) =>
      ¬h.RejectsWrite b →
      TransferAllowed env G h R b b 0 src len
  | _ => True

theorem Links.isPlaceOf (hl : Links h R []) (ht : h.IsTrivial b) (hp : h.IsPlaceOf b it) :
    it ∈ b :: R b := by
  rw [Heap.IsPlaceOf, hl.pagesOf ht.isSome] at hp
  exact List.mem_cons.mpr hp

/-- **Every action** whose insertions are allowed. -/
theorem returns_perform {a : Action} (ft : Footing h R []) (hn : a.Names h)
    (ha : a.Allowed env G h R) :
    Returns (perform env a) h (fun _ h' => CallEffect G h R h') := by
  have hl := ft.links
  -- the answer of an operation is wrapped, its effect is that of the operation
  have wrap : ∀ {α : Type} {m : PbM α} {f : α → Ret},
      Returns m h (fun _ h' => CallEffect G h R h') →
      Returns (do let x ← m; pure (f x)) h (fun _ h' => CallEffect G h R h') :=
    fun hm => Returns.bind hm fun _ _ he => Returns.pure he
  have steps : ∀ {α : Type} {m : PbM α} {f : α → Ret},
      Returns m h (fun _ h' => Steps G h R h') →
      Returns (do let x ← m; pure (f x)) h (fun _ h' => CallEffect G h R h') :=
    fun hm => wrap (hm.mono fun _ _ s => s.effect)
  have limited : ∀ {α : Type} {m : PbM α} {f : α → Ret},
      Returns m h (fun _ h' => Limited G h R h') →
      Returns (do let x ← m; pure (f x)) h (fun _ h' => CallEffect G h R h') :=
    fun hm => wrap (hm.mono fun _ _ s => s.steps.effect)
  have sheds : ∀ {α : Type} {m : PbM α} {f : α → Ret},
      Returns m h (fun _ h' => Sheds G h R h') →
      Returns (do let x ← m; pure (f x)) h (fun _ h' => CallEffect G h R h') :=
    fun hm => wrap (hm.mono fun _ _ s => s.effect)
  cases a with
  | overwriteBuffer b src len =>
      obtain ⟨ht, hsrc, -⟩ := hn
      exact sheds (returns_trivialBufferOverwriteBuffer hl ht hsrc len)
  | op o =>
      cases o with
      | create strategy => exact wrap (returns_trivialBufferCreate hl strategy)
      | destroy b => exact wrap (returns_trivialBufferDestroy hl hn)
      | writeData b buf => exact limited (returns_trivialBufferWriteData ft hn buf)
      | writeDataRef b buf len => exact limited (returns_trivialBufferWriteDataRef ft hn buf len)
      | writeBuffer b src len =>
          obtain ⟨ht, hsrc, hlen⟩ := hn
          exact steps (returns_trivialBufferWriteBuffer ft ht hsrc hlen ha)
      | insertData b it off buf =>
          obtain ⟨ht, hp⟩ := hn
          exact limited (returns_trivialBufferInsertData ft ht (hl.isPlaceOf ht hp) buf ha)
      | insertDataRef b it off buf len =>
          obtain ⟨ht, hp⟩ := hn
          exact limited (returns_trivialBufferInsertDataRef ft ht (hl.isPlaceOf ht hp) buf ha)
      | insertBuffer b it off src len =>
          obtain ⟨ht, hp, hsrc, hlen⟩ := hn
          exact steps (returns_trivialBufferInsertBuffer ft ht hsrc hlen (hl.isPlaceOf ht hp) ha)
      | extend b len => exact limited (returns_trivialBufferExtend ft hn len)
      | reserve b size => exact limited (returns_trivialBufferReserve ft hn size)
      | rewind b len => exact limited (returns_trivialBufferRewind ft hn len)
      | seek b len => exact sheds (returns_trivialBufferSeek hl hn len)
      | trim b len => exact sheds (returns_trivialBufferTrim hl hn len)
      | overwriteData b buf => exact sheds (returns_trivialBufferOverwriteData hl hn buf)
      | readData b len => exact sheds (returns_trivialBufferReadData hl hn len)
      | clear b =>
          refine wrap ((returns_trivialBufferClear (G := G) hl hn).mono ?_)
          rintro _ h' ⟨R', hsteps, -, -⟩
          exact .steps hsteps

/-! ## Runs -/

/-- Creating and freeing an empty buffer leaves the pages as they were. -/
structure SameView (h h' : Heap) : Prop where
  len : h'.lenOf = h.lenOf
  data : h'.dataOf = h.dataOf
  uses : h'.usesOf = h.usesOf
  vec : ∀ p, (h.dataOf p).isSome → h'.vecOf p = h.vecOf p
  bounds : h'.boundsOf = h.boundsOf
  next : h.next ≤ h'.next

theorem AddBuffer.sameView {strategy : Strategy} (ab : AddBuffer h h' b strategy)
    (hl : Links h R []) : SameView h h' where
  len := by
    funext p
    rw [Heap.lenOf, ab.vecOf]
    rcases eq_or_ne p b with rfl | hne
    · rw [update_self, Heap.lenOf, Heap.vecOf, ab.page_none hl]
      rfl
    · rw [update_of_ne hne]
      rfl
  data := ab.dataOf hl
  uses := by
    obtain ⟨n, c, rfl⟩ := ab.rest
    rfl
  vec := fun p hp => by
    rw [ab.vecOf]
    refine update_of_ne ?_ _ _
    rintro rfl
    rw [Heap.dataOf_of_none (ab.page_none hl)] at hp
    cases hp
  bounds := by
    obtain ⟨n, c, rfl⟩ := ab.rest
    rfl
  next := ab.le

theorem Footing.sameView_freed (ft : Footing h R []) (hb : (h.buffers b).isSome) :
    SameView h (h.freed b) where
  len := by
    funext p
    rcases eq_or_ne p b with rfl | hne
    · rw [(ft.sentinel hb).2, Heap.lenOf, Heap.freed, Heap.vecOf_setPage, update_self]
      rfl
    · rw [Heap.lenOf, vecOf_freed hne]
      rfl
  data := dataOf_freed (ft.sentinel hb).1
  uses := rfl
  vec := fun p hp => by
    refine vecOf_freed ?_
    rintro rfl
    rw [(ft.sentinel hb).1] at hp
    cases hp
  bounds := rfl
  next := Nat.le_refl _

/-- The footing needs nothing but the rings where pages stay as they were. -/
theorem Footing.sameView (ft : Footing h R []) (v : SameView h h') (hl : Links h' R [])
    (hb : ∀ c, (h'.buffers c).isSome → (h.buffers c).isSome ∨ h.next ≤ c) :
    Footing h' R [] where
  links := hl
  sentinel := fun {c} hc => by
    rw [v.data, v.len]
    rcases hb c hc with hold | hnew
    · exact ft.sentinel hold
    · refine ⟨ft.links.dataOf_none hnew, ?_⟩
      have hnone : h.pages c = none := by
        by_contra hn
        have := ft.links.fresh (Option.isSome_iff_ne_none.mpr hn)
        omega
      rw [Heap.lenOf, Heap.vecOf, hnone]
      rfl
  born := fun {p d} hd => by
    rw [v.data] at hd
    exact Nat.lt_of_lt_of_le (ft.born hd) v.next

theorem footing_initial (mem : Region → Nat → UInt8) (callerLen : Nat → Nat)
    (files : Nat → List UInt8) :
    Footing (Heap.initial mem callerLen files) (fun _ => []) [] where
  links := (sound_initial mem callerLen files).inv.core.links
  sentinel := fun hb => by simp [Heap.initial] at hb
  born := fun hd => by simp [Heap.initial, Heap.dataOf] at hd

/-- What has to be shown of an invariant of all runs of clients who keep to
`M`: it holds at first, steps keep it, and it allows what clients do. -/
structure RunInvariant (env : Env) (G : Allowance) (M : Heap → Action → Prop)
    (I : Layout → Prop) : Prop where
  initial : ∀ mem callerLen files, I ⟨Heap.initial mem callerLen files, fun _ => [], []⟩
  step : ∀ c c', Footing c.heap c.rings c.flight → I c → PageStep G c c' → I c'
  view : ∀ h h' R, Footing h R [] → SameView h h' → I ⟨h, R, []⟩ → I ⟨h', R, []⟩
  allowed : ∀ h R a, Footing h R [] → I ⟨h, R, []⟩ → a.Names h → M h a → a.Allowed env G h R

section RunInvariant

variable {M : Heap → Action → Prop} {I : Layout → Prop}

theorem CallEffect.invariant (inv : RunInvariant env G M I) (e : CallEffect G h R h')
    (ft : Footing h R []) (hI : I ⟨h, R, []⟩) : ∃ R', Footing h' R' [] ∧ I ⟨h', R', []⟩ := by
  cases e with
  | @steps _ R' s =>
      have hinv := s.invariant ft hI inv.step
      exact ⟨R', hinv.2, hinv.1⟩
  | @created _ b strategy ab =>
      have v := ab.sameView ft.links
      refine ⟨R, ft.sameView v (ab.links ft.links) ?_, inv.view h h' R ft v hI⟩
      intro c hc
      rw [ab.buffers] at hc
      rcases eq_or_ne c b with rfl | hne
      · exact .inr ab.fresh
      · rw [update_of_ne hne] at hc
        exact .inl hc
  | @destroyed h₁ R' b s ht hR =>
      have hinv := s.invariant ft hI inv.step
      have hl := hinv.2.links.freed ht.isSome hR
      have v := hinv.2.sameView_freed ht.isSome
      refine ⟨R', hinv.2.sameView v hl ?_, inv.view h₁ _ R' hinv.2 v hinv.1⟩
      intro c hc
      left
      by_contra hn
      rcases eq_or_ne c b with rfl | hne
      · exact hn ht.isSome
      · have : (h₁.freed b).buffers c = h₁.buffers c := update_of_ne hne _ _
        rw [this] at hc
        exact hn hc

/-- **Runs**: the invariant holds in every state that clients bring about. -/
theorem ReachableBy.invariant (inv : RunInvariant env G M I) (hr : ReachableBy env M h) :
    ∃ R, Footing h R [] ∧ I ⟨h, R, []⟩ := by
  obtain ⟨mem, callerLen, files, hsteps⟩ := hr
  induction hsteps with
  | refl => exact ⟨_, footing_initial mem callerLen files, inv.initial mem callerLen files⟩
  | tail _ hstep ih =>
      obtain ⟨R, ft, hI⟩ := ih
      obtain ⟨a, r, hn, hM, hrun⟩ := hstep
      have e := returns_perform ft hn (inv.allowed _ R a ft hI hn hM) r _ hrun
      exact e.invariant inv ft hI

end RunInvariant

/-! ## Running actions -/

section Running

variable {M : Heap → Action → Prop}

theorem ReachableBy.step {a : Action} {r : Ret} (hr : ReachableBy env M h) (hn : a.Names h)
    (hM : M h a) (hrun : perform env a h = .ok (r, h')) : ReachableBy env M h' := by
  obtain ⟨mem, callerLen, files, hsteps⟩ := hr
  exact ⟨mem, callerLen, files, hsteps.tail ⟨a, r, hn, hM, hrun⟩⟩

theorem ReachableBy.after {o : Op} (hr : ReachableBy env M h) (hn : (Action.op o).Names h)
    (hM : M h (.op o)) (ha : (h.answer env o).isSome) : ReachableBy env M (h.after env o) := by
  obtain ⟨r, hr'⟩ := Option.isSome_iff_exists.mp ha
  refine hr.step (r := r) hn hM ?_
  unfold Heap.answer at hr'
  unfold Heap.after
  show exec env o h = _
  cases hrun : exec env o h with
  | error f => simp [hrun] at hr'
  | ok q =>
      obtain ⟨r', h'⟩ := q
      rw [hrun] at hr'
      cases hr'
      rfl

theorem reachableBy_twoBuffers (hM : ∀ h σ, M h (.op (.create σ))) (strategy strategy' : Strategy) :
    ReachableBy .generous M (.twoBuffers strategy strategy') := by
  have hblank : ReachableBy .generous M .blank := ⟨_, _, _, .refl⟩
  have hgrants : ∀ k, Env.generous.grants k = true := fun _ => rfl
  have hrun := exec_create_run hgrants
  have hone := hblank.step (a := .op (.create strategy)) trivial (hM _ _) (hrun .blank strategy)
  exact hone.step (a := .op (.create strategy')) trivial (hM _ _) (hrun _ strategy')

end Running

end Pb
