import PageBuf.Client.Dangling
import PageBuf.Client.Wraps

/-!
# PageSizes — how long a page can get

A strategy limits the pages of its buffer. What is written from memory is cut
at the limit; what comes from another buffer only where the target's own
fragmentation is asked for. Where the source's is kept, its pages arrive as long
as they are.
-/

namespace Pb

open StateRun Function Ring Relation

variable {env : Env} {G : Allowance} {h h' g : Heap} {R R' : Nat → List Nat}
  {b src it off len : Nat} {B : Buffer}

/-! ## The limit and the condition -/

namespace Heap

/-- No linked page is longer than the `page_size` of its buffer. -/
def PageLimit (h : Heap) : Prop :=
  ∀ b B, h.buffers b = some B → 0 < B.strategy.pageSize →
    ∀ p ∈ h.pagesOf b, h.lenOf p ≤ B.strategy.pageSize

/-- Where `b` keeps the fragmentation of its sources, what each page of `src`
has of the first `len` bytes fits on a page of `b`. -/
def FitsPages (h : Heap) (b src len : Nat) : Prop :=
  ∀ B, h.buffers b = some B → 0 < B.strategy.pageSize → B.strategy.fragmentAsTarget = false →
    ∀ l₁ p l₂, h.pagesOf src = l₁ ++ p :: l₂ →
      min (h.lenOf p) (len - (h.flat l₁).length) ≤ B.strategy.pageSize

end Heap

/-- A transfer comes to no page without bytes: such a page is copied to one that
is linked and destroyed. -/
def FindsBytes (env : Env) (h : Heap) (b it off src len : Nat) : Prop :=
  (src ≠ b → NoEmptyBefore h src len) ∧
    (src = b → EveryRound (fun _ _ g s => 0 < g.lenOf s.srcIt) env h b it off b len)

/-- A transfer that goes ahead comes to no page without bytes, and fits on the
pages of its target. -/
def TransfersFit (env : Env) (h : Heap) : Action → Prop
  | .op (.insertBuffer b it off src len) =>
      FindsBytes env h b it off src len ∧ h.FitsPages b src len ∨ it ≠ b ∧ h.RejectsInsert b
  | .op (.writeBuffer b src len) =>
      FindsBytes env h b b 0 src len ∧ h.FitsPages b src len ∨ h.RejectsWrite b
  | _ => True

/-! ## Steps -/

/-- **A state within the limits** stays within them. -/
theorem Limited.pageLimit (hl : Links h R []) (s : Limited G h R h') (hlim : h.PageLimit) :
    h'.PageLimit := by
  obtain ⟨R', hsteps, hw⟩ := s
  intro b B' hB' hpos p hp
  have hb' : (h'.buffers b).isSome := by rw [hB']; rfl
  have hb : (h.buffers b).isSome := by rwa [← Heap.buffers_isSome_congr hsteps.kind]
  obtain ⟨B, hB, hσ, -⟩ := buffer_of_kind hsteps.kind.symm hB'
  rw [← hσ] at hpos ⊢
  rw [(hsteps.links hl).pagesOf hb'] at hp
  rcases hw b B hB hpos p hp with hle | ⟨q, hq, hle⟩
  · exact hle
  · refine Nat.le_trans hle (hlim b B hB hpos q ?_)
    rwa [hl.pagesOf hb]

/-- Pages stay as they were, and buffers that are new have none. -/
theorem SameView.pageLimit (v : SameView h h') (hl : Links h R []) (hl' : Links h' R [])
    (hb : ∀ b B, h'.buffers b = some B → h.buffers b = some B ∨ R b = [])
    (hlim : h.PageLimit) : h'.PageLimit := by
  intro b B hB hpos p hp
  rw [hl'.pagesOf (by rw [hB]; rfl)] at hp
  rw [v.len]
  rcases hb b B hB with hold | hnil
  · exact hlim b B hold hpos p (by rwa [hl.pagesOf (by rw [hold]; rfl)])
  · rw [hnil] at hp
    cases hp

theorem AddBuffer.pageLimit {strategy : Strategy} (ab : AddBuffer h h' b strategy)
    (hl : Links h R []) (hlim : h.PageLimit) : h'.PageLimit := by
  refine (ab.sameView hl).pageLimit hl (ab.links hl) ?_ hlim
  intro e B hB
  rw [ab.buffers] at hB
  by_cases he : e = b
  · rw [he]
    exact .inr (hl.dead (ab.buffer_none hl))
  · rw [update_of_ne he] at hB
    exact .inl hB

theorem Footing.pageLimit_freed (ft : Footing h R []) (hb : (h.buffers b).isSome)
    (hR : R b = []) (hlim : h.PageLimit) : (h.freed b).PageLimit := by
  refine (ft.sameView_freed hb).pageLimit ft.links (ft.links.freed hb hR) ?_ hlim
  intro e B hB
  have hB' : update h.buffers b none e = some B := hB
  by_cases he : e = b
  · rw [he]
    exact .inr hR
  · rw [update_of_ne he] at hB'
    exact .inl hB'

/-! ## Transfers -/

section Transfers

variable {Start : Nat → Prop} {K : Prop} {s : TransferLoop}

theorem cutWhole_le {pageSize srcLen off len : Nat} :
    cutWhole pageSize srcLen off len ≤ min srcLen len := by
  unfold cutWhole
  split <;> omega

theorem transferAlgorithm_cut_fragment {strategy : Strategy}
    (hf : strategy.fragmentAsTarget = true) :
    (transferAlgorithm env b strategy).cut = cutFragment := by
  unfold transferAlgorithm
  rw [hf]
  cases strategy.cloneOnWrite <;> rfl

theorem transferAlgorithm_cut_whole {strategy : Strategy}
    (hf : strategy.fragmentAsTarget = false) :
    (transferAlgorithm env b strategy).cut = cutWhole := by
  unfold transferAlgorithm
  rw [hf]
  cases strategy.cloneOnWrite <;> rfl

/-- A round takes no more than fits on a page of the target, or than is on a
page of it already. -/
theorem TransferAt.cut_fits (ft : Footing h R []) (hB : h.buffers b = some B)
    (hsrc : (h.buffers src).isSome) (hfit : h.FitsPages b src len)
    (t : TransferAt G Start K b src it off len h R s g R') (hpos : 0 < B.strategy.pageSize) :
    (transferAlgorithm env b B.strategy).cut B.strategy.pageSize (g.lenOf s.srcIt) s.srcOffset
      s.len ≤ B.strategy.pageSize ∨
    ∃ p ∈ R' b, (transferAlgorithm env b B.strategy).cut B.strategy.pageSize (g.lenOf s.srcIt)
      s.srcOffset s.len ≤ g.lenOf p := by
  cases hf : B.strategy.fragmentAsTarget with
  | true =>
      rw [transferAlgorithm_cut_fragment hf]
      exact .inl (cutLen_le_pageSize hpos _)
  | false =>
      rw [transferAlgorithm_cut_whole hf]
      have hle : cutWhole B.strategy.pageSize (g.lenOf s.srcIt) s.srcOffset s.len ≤
          min (g.lenOf s.srcIt) s.len := cutWhole_le
      by_cases hl : s.len = 0
      · left
        omega
      · rcases List.mem_cons.mp t.srcIt with hend | hs
        · -- the end of the source has no bytes
          have hsrc' : (g.buffers src).isSome := by
            rwa [Heap.buffers_isSome_congr t.steps.kind]
          have hzero : g.lenOf src = 0 := ((t.steps.footing ft).sentinel hsrc').2
          rw [← hend] at hzero
          left
          omega
        · by_cases hne : src = b
          · exact .inr ⟨s.srcIt, hne ▸ hs, by omega⟩
          · left
            obtain ⟨hR, hlen⟩ := t.elsewhere src hne
            rw [hR] at hs
            rw [hlen _ hs] at hle ⊢
            obtain ⟨-, m₁, m₂, hm, hhead, hat, -⟩ := t.reading hne hl
            obtain ⟨k, rfl⟩ := exists_cons_of_headD hhead (by
              rintro rfl
              rw [hhead] at hs
              exact ft.links.notMem_self hsrc hs)
            have hpage := hfit B hB hpos hf m₁ s.srcIt k (by rw [ft.links.pagesOf hsrc, hm])
            have hsum := t.sum
            rw [Heap.length_flat] at hpage
            omega

variable (ft : Footing h R []) (ht : h.IsTrivial b) (hsrc : h.IsTrivial src) (hlen : len < 2 ^ 64)
  (hfit : h.FitsPages b src len)

include ft ht hsrc hlen hfit

/-- **The transfer loop** keeps the limits. -/
theorem insertBufferLoop_limited (hB : h.buffers b = some B) (hit : it ∈ b :: R b)
    (ha : TransferAllowed env G h R b it off src len) :
    Returns (insertBufferLoop env (transferAlgorithm env b B.strategy) b it off src len) h
      (fun _ h' => Limited G h R h') := by
  obtain ⟨Start, law⟩ := transferAlgorithm_law env b B.strategy
  unfold insertBufferLoop
  refine Returns.step (bufferGetIterator_run hsrc ft.links) ?_
  refine Returns.loop_from (I := fun s g => ∃ R', TransferAt G Start
    (HeadKept (transferAlgorithm env b B.strategy) B.strategy.pageSize b src it off len h R)
    b src it off len h R s g R' ∧ WithinLimits h R g R') ?_
    ⟨R, .start law hit off len, .refl h R⟩
  intro s g hreach hI
  obtain ⟨R', t, hw⟩ := hI
  refine (t.round law ft hB (ht.allocator hB) hsrc hlen id (ha B Start s g R' hB law t hreach)).mono
    ?_
  intro r g' hr
  obtain ⟨R'', hsteps, hup, hr'⟩ := hr
  have hw' : WithinLimits h R g' R'' := by
    refine hw.trans t.steps.kind (hup.withinLimits hsteps (t.steps.links ft.links) ?_)
    intro B' hB' hpos
    -- the buffer has kept its page size
    obtain ⟨B₁, hB₁, hσ, -⟩ := buffer_of_kind t.steps.kind hB
    rw [hB'] at hB₁
    cases hB₁
    rw [hσ] at hpos ⊢
    exact t.cut_fits ft hB hsrc.isSome hfit hpos
  cases r with
  | inl s' => exact ⟨R'', hr', hw'⟩
  | inr k => exact ⟨R'', t.steps.trans hsteps, hw'⟩

end Transfers

/-! ## Runs -/

/-- A transfer that finds bytes on the pages it comes to may share and split
freely. -/
theorem FindsBytes.allowed (ft : Footing h R []) (hsrc : (h.buffers src).isSome)
    (hf : FindsBytes env h b it off src len) :
    TransferAllowed env unrestricted h R b it off src len := by
  intro B Start s g R' hB _ t hreach hl hs
  refine ⟨?_, fun _ _ _ => trivial, fun _ _ _ => trivial⟩
  by_cases hne : src = b
  · subst hne
    exact (hf.2 rfl).at ft hsrc hB t hreach hl hs
  · exact t.filled ft hsrc hne (hf.1 hne) hl hs

theorem fits_run : RunInvariant env unrestricted (TransfersFit env) (fun _ => True) where
  initial := fun _ _ _ => trivial
  step := fun _ _ _ _ _ => trivial
  view := fun _ _ _ _ _ _ => trivial
  allowed := fun h R a ft _ hn hM => by
    cases a with
    | overwriteBuffer b src len => trivial
    | op o =>
        cases o with
        | insertData b it off buf => exact fun _ _ _ _ _ => trivial
        | insertDataRef b it off buf len => exact fun _ _ _ _ _ => trivial
        | insertBuffer b it off src len =>
            obtain ⟨ht, -, hsrc, -⟩ := hn
            intro hacc
            rcases hM with ⟨hf, -⟩ | ⟨hit, hrej⟩
            · exact hf.allowed ft hsrc.isSome
            · exact absurd hrej (hacc hit)
        | writeBuffer b src len =>
            obtain ⟨ht, hsrc, -⟩ := hn
            intro hacc
            rcases hM with ⟨hf, -⟩ | hrej
            · exact hf.allowed ft hsrc.isSome
            · exact absurd hrej hacc
        | _ => trivial

theorem returns_trivialBufferCreate_limit (hl : Links h R []) (hlim : h.PageLimit)
    (strategy : Strategy) :
    Returns (trivialBufferCreate env strategy) h (fun _ h' => h'.PageLimit) := by
  refine (trivialBufferCreate_run env h strategy).returns.mono ?_
  intro r h' hr
  cases r with
  | none =>
      obtain ⟨-, hi, -, -⟩ := hr
      have s : Still h h' h.datas := ⟨hi.pages, hi.datas, hi.kind, hi.next⟩
      have hsheds : Sheds unrestricted h R h' :=
        ⟨R, (s.step hl).steps, fun _ => List.Subset.refl _⟩
      exact (hsheds.limited hl).pageLimit hl hlim
  | some b => exact hr.pageLimit hl hlim

theorem returns_trivialBufferDestroy_limit (ft : Footing h R []) (ht : h.IsTrivial b)
    (hlim : h.PageLimit) :
    Returns (trivialBufferDestroy env b) h (fun _ h' => h'.PageLimit) := by
  unfold trivialBufferDestroy
  refine Returns.bind (returns_trivialBufferClear (G := unrestricted) ft.links ht) ?_
  intro u h₁ hclear
  obtain ⟨R', hsteps, hsub, hR⟩ := hclear
  have hsheds : Sheds unrestricted h R h₁ := ⟨R', hsteps, hsub⟩
  have hlim₁ := (hsheds.limited ft.links).pageLimit ft.links hlim
  have ht₁ := hsteps.trivial_of ht
  have ft₁ : Footing h₁ R' [] := hsteps.footing ft
  exact Returns.of_run (freeBuffer_run ht₁.isSome) (ft₁.pageLimit_freed ht₁.isSome hR hlim₁)

/-- **Every action** whose transfers fit keeps the limits. -/
theorem returns_perform_limit {a : Action} (ft : Footing h R []) (hn : a.Names h)
    (hM : TransfersFit env h a) (hlim : h.PageLimit) :
    Returns (perform env a) h (fun _ h' => h'.PageLimit) := by
  have hl := ft.links
  have ha := fits_run.allowed h R a ft trivial hn hM
  -- the answer of an operation is wrapped, its effect is that of the operation
  have wrap : ∀ {α : Type} {m : PbM α} {f : α → Ret},
      Returns m h (fun _ h' => h'.PageLimit) →
      Returns (do let x ← m; pure (f x)) h (fun _ h' => h'.PageLimit) :=
    fun hm => Returns.bind hm fun _ _ he => Returns.pure he
  have limited : ∀ {α : Type} {m : PbM α} {f : α → Ret},
      Returns m h (fun _ h' => Limited unrestricted h R h') →
      Returns (do let x ← m; pure (f x)) h (fun _ h' => h'.PageLimit) :=
    fun hm => wrap (hm.mono fun _ _ s => s.pageLimit hl hlim)
  have sheds : ∀ {α : Type} {m : PbM α} {f : α → Ret},
      Returns m h (fun _ h' => Sheds unrestricted h R h') →
      Returns (do let x ← m; pure (f x)) h (fun _ h' => h'.PageLimit) :=
    fun hm => limited (hm.mono fun _ _ s => s.limited hl)
  cases a with
  | overwriteBuffer b src len =>
      obtain ⟨ht, hsrc, -⟩ := hn
      exact sheds (returns_trivialBufferOverwriteBuffer hl ht hsrc len)
  | op o =>
      cases o with
      | create strategy => exact wrap (returns_trivialBufferCreate_limit hl hlim strategy)
      | destroy b => exact wrap (returns_trivialBufferDestroy_limit ft hn hlim)
      | writeData b buf => exact limited (returns_trivialBufferWriteData ft hn buf)
      | writeDataRef b buf len => exact limited (returns_trivialBufferWriteDataRef ft hn buf len)
      | writeBuffer b src len =>
          obtain ⟨ht, hsrc, hlen⟩ := hn
          refine limited ?_
          unfold trivialBufferWriteBuffer
          refine returns_getBuffer fun B hB => ?_
          split
          · exact Returns.pure .refl
          · next hrej =>
              refine Returns.pure_bind ?_
              have hacc := accepts_write hB hrej
              rcases hM with ⟨-, hfit⟩ | hr
              · exact insertBufferLoop_limited ft ht hsrc hlen hfit hB List.mem_cons_self (ha hacc)
              · exact absurd hr hacc
      | insertData b it off buf =>
          obtain ⟨ht, hp⟩ := hn
          exact limited (returns_trivialBufferInsertData ft ht (hl.isPlaceOf ht hp) buf ha)
      | insertDataRef b it off buf len =>
          obtain ⟨ht, hp⟩ := hn
          exact limited (returns_trivialBufferInsertDataRef ft ht (hl.isPlaceOf ht hp) buf ha)
      | insertBuffer b it off src len =>
          obtain ⟨ht, hp, hsrc, hlen⟩ := hn
          refine limited ?_
          unfold trivialBufferInsertBuffer bufferIsEndIterator trivialBufferIsEndIterator
          refine returns_getBuffer fun B hB => ?_
          split
          · exact Returns.pure .refl
          · next hrej =>
              have hacc := accepts_insert hB hrej
              rcases hM with ⟨-, hfit⟩ | ⟨hit, hr⟩
              · exact insertBufferLoop_limited ft ht hsrc hlen hfit hB (hl.isPlaceOf ht hp) (ha hacc)
              · exact absurd hr (hacc hit)
      | extend b len => exact limited (returns_trivialBufferExtend ft hn len)
      | reserve b size => exact limited (returns_trivialBufferReserve ft hn size)
      | rewind b len => exact limited (returns_trivialBufferRewind ft hn len)
      | seek b len => exact sheds (returns_trivialBufferSeek hl hn len)
      | trim b len => exact sheds (returns_trivialBufferTrim hl hn len)
      | overwriteData b buf => exact sheds (returns_trivialBufferOverwriteData hl hn buf)
      | readData b len => exact sheds (returns_trivialBufferReadData hl hn len)
      | clear b =>
          refine sheds ((returns_trivialBufferClear (G := unrestricted) hl hn).mono ?_)
          rintro _ h' ⟨R', hsteps, hsub, -⟩
          exact ⟨R', hsteps, hsub⟩

/-- Pages of at most two bytes, as long as the source's where there is one. -/
def shortPages (cloneOnWrite : Bool) : Strategy :=
  { trivialBufferStrategy with pageSize := 2, cloneOnWrite := cloneOnWrite }

/-- Three bytes in the buffer 1, and the buffer 3 with its short pages. -/
def Heap.threeAndNone (cloneOnWrite : Bool) : Heap :=
  (Heap.twoBuffers trivialBufferStrategy (shortPages cloneOnWrite)).after .generous
    (.writeData 1 [1, 2, 3])

theorem reachableBy_threeAndNone {M : Heap → Action → Prop} (hcreate : ∀ h σ, M h (.op (.create σ)))
    (hwrite : ∀ h b buf, M h (.op (.writeData b buf))) (clone : Bool) :
    ReachableBy .generous M (.threeAndNone clone) := by
  refine (reachableBy_twoBuffers hcreate _ _).after (isTrivial_twoBuffers _ _).1 (hwrite _ _ _) ?_
  cases clone <;> decide

theorem names_threeAndNone {len : Nat} (hlen : len < 2 ^ 64) (clone : Bool) :
    (Action.op (.writeBuffer 3 1 len)).Names (.threeAndNone clone) := by
  cases clone
  · exact ⟨⟨_, rfl, rfl⟩, ⟨_, rfl, rfl⟩, hlen⟩
  · exact ⟨⟨_, rfl, rfl⟩, ⟨_, rfl, rfl⟩, hlen⟩

theorem Heap.PageLimit.le {strategy : Strategy} {o : BufferClass} {p : Nat} (hlim : h.PageLimit)
    (hk : h.kindOf b = some (strategy, o)) (hpos : 0 < strategy.pageSize) (hp : p ∈ h.pagesOf b) :
    h.lenOf p ≤ strategy.pageSize := by
  obtain ⟨B, hB, hpair⟩ := Option.map_eq_some_iff.mp hk
  rw [← (Prod.mk.inj hpair).1] at hpos ⊢
  exact hlim b B hB hpos p hp

end Pb
