import PageBuf.Invariant.SharedMap
import PageBuf.Invariant.WindowIterators

/-!
# SharedIterators — the iterators of an mmap buffer that lends its pages

A step over the end of the window or over its beginning links one more page,
on new data or on data that other buffers have kept. The other buffers stay as
they are.
-/

namespace Pb

open StateRun Function Ring RefCount

variable {env : Env} {h h' h'' h₁ g : Heap} {R R' R'' : Nat → List Nat} {l₁ l₂ : List Nat}
  {a b it head n x : Nat} {A : MmapAllocator} {B : Buffer} {fd : Fd} {k : Block}
  {ks ks' : List Block} {old : Option Nat}

/-! ## The other buffers -/

/-- The buffers besides `b` are as they were, and so are the files. -/
structure Beside (h h' : Heap) (R R' : Nat → List Nat) (b : Nat) : Prop where
  files : h'.files = h.files
  maps : MapsStay h h'
  ring : ∀ {c}, c ≠ b → R' c = R c
  buffer : ∀ {c}, c ≠ b → h'.buffers c = h.buffers c
  same : ∀ {c p}, c ≠ b → p ∈ R c → Same h h' p

theorem Beside.refl (h : Heap) (R : Nat → List Nat) (b : Nat) : Beside h h R R b :=
  ⟨rfl, .refl h, fun _ => rfl, fun _ => rfl, fun _ _ => .refl h _⟩

theorem Beside.trans (s : Beside h h' R R' b) (s' : Beside h' h'' R' R'' b) :
    Beside h h'' R R'' b where
  files := s'.files.trans s.files
  maps := s.maps.trans s'.maps
  ring := fun hc => (s'.ring hc).trans (s.ring hc)
  buffer := fun hc => (s'.buffer hc).trans (s.buffer hc)
  same := fun {c p} hc hp => (s.same hc hp).trans (s'.same hc (by rwa [s.ring hc]))

theorem Beside.granted (h : Heap) (R : Nat → List Nat) (b : Nat) : Beside h h.granted R R b :=
  ⟨rfl, (Idle.granted h).mapsStay, fun _ => rfl, fun _ => rfl, fun _ _ => ⟨rfl, rfl, rfl⟩⟩

/-! ## What may be mapped -/

theorem Heap.Ready.mono {n' : Nat} (hr : h.Ready a fd head ks n) (hle : n' ≤ n) :
    h.Ready a fd head ks n' := by
  intro d s off hs hop hd
  obtain ⟨hfew, hrest⟩ := hr _ _ _ hs hop hd
  exact ⟨by omega, hrest⟩

/-- Blocks that are not mapped by the buffer were not before, and have no more users. -/
theorem Heap.Ready.of_older (hr : h.Ready a fd head ks n)
    (hnew : ∀ d s off, h'.shapeOf d = some s → s.operations = .mmap a off false →
      d ∉ ks'.map Block.data → h.shapeOf d = some s ∧ d ∉ ks.map Block.data ∧
        h'.refs d ≤ h.refs d)
    (hf : (h'.files fd.file).length = (h.files fd.file).length) : h'.Ready a fd head ks' n := by
  intro d s off hs hop hd
  obtain ⟨hs', hd', hle⟩ := hnew _ _ _ hs hop hd
  obtain ⟨hfew, hrest⟩ := hr _ _ _ hs' hop hd'
  rw [hf]
  exact ⟨by omega, hrest⟩

theorem Links.refs_granted {F : List Nat} (hl : Links h R F) (d : Nat) :
    h.granted.refs d = h.refs d :=
  Heap.refs_congr (show h.granted.dataOf = h.dataOf from rfl) (Nat.le_succ _) hl.fresh d

theorem Lends.ready_granted (m : Lends h R b a fd head ks) (hr : h.Ready a fd head ks n) :
    h.granted.Ready a fd head ks n := by
  refine hr.of_older (fun d _ _ hs _ hd => ⟨hs, hd, ?_⟩) rfl
  exact Nat.le_of_eq (m.inv.core.links.refs_granted d)

theorem NewLent.of_granted (nl : NewLent h.granted h₁ R b a fd head ks old k)
    (m : Lends h R b a fd head ks) : NewLent h h₁ R b a fd head ks old k :=
  { nl with
    buffers := nl.buffers
    files := nl.files
    maps := (Idle.granted h).mapsStay.trans nl.maps
    older := nl.older
    same := fun hp =>
      have s := nl.same hp
      ⟨s.vec, s.data, s.bytes⟩
    refs := fun e he => by
      rw [nl.refs e he]
      exact m.inv.core.links.refs_granted e }

/-! ## Linking the page -/

/-- The window with one more block, which may have replaced the mapping of
another. -/
theorem NewLent.linked (m : Lends h R b a fd head ks) (hr : h.Ready a fd head ks n)
    (nl : NewLent h h₁ R b a fd head ks old k) (i : Idle h₁ g) (hm : g.mem = h₁.mem)
    (hother : ∀ {c}, c ≠ b → g.buffers c = h₁.buffers c)
    (hk : Linked g h' R [] [] b k.page l₁ l₂) (hB : g.buffers b = some B)
    (hpages : l₁ ++ k.page :: l₂ = ks'.map Block.page)
    (hblocks : ks'.Perm (k :: ks.map (Block.replaced old)))
    (hs : Stretch ks' (h.files fd.file).length)
    (hfirst : startOf ks' head = head ∨ head < startOf ks' head ∧ mmapBaseSize ∣ startOf ks' head)
    (hlast : ∀ {l k'}, ks' = l ++ [k'] → k'.obsolete = false) :
    Beside h h' R (update R b (l₁ ++ k.page :: l₂)) b ∧
      Lends h' (update R b (l₁ ++ k.page :: l₂)) b a fd head ks' ∧ h'.Ready a fd head ks' n := by
  have hc := m.inv.core
  have hf := hk.frame hB
  have hfiles : h'.files = h.files := by rw [hk.world.files, i.files, nl.files]
  have hbeside : Beside h h' R (update R b (l₁ ++ k.page :: l₂)) b :=
    { files := hfiles
      maps := nl.maps.trans (i.mapsStay.trans hk.world.mapsStay)
      ring := fun hne => update_of_ne hne _ _
      buffer := fun hne => by rw [hf.buffer hne, hother hne, nl.buffers]
      same := fun {c p} _ hp => by
        have hlive := (hc.links.live p).mpr (.inr (.inl ⟨c, hp⟩))
        exact (nl.same hlive).trans ((i.same hm p).trans (hk.same p)) }
  have hshape : h'.shapeOf = h₁.shapeOf := hk.shape.trans i.shape
  have hshows : ∀ k' ∈ ks', h'.Shows a fd.file k' := by
    intro k' hk'
    have hshow : h₁.Shows a fd.file k' := by
      rcases List.mem_cons.mp (hblocks.mem_iff.mp hk') with rfl | hk'
      · exact nl.new
      · obtain ⟨k₀, hk₀, rfl⟩ := List.mem_map.mp hk'
        exact nl.shows k₀ hk₀
    exact (hshow.idle i).along hk.world hk.core (hk.same _) (congrFun hk.shape _)
  have hdata : (ks'.map Block.data).Perm (k.data :: ks.map Block.data) := by
    have hmap := hblocks.map Block.data
    simpa [Function.comp_def] using hmap
  refine ⟨hbeside, ?_, ?_⟩
  · exact
      { inv := ⟨hk.core, hk.totals⟩
        opened := (nl.opened.idle i).along hk.world hk.core (congrFun hf.kind b)
        writable := m.writable
        others := fun {e} he hsome => by
          rw [hbeside.buffer he] at hsome
          obtain ⟨C, hC, hop⟩ := m.others he hsome
          exact ⟨C, (hbeside.buffer he).trans hC, hop⟩
        full := fun e p hp => by
          by_cases he : e = b
          · subst he
            rw [update_self, hpages] at hp
            obtain ⟨k', hk', rfl⟩ := List.mem_map.mp hp
            have hfit := (hs.fits k' hk').start
            rw [(hshows k' hk').lenOf]
            omega
          · rw [update_of_ne he] at hp
            rw [(hbeside.same he hp).len]
            exact m.full e p hp
        ring := by rw [update_self, hpages]
        shows := hshows
        once := hdata.nodup_iff.mpr (List.nodup_cons.mpr ⟨nl.data, m.once⟩)
        stretch := by
          rw [hfiles]
          exact hs
        first := hfirst
        last := hlast
        onFile := (nl.onFile.congr i.shape i.mappings (by rw [i.files])).along hk.world hk.core }
  · refine hr.of_older (fun d s off hsd hop hd => ?_) (by rw [hfiles])
    have hd' : d ≠ k.data ∧ d ∉ ks.map Block.data := by
      simpa using fun hmem => hd (hdata.mem_iff.mpr hmem)
    refine ⟨nl.older (by rw [← hshape]; exact hsd) hop hd'.1, hd'.2, Nat.le_of_eq ?_⟩
    have hdataOf : h'.dataOf = h₁.dataOf := by
      funext p
      rw [(hk.same p).data, Heap.dataOf_congr i.pages]
    rw [Heap.refs_congr hdataOf (Nat.le_trans i.next hk.world.next) nl.core.links.fresh,
      nl.refs d hd'.1]

/-- Where a step of an iterator leads: the window is `ks'`, and the other buffers are as they
were. -/
def Onward (h h' : Heap) (R : Nat → List Nat) (b a : Nat) (fd : Fd) (head n : Nat)
    (ks' : List Block) : Prop :=
  ∃ R', Beside h h' R R' b ∧ Lends h' R' b a fd head ks' ∧ h'.Ready a fd head ks' n

namespace Lends

variable (m : Lends h R b a fd head ks) (hr : h.Ready a fd head ks n)

include m hr

theorem onward_granted : Onward h h.granted R b a fd head n ks :=
  ⟨R, .granted h R b, m.granted, m.ready_granted hr⟩

theorem onward_refl : Onward h h R b a fd head n ks := ⟨R, .refl h R b, m, hr⟩

/-- **The page behind the window** is linked at the end of the ring. -/
theorem linkBehind (hos : env.SystemGrants) (nl : NewLent h h₁ R b a fd head ks old k)
    (hs : Stretch (ks.map (Block.replaced old) ++ [k]) (h.files fd.file).length)
    (hhead : head < (h.files fd.file).length)
    (hfirst : ks = [] → startOf [k] head = head ∨
      head < startOf [k] head ∧ mmapBaseSize ∣ startOf [k] head) :
    Yields (trivialBufferInsert env b b 0 k.page) h₁ (fun len h' => len ≠ 0 ∧
      ∃ R', R' b = R b ++ [k.page] ∧ Beside h h' R R' b ∧
        Lends h' R' b a fd head (ks.map (Block.replaced old) ++ [k]) ∧
        h'.Ready a fd head (ks.map (Block.replaced old) ++ [k]) n) := by
  obtain ⟨B, hB, -⟩ := Option.map_eq_some_iff.mp nl.opened.kind
  have hbump := insertBump_end hos nl.opened (by rw [nl.files]; exact hhead)
  have i := Idle.granted h₁
  have hpos := (hs.fits k (by simp)).start
  refine ((@trivialBufferInsert_link _ _ _ _ _ _ (R b) []) hbump (nl.core.idle i) nl.totals hB
    (List.append_nil _).symm rfl (nl.opened.idle i).not_writesInPlace).mono ?_
  intro len h' hpost
  obtain ⟨rfl, hk⟩ := hpost
  have hlen : h₁.granted.lenOf k.page = k.stop - k.start := nl.new.lenOf
  refine ⟨by omega, update R b (R b ++ [k.page]), update_self _ _ _, ?_⟩
  refine nl.linked m hr i rfl (fun _ => rfl) hk hB ?_ (List.perm_append_singleton _ _) hs ?_ ?_
  · rw [m.ring, List.map_append, List.map_map]
    simp [Function.comp_def]
  · cases ks with
    | nil => exact hfirst rfl
    | cons k₀ ks => simpa using m.first
  · intro l k' hl
    obtain ⟨-, rfl⟩ : _ ∧ k = k' := by simpa using hl
    exact nl.live

/-- **The page before the window** is linked at the head of the ring. -/
theorem linkBefore (nl : NewLent h h₁ R b a fd head ks old k) (hne : ks ≠ [])
    (hsame : ks.map (Block.replaced old) = ks)
    (hs : Stretch (k :: ks) (h.files fd.file).length)
    (hfirst : k.start = head ∨ head < k.start ∧ mmapBaseSize ∣ k.start) :
    Yields (trivialBufferInsert env b ((R b).headD b) 0 k.page) h₁ (fun len h' => len ≠ 0 ∧
      ∃ R', R' b = k.page :: R b ∧ Beside h h' R R' b ∧ Lends h' R' b a fd head (k :: ks) ∧
        h'.Ready a fd head (k :: ks) n) := by
  obtain ⟨B, hB, -⟩ := Option.map_eq_some_iff.mp nl.opened.kind
  have hB₁ : (h₁.bump b B 1).buffers b = some { B with dataRevision := B.dataRevision + 1 } :=
    update_self _ _ _
  have hnonempty : R b ≠ [] := by
    rw [m.ring]
    simpa using hne
  have hit : (R b).headD b ≠ b := by
    rw [ne_eq, m.inv.core.links.headD_eq_self_iff m.opened.isSome]
    exact hnonempty
  have i : Idle h₁ (h₁.bump b B 1) := Idle.bump hB 1
  have hpos := (hs.fits k List.mem_cons_self).start
  refine ((@trivialBufferInsert_link _ _ _ _ _ _ [] (R b)) (insertBump_front hB hit)
    (nl.core.idle i) (nl.totals.bump hB 1) hB₁ rfl rfl (nl.opened.idle i).not_writesInPlace).mono ?_
  intro len h' hpost
  obtain ⟨rfl, hk⟩ := hpost
  have hlen : (h₁.bump b B 1).lenOf k.page = k.stop - k.start := nl.new.lenOf
  refine ⟨by omega, update R b (k.page :: R b), update_self _ _ _, ?_⟩
  refine nl.linked m hr i rfl (fun hc => update_of_ne hc _ _) hk hB₁ ?_ ?_ hs hfirst ?_
  · rw [m.ring]
    rfl
  · rw [hsame]
  · intro l k' hl
    cases l with
    | nil =>
        obtain ⟨-, hnil⟩ : _ ∧ ks = [] := by simpa using hl
        exact absurd hnil hne
    | cons k₀ l =>
        obtain ⟨-, hl'⟩ : _ ∧ ks = l ++ [k'] := by simpa using hl
        exact m.last hl'

end Lends

/-! ## Mapping a page -/

namespace Lends

variable (m : Lends h R b a fd head ks)

include m

/-- Where the bytes behind the window lie, from what the code reads off the last page. -/
theorem forwardOffset_run (hos : env.SystemGrants) {β : Type} (f : Nat → Nat → PbM β) :
    (do
      let pageOffset ← mmapPageFileOffset ((R b).getLastD b)
      let fileSize ← mmapAllocatorGetFileSize env a
      let fileOffset ← match pageOffset with
        | some off => do
            let pageLen ← pageGetLen ((R b).getLastD b)
            pure (off + pageLen)
        | none => pure head
      f fileOffset fileSize : PbM β) h = f (stopOf ks head) (h.files fd.file).length h.granted := by
  obtain ⟨A, hA, hfd, -⟩ := m.opened.allocator
  have hsize := mmapAllocatorGetFileSize_run hos hA hfd
  rcases List.eq_nil_or_concat' ks with hnil | ⟨l, k, hl⟩
  · have hend : (R b).getLastD b = b := by rw [m.ring, hnil]; rfl
    rw [hend]
    refine (bind_run (mmapPageFileOffset_end m.inv.core m.opened.isSome)).trans ?_
    refine (bind_run hsize).trans ((bind_run rfl).trans ?_)
    rw [hnil]
    rfl
  · have hlast : (R b).getLastD b = k.page := by
      rw [m.ring, hl, List.map_append]
      exact getLastD_concat b _ _
    have hk : k ∈ ks := by simp [hl]
    have hlive : (h.granted.pages k.page).isSome := m.inv.core.links.node_live m.opened.isSome
      (List.mem_cons_of_mem b (m.page_mem hk))
    rw [hlast]
    refine (bind_run (mmapPageFileOffset_block (m.shows k hk) (m.offset_le hk))).trans ?_
    refine (bind_run hsize).trans ?_
    refine (bind_run (pageGetLen_run hlive)).trans ((bind_run rfl).trans ?_)
    have hstop : k.start + h.granted.lenOf k.page = stopOf ks head := by
      have hlen : h.granted.lenOf k.page = h.lenOf k.page := rfl
      have := (m.stretch.fits k hk).start
      rw [hlen, (m.shows k hk).lenOf, hl, stopOf_concat]
      omega
    rw [hstop]

/-- Where the bytes before the window lie, from what the code reads off the first page. -/
theorem backwardOffset_run (hos : env.SystemGrants) {β : Type} (f : Option Nat → Nat → PbM β) :
    (do
      let pageOffset ← mmapPageFileOffset ((R b).headD b)
      let fileSize ← mmapAllocatorGetFileSize env a
      f pageOffset fileSize : PbM β) h
      = f (ks.head?.map Block.start) (h.files fd.file).length h.granted := by
  obtain ⟨A, hA, hfd, -⟩ := m.opened.allocator
  have hsize := mmapAllocatorGetFileSize_run hos hA hfd
  cases hks : ks with
  | nil =>
      have hend : (R b).headD b = b := by rw [m.ring, hks]; rfl
      rw [hend]
      refine (bind_run (mmapPageFileOffset_end m.inv.core m.opened.isSome)).trans ?_
      exact (bind_run hsize).trans rfl
  | cons k l =>
      have hk : k ∈ ks := by simp [hks]
      have hfirst : (R b).headD b = k.page := by rw [m.ring, hks]; rfl
      rw [hfirst]
      refine (bind_run (mmapPageFileOffset_block (m.shows k hk) (m.offset_le hk))).trans ?_
      exact (bind_run hsize).trans rfl

/-- At the end of the file there is nothing behind the window. -/
theorem mapForward_end (hos : env.SystemGrants) (he : stopOf ks head = (h.files fd.file).length) :
    mmapAllocatorPageMapForward env a ((R b).getLastD b) h = .ok (none, h.granted) := by
  obtain ⟨A, hA, hfd, hhead⟩ := m.opened.allocator
  unfold mmapAllocatorPageMapForward
  refine (bind_run (getMmapAllocator_run hA)).trans ?_
  simp only [hfd, hhead]
  refine (m.forwardOffset_run hos _).trans ?_
  rw [if_pos he]
  rfl

/-- At the head there is nothing before the window. -/
theorem mapBackward_head (hos : env.SystemGrants)
    (he : (ks.head?.map Block.start).getD (h.files fd.file).length ≤ head) :
    mmapAllocatorPageMapBackward env a ((R b).headD b) h = .ok (none, h.granted) := by
  obtain ⟨A, hA, hfd, hhead⟩ := m.opened.allocator
  unfold mmapAllocatorPageMapBackward
  refine (bind_run (getMmapAllocator_run hA)).trans ?_
  simp only [hfd, hhead]
  refine (m.backwardOffset_run hos _).trans ?_
  rw [if_pos he]
  rfl

/-- **A page for the bytes behind the window.** -/
theorem mapForward (hs : env.Succeeds) (hr : h.Ready a fd head ks n)
    (hlt : stopOf ks head < (h.files fd.file).length) :
    ∃ h₁ old k, mmapAllocatorPageMapForward env a ((R b).getLastD b) h = .ok (some k.page, h₁) ∧
      NewLent h h₁ R b a fd head ks old k ∧ k.start = stopOf ks head ∧
      Stretch (ks.map (Block.replaced old) ++ [k]) (h.files fd.file).length := by
  obtain ⟨A, hA, hfd, hhead⟩ := m.opened.allocator
  have hlookup := (m.granted).lookup_forward hs (m.ready_granted hr) hA hfd hlt
  obtain ⟨h₁, old, k, hrun, i, hstart, hfit, hlast⟩ := hlookup
  have hoff : mmapOffsetOf (stopOf ks head) = k.offset := by rw [hfit.offset, hstart]
  have hle : k.offset ≤ k.start := by
    rw [hfit.offset]
    exact Nat.div_mul_le_self _ _
  refine ⟨_, old, k, ?_, (i.newLent m.granted _ rfl).of_granted m, hstart, ?_⟩
  · unfold mmapAllocatorPageMapForward
    refine (bind_run (getMmapAllocator_run hA)).trans ?_
    simp only [hfd, hhead]
    refine (m.forwardOffset_run hs.system _).trans ?_
    rw [if_neg (Nat.ne_of_lt hlt)]
    refine (bind_run hrun).trans ?_
    dsimp only
    have hend : wrapSub (k.offset + k.len) k.start = k.stop - k.start :=
      wrapSub_of_le (Nat.le_of_lt hfit.start)
    rw [hoff, ← hstart, wrapSub_of_le hle, hend]
    exact i.page_run hs _ _
  · have hbehind : k.start = stopOf (ks.map (Block.replaced old)) head := by
      rw [hstart, stopOf_replaced]
    refine (m.stretch.replaced old).append hfit hbehind ?_
    intro l k' hl he
    obtain ⟨l₁, l₂, rfl, -, hl₂⟩ := List.map_eq_append_iff.mp hl
    obtain ⟨k₂, rfl, rfl⟩ := List.map_eq_singleton_iff.mp hl₂
    exact hlast l₁ k₂ rfl (by simpa using he)

/-- **A page for the bytes before the window.** -/
theorem mapBackward (hs : env.Succeeds) (hr : h.Ready a fd head ks n) {cur : Nat}
    (hcur : cur = (ks.head?.map Block.start).getD (h.files fd.file).length) (hlt : head < cur) :
    ∃ h₁ old k, mmapAllocatorPageMapBackward env a ((R b).headD b) h = .ok (some k.page, h₁) ∧
      NewLent h h₁ R b a fd head ks old k ∧ k.stop = cur ∧
      (k.start = head ∨ head < k.start ∧ mmapBaseSize ∣ k.start) ∧
      ks.map (Block.replaced old) = ks ∧ Stretch (k :: ks) (h.files fd.file).length := by
  obtain ⟨A, hA, hfd, hhead⟩ := m.opened.allocator
  -- the block that ends at `cur`
  obtain ⟨off, hoff⟩ : ∃ off, off = if cur = mmapOffsetOf cur
      then wrapSub (mmapOffsetOf cur) mmapBaseSize else mmapOffsetOf cur := ⟨_, rfl⟩
  have hbounds : mmapBaseSize ∣ off ∧ off < cur ∧ cur ≤ off + mmapBaseSize ∧
      (mmapBaseSize ∣ cur → cur = off + mmapBaseSize) := by
    by_cases hc : cur = mmapOffsetOf cur
    · rw [if_pos hc] at hoff
      simp only [mmapOffsetOf, mmapBaseSize] at hc hoff ⊢
      rw [wrapSub_of_le (by omega)] at hoff
      omega
    · rw [if_neg hc] at hoff
      simp only [mmapOffsetOf, mmapBaseSize] at hc hoff ⊢
      omega
  obtain ⟨hdvd, hoffcur, hcuroff, haligned⟩ := hbounds
  have hwhole : ks ≠ [] → cur = off + mmapBaseSize := by
    intro hne
    obtain ⟨k, l, rfl⟩ := List.exists_cons_of_ne_nil hne
    have hfirst := m.first
    rw [startOf_cons] at hfirst
    have hstart : cur = k.start := hcur
    rcases hfirst with he | ⟨-, hdvd'⟩
    · omega
    · exact haligned (hstart ▸ hdvd')
  obtain ⟨start, hstart⟩ : ∃ start, start = if off > head then off else head := ⟨_, rfl⟩
  have hinside : off ≤ start ∧ start < cur ∧
      (start = head ∨ head < start ∧ mmapBaseSize ∣ start) := by
    simp only [mmapOffsetOf, mmapBaseSize] at *
    split at hstart <;> omega
  obtain ⟨hle, hstartcur, hfirst⟩ := hinside
  have hlookup := (m.granted).lookup_backward hs (m.ready_granted hr) hA hfd hcur hdvd
    hoffcur hcuroff hwhole hstart hstartcur
  obtain ⟨h₁, old, k, hrun, i, rfl, rfl, hstop, hfit, hsame⟩ := hlookup
  refine ⟨_, old, k, ?_, (i.newLent m.granted _ rfl).of_granted m, hstop, hfirst, hsame, ?_⟩
  · unfold mmapAllocatorPageMapBackward
    refine (bind_run (getMmapAllocator_run hA)).trans ?_
    simp only [hfd, hhead]
    refine (m.backwardOffset_run hs.system _).trans ?_
    rw [← hcur, if_neg (by omega), ← hoff, ← hstart]
    refine (bind_run hrun).trans ?_
    dsimp only
    rw [wrapSub_of_le hle, wrapSub_of_le (Nat.le_of_lt hstartcur), ← hstop]
    exact i.page_run hs _ _
  · refine m.stretch.cons head hfit fun hne => ⟨?_, ?_⟩
    · obtain ⟨k', l, rfl⟩ := List.exists_cons_of_ne_nil hne
      exact hstop.trans hcur
    · have hcur' := hwhole hne
      have hstop' : k.offset + k.len = cur := hstop
      omega

end Lends

/-! ## The iterators -/

namespace Lends

variable (m : Lends h R b a fd head ks)

include m

theorem bufferNextIterator_eq (it : Nat) :
    bufferNextIterator env b it h = mmapBufferNextIterator env b a it h := by
  obtain ⟨B, hB, hop⟩ := m.opened.getBuffer
  refine (bind_run (getBuffer_run hB)).trans ?_
  rw [hop]

theorem bufferPrevIterator_eq (it : Nat) :
    bufferPrevIterator env b it h = mmapBufferPrevIterator env b a it h := by
  obtain ⟨B, hB, hop⟩ := m.opened.getBuffer
  refine (bind_run (getBuffer_run hB)).trans ?_
  rw [hop]

theorem bufferGetIterator_eq :
    bufferGetIterator env b h = mmapBufferGetIterator env b a h := by
  obtain ⟨B, hB, hop⟩ := m.opened.getBuffer
  refine (bind_run (getBuffer_run hB)).trans ?_
  rw [hop]

variable (hs : env.Succeeds) (hr : h.Ready a fd head ks n)

include hs hr

/-- What lies behind the window is mapped by a step over its end. -/
theorem nextIterator_behind (hit : it = (R b).getLastD b) :
    Yields (bufferNextIterator env b it) h (fun it' h' => ∃ ks',
      Onward h h' R b a fd head n ks' ∧ startOf ks' head = startOf ks head ∧
      BeginsAt ks' b (h.files fd.file).length it' (stopOf ks head)) := by
  have hl := m.inv.core.links
  have hb := m.opened.isSome
  have hnext : trivialBufferNextIterator it h = .ok (b, h) := by
    rw [hit]
    exact nextIterator_cut hl hb (List.append_nil _).symm
  have hprev : trivialBufferPrevIterator b h = .ok ((R b).getLastD b, h) :=
    (@prevIterator_run _ _ _ _ []) hl hb (List.append_nil _).symm
  refine Yields.of_eq (m.bufferNextIterator_eq _) (Yields.step hnext ?_)
  simp only [trivialBufferIsEndIterator, decide_true, if_true]
  refine Yields.step hprev ?_
  by_cases he : stopOf ks head = (h.files fd.file).length
  · refine Yields.step (m.mapForward_end hs.system he) ?_
    refine yields_pure.mpr ⟨ks, m.onward_granted hr, rfl, ?_⟩
    rw [he]
    exact .last
  · have hlt : stopOf ks head < (h.files fd.file).length := by
      have := m.stretch.stop_le_size m.opened.head
      omega
    obtain ⟨h₁, old, k, hmap, nl, hstart, hs'⟩ := m.mapForward hs hr hlt
    have hhead : head < (h.files fd.file).length := by
      have hstop := m.stretch.start_le_stop head
      rcases m.first with hfirst | ⟨hfirst, -⟩ <;> omega
    refine Yields.step hmap (Yields.pure_bind (Yields.bind
      (m.linkBehind hr hs.system nl hs' hhead fun hnil => ?_) ?_))
    · rw [hnil] at hstart
      exact .inl hstart
    · intro len h' hpost
      obtain ⟨hlen, R', hring, hbeside, m', hr'⟩ := hpost
      rw [if_neg hlen]
      have hrun : trivialBufferNextIterator ((R b).getLastD b) h' = .ok (k.page, h') :=
        nextIterator_cut m'.inv.core.links m'.opened.isSome hring
      refine Yields.intro hrun ⟨_, ⟨R', hbeside, m', hr'⟩, ?_, ?_⟩
      · cases ks with
        | nil => exact hstart
        | cons k' l => simp
      · rw [← hstart]
        exact .page (by simp)

/-- **`pb_buffer_next_iterator`** from a page: what comes next begins where the page
ends. -/
theorem nextIterator (hk : k ∈ ks) :
    Yields (bufferNextIterator env b k.page) h (fun it' h' => ∃ ks',
      Onward h h' R b a fd head n ks' ∧ startOf ks' head = startOf ks head ∧
      BeginsAt ks' b (h.files fd.file).length it' k.stop) := by
  obtain ⟨l₁, l₂, hl⟩ := List.append_of_mem hk
  cases l₂ with
  | nil =>
      have hlast : stopOf ks head = k.stop := by rw [hl, stopOf_concat]
      rw [← hlast]
      refine m.nextIterator_behind hs hr ?_
      rw [m.ring, hl, List.map_append]
      exact (getLastD_concat b _ _).symm
  | cons k' l₂ =>
      have hk' : k' ∈ ks := by simp [hl]
      have hring : R b = l₁.map Block.page ++ k.page :: (k' :: l₂).map Block.page := by
        rw [m.ring, hl, List.map_append]
        rfl
      have hnext : trivialBufferNextIterator k.page h = .ok (k'.page, h) :=
        nextIterator_run m.inv.core.links m.opened.isSome hring
      have hstart : k'.start = k.stop := (hl ▸ m.stretch).start_behind
      refine Yields.of_eq (m.bufferNextIterator_eq _) (Yields.step hnext ?_)
      simp only [trivialBufferIsEndIterator, m.page_ne hk', decide_false, Bool.false_eq_true,
        if_false]
      refine yields_pure.mpr ⟨ks, m.onward_refl hr, rfl, ?_⟩
      rw [← hstart]
      exact .page hk'

/-- The first page: the window begins with it, or it is mapped. -/
theorem nextIterator_end :
    Yields (bufferNextIterator env b b) h (fun it' h' => ∃ ks',
      Onward h h' R b a fd head n ks' ∧ startOf ks' head = startOf ks head ∧
      BeginsAt ks' b (h.files fd.file).length it' (startOf ks head)) := by
  cases ks with
  | nil =>
      refine m.nextIterator_behind hs hr ?_
      rw [m.ring]
      rfl
  | cons k l =>
      have hring : R b = [] ++ k.page :: l.map Block.page := m.ring
      have hnext : trivialBufferNextIterator b h = .ok (k.page, h) :=
        (@nextIterator_cut _ _ _ []) m.inv.core.links m.opened.isSome hring
      refine Yields.of_eq (m.bufferNextIterator_eq _) (Yields.step hnext ?_)
      simp only [trivialBufferIsEndIterator, m.page_ne List.mem_cons_self, decide_false,
        Bool.false_eq_true, if_false]
      exact yields_pure.mpr ⟨k :: l, m.onward_refl hr, rfl, .page List.mem_cons_self⟩

/-- **`pb_buffer_get_iterator`**, which does what a step from the end does. -/
theorem getIterator :
    Yields (bufferGetIterator env b) h (fun it' h' => ∃ ks',
      Onward h h' R b a fd head n ks' ∧ startOf ks' head = startOf ks head ∧
      BeginsAt ks' b (h.files fd.file).length it' (startOf ks head)) := by
  have hsame : bufferGetIterator env b h = bufferNextIterator env b b h := by
    have hl := m.inv.core.links
    have hb := m.opened.isSome
    rw [m.bufferGetIterator_eq, m.bufferNextIterator_eq]
    have hget := getIterator_run hl hb
    have hnext : trivialBufferNextIterator b h = .ok ((R b).headD b, h) :=
      (@nextIterator_cut _ _ _ []) hl hb rfl
    refine (bind_run hget).trans ((bind_run hnext).trans ?_).symm
    by_cases hend : trivialBufferIsEndIterator b ((R b).headD b)
    · simp only [hend, if_true]
      have hhead : (R b).headD b = b := by simpa [trivialBufferIsEndIterator] using hend
      have hprev : trivialBufferPrevIterator ((R b).headD b) h = .ok (b, h) :=
        (@prevIterator_run _ _ _ []) hl hb rfl
      rw [hhead] at hprev ⊢
      exact bind_run hprev
    · simp only [hend, Bool.false_eq_true, if_false]
  exact Yields.of_eq hsame (m.nextIterator_end hs hr)

/-- What lies before the window is mapped by a step over its beginning. -/
theorem prevIterator_before {cur : Nat} (hit : it = (R b).headD b)
    (hcur : cur = (ks.head?.map Block.start).getD (h.files fd.file).length) :
    Yields (bufferPrevIterator env b it) h (fun it' h' => ∃ ks',
      Onward h h' R b a fd head n ks' ∧ EndsAt ks' b head it' cur) := by
  have hl := m.inv.core.links
  have hb := m.opened.isSome
  have hprev : trivialBufferPrevIterator it h = .ok (b, h) := by
    rw [hit]
    exact (@prevIterator_run _ _ _ []) hl hb rfl
  have hnext : trivialBufferNextIterator b h = .ok ((R b).headD b, h) :=
    (@nextIterator_cut _ _ _ []) hl hb rfl
  have hge : head ≤ cur := by
    rw [hcur]
    cases ks with
    | nil => exact m.opened.head
    | cons k l =>
        have hfirst := m.first
        rw [startOf_cons] at hfirst
        show head ≤ k.start
        omega
  refine Yields.of_eq (m.bufferPrevIterator_eq _) (Yields.step hprev ?_)
  simp only [trivialBufferIsEndIterator, decide_true, if_true]
  refine Yields.step hnext ?_
  rcases Nat.lt_or_eq_of_le hge with hlt | he
  · obtain ⟨h₁, old, k, hmap, nl, hstop, hfirst, hsame, hs'⟩ := m.mapBackward hs hr hcur hlt
    have hsize : cur ≤ (h.files fd.file).length := hcur ▸ m.first_le
    refine Yields.step hmap (Yields.step (getIterator_run nl.core.links nl.opened.isSome) ?_)
    by_cases hnil : ks = []
    · -- in an empty ring the place before the first page is the end
      subst hnil
      have hring : R b = [] := m.ring
      rw [hring]
      refine Yields.bind (m.linkBehind hr hs.system nl hs' (by omega) fun _ => hfirst) ?_
      intro len h' hpost
      obtain ⟨hlen, R', hring', hbeside, m', hr'⟩ := hpost
      rw [hring] at hring'
      rw [if_neg hlen]
      have hrun : trivialBufferPrevIterator (([] : List Nat).headD b) h' = .ok (k.page, h') :=
        (@prevIterator_run _ _ _ [k.page] []) m'.inv.core.links m'.opened.isSome hring'
      refine Yields.intro hrun ⟨_, ⟨R', hbeside, m', hr'⟩, ?_⟩
      rw [← hstop]
      exact .page (by simp)
    · refine Yields.bind (m.linkBefore hr nl hnil hsame hs' hfirst) ?_
      intro len h' hpost
      obtain ⟨hlen, R', hring', hbeside, m', hr'⟩ := hpost
      rw [if_neg hlen]
      have hrun : trivialBufferPrevIterator ((R b).headD b) h' = .ok (k.page, h') :=
        (@prevIterator_run _ _ _ [k.page] (R b)) m'.inv.core.links m'.opened.isSome hring'
      refine Yields.intro hrun ⟨_, ⟨R', hbeside, m', hr'⟩, ?_⟩
      rw [← hstop]
      exact .page (by simp)
  · refine Yields.step (m.mapBackward_head hs.system (hcur ▸ he.symm.le)) ?_
    refine yields_pure.mpr ⟨ks, m.onward_granted hr, ?_⟩
    rw [← he]
    exact .first

/-- **`pb_buffer_prev_iterator`** from a page: what comes before ends where the page
begins. -/
theorem prevIterator (hk : k ∈ ks) :
    Yields (bufferPrevIterator env b k.page) h (fun it' h' => ∃ ks',
      Onward h h' R b a fd head n ks' ∧ EndsAt ks' b head it' k.start) := by
  obtain ⟨l₁, l₂, hl⟩ := List.append_of_mem hk
  rcases List.eq_nil_or_concat' l₁ with rfl | ⟨l, k', rfl⟩
  · refine m.prevIterator_before hs hr ?_ (by rw [hl]; rfl)
    rw [m.ring, hl]
    rfl
  · have hk' : k' ∈ ks := by simp [hl]
    have hring : R b = (l ++ [k']).map Block.page ++ (k :: l₂).map Block.page := by
      rw [m.ring, hl, List.map_append]
    have hprev : trivialBufferPrevIterator k.page h = .ok (k'.page, h) := by
      have := prevIterator_run m.inv.core.links m.opened.isSome hring
      rw [List.map_append] at this
      exact this.trans (by rw [List.map_singleton, getLastD_concat])
    have hstart : k.start = k'.stop := by
      have hstretch := m.stretch
      rw [hl, List.append_assoc] at hstretch
      exact hstretch.start_behind
    refine Yields.of_eq (m.bufferPrevIterator_eq _) (Yields.step hprev ?_)
    simp only [trivialBufferIsEndIterator, m.page_ne hk', decide_false, Bool.false_eq_true,
      if_false]
    refine yields_pure.mpr ⟨ks, m.onward_refl hr, ?_⟩
    rw [hstart]
    exact .page hk'

/-- The last page: the window ends with it, or it is mapped. -/
theorem prevIterator_end :
    Yields (bufferPrevIterator env b b) h (fun it' h' => ∃ ks' x,
      Onward h h' R b a fd head n ks' ∧ EndsAt ks' b head it' x) := by
  rcases List.eq_nil_or_concat' ks with rfl | ⟨l, k, rfl⟩
  · refine (m.prevIterator_before hs hr ?_ rfl).mono fun it' h' hpost => ?_
    · rw [m.ring]
      rfl
    · obtain ⟨ks', hon, hend⟩ := hpost
      exact ⟨ks', _, hon, hend⟩
  · have hk : k ∈ l ++ [k] := by simp
    have hring : R b = (l ++ [k]).map Block.page ++ [] := by rw [m.ring, List.append_nil]
    have hprev : trivialBufferPrevIterator b h = .ok (k.page, h) := by
      have := (@prevIterator_run _ _ _ _ []) m.inv.core.links m.opened.isSome hring
      rw [List.map_append] at this
      exact this.trans (by rw [List.map_singleton, getLastD_concat])
    refine Yields.of_eq (m.bufferPrevIterator_eq _) (Yields.step hprev ?_)
    simp only [trivialBufferIsEndIterator, m.page_ne hk, decide_false, Bool.false_eq_true,
      if_false]
    exact yields_pure.mpr ⟨l ++ [k], k.stop, m.onward_refl hr, .page hk⟩

end Lends

end Pb
