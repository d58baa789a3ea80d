import PageBuf.Lib.Returns
import PageBuf.Invariant.Lifecycle

/-!
# PageSteps — what an operation does to pages, one page at a time

Whatever the counters say, and whatever has been freed too early, an operation
that returns has made, shared, split, linked, shortened, duplicated and
destroyed pages one by one. `PageEffect` lists these steps with what each does
to the lengths of the pages, to the data they refer to and to the recorded
numbers of users; an invariant that every step keeps is kept by every run.

Nothing here asks for sound counters: the lemmas say what has happened if a
function returns.
-/

namespace Pb

open StateRun Function Ring RefCount

variable {env : Env} {h h' h'' : Heap} {R : Nat → List Nat} {F : List Nat}
  {b d p x n : Nat} {D : Data} {α : Type}

/-! ## Reading objects -/

section Reading

variable {Q : α → Heap → Prop}

theorem returns_getPage {f : Page → PbM α} (hf : ∀ P, h.pages p = some P → Returns (f P) h Q) :
    Returns (getPage p >>= f) h Q := by
  cases hP : h.pages p with
  | none => exact Returns.stuck (e := .dangling) (by simp [getPage, hP])
  | some P => exact Returns.step (getPage_run hP) (hf P hP)

theorem returns_getData {f : Data → PbM α} (hf : ∀ D, h.datas d = some D → Returns (f D) h Q) :
    Returns (getData d >>= f) h Q := by
  cases hD : h.datas d with
  | none => exact Returns.stuck (e := .dangling) (by simp [getData, hD])
  | some D => exact Returns.step (getData_run hD) (hf D hD)

theorem returns_getBuffer {f : Buffer → PbM α}
    (hf : ∀ B, h.buffers b = some B → Returns (f B) h Q) : Returns (getBuffer b >>= f) h Q := by
  cases hB : h.buffers b with
  | none => exact Returns.stuck (e := .dangling) (by simp [getBuffer, hB])
  | some B => exact Returns.step (getBuffer_run hB) (hf B hB)

theorem returns_getMmapAllocator {a : Nat} {f : MmapAllocator → PbM α}
    (hf : ∀ A, h.mmapAllocators a = some A → Returns (f A) h Q) :
    Returns (getMmapAllocator a >>= f) h Q := by
  cases hA : h.mmapAllocators a with
  | none => exact Returns.stuck (e := .dangling) (by simp [getMmapAllocator, hA])
  | some A => exact Returns.step (getMmapAllocator_run hA) (hf A hA)

theorem returns_deref {o : Option Nat} {f : Nat → PbM α}
    (hf : ∀ q, o = some q → Returns (f q) h Q) : Returns (deref o >>= f) h Q := by
  cases o with
  | none => exact Returns.stuck (e := .dangling) rfl
  | some q => exact Returns.step rfl (hf q rfl)

end Reading

/-! ## Functions that do not touch pages -/

/-- The pages are as they were and the data have become `datas`; no buffer has
come, gone or changed its kind. -/
structure Still (h h' : Heap) (datas : Nat → Option Data) : Prop where
  pages : h'.pages = h.pages
  datas : h'.datas = datas
  kind : h'.kindOf = h.kindOf
  next : h.next ≤ h'.next

theorem Still.refl (h : Heap) : Still h h h.datas := ⟨rfl, rfl, rfl, Nat.le_refl _⟩

theorem Still.trans {f g : Nat → Option Data} (s : Still h h' f) (s' : Still h' h'' g) :
    Still h h'' g :=
  ⟨s'.pages.trans s.pages, s'.datas, s'.kind.trans s.kind, Nat.le_trans s.next s'.next⟩

/-- Changes that only counters and memory notice. -/
theorem Still.then_same {f : Nat → Option Data} (s : Still h h' f) (s' : Still h' h'' h'.datas) :
    Still h h'' f := by
  have := s.trans s'
  rwa [s.datas] at this

/-- What `put` leaves of a `pb_data`: nothing once the counter is zero. -/
def Data.put (D : Data) : Option Data :=
  if u16Dec D.useCount = 0 then none else some { D with useCount := u16Dec D.useCount }

theorem returns_request (env : Env) (h : Heap) : Returns (request env) h (fun r h' =>
    Still h h' h.datas ∧ ∀ a, r = some a → a = h.next ∧ h'.next = h.next + 1) := by
  rcases request_cases env h with ⟨-, hrun⟩ | ⟨-, hrun⟩
  · refine Returns.of_run hrun ⟨⟨rfl, rfl, rfl, Nat.le_succ _⟩, ?_⟩
    intro a ha
    cases ha
    exact ⟨rfl, rfl⟩
  · refine Returns.of_run hrun ⟨⟨rfl, rfl, rfl, Nat.le_refl _⟩, ?_⟩
    intro a ha
    cases ha

theorem returns_allocatorMalloc (env : Env) (h : Heap) (allocator : BufferClass) (size : Nat) :
    Returns (allocatorMalloc env allocator size) h (fun _ h' => Still h h' h.datas) := by
  cases allocator with
  | mmap a => exact Returns.throw
  | trivial =>
      refine Returns.bind (returns_request env h) ?_
      intro r h₁ hr
      cases r with
      | none => exact Returns.pure hr.1
      | some n =>
          refine Returns.step (modify_run _) (Returns.pure ?_)
          exact ⟨hr.1.pages, hr.1.datas, hr.1.kind, hr.1.next⟩

theorem returns_allocatorFree (q : Ptr) (h : Heap) :
    Returns (allocatorFree q) h (fun _ h' => Still h h' h.datas) := by
  intro u h' hrun
  unfold allocatorFree at hrun
  split at hrun
  · split at hrun
    · cases hrun
      exact ⟨rfl, rfl, rfl, Nat.le_refl _⟩
    · cases hrun
  · cases hrun

theorem returns_freeData (d : Nat) (h : Heap) :
    Returns (freeData d) h (fun _ h' => Still h h' (update h.datas d none)) := by
  intro u h' hrun
  unfold freeData at hrun
  split at hrun
  · cases hrun
    exact ⟨rfl, rfl, rfl, Nat.le_refl _⟩
  · cases hrun

/-- New data has one user. -/
structure NewDatum (h h' : Heap) (len d : Nat) (D : Data) : Prop where
  still : Still h h' (update h.datas d (some D))
  fresh : h.next ≤ d
  next : d < h'.next
  len : D.dataVec.len = len
  count : D.useCount = 1

theorem returns_trivialDataCreate (env : Env) (h : Heap) (len : Nat) (allocator : BufferClass) :
    Returns (trivialDataCreate env len allocator) h (fun r h' => match r with
      | none => Still h h' h.datas
      | some d => ∃ D, NewDatum h h' len d D) := by
  unfold trivialDataCreate
  refine Returns.bind (returns_allocatorMalloc env h allocator len) ?_
  intro r h₁ s₁
  cases r with
  | none => exact Returns.pure s₁
  | some buf =>
      refine Returns.bind (returns_request env h₁) ?_
      intro r h₂ hr
      obtain ⟨s₂, hfresh⟩ := hr
      have s := s₁.then_same s₂
      cases r with
      | none =>
          refine Returns.bind (returns_allocatorFree buf h₂) ?_
          intro u h₃ s₃
          exact Returns.pure (s.then_same s₃)
      | some d =>
          refine Returns.step (modify_run _) (Returns.pure ?_)
          obtain ⟨rfl, hnext⟩ := hfresh d rfl
          have hlt : h₁.next < h₂.next := by omega
          refine ⟨⟨⟨buf, len⟩, .owned, 1, .trivial⟩, ⟨s.pages, ?_, s.kind, s.next⟩, s₁.next, hlt,
            rfl, rfl⟩
          rw [← s.datas]
          rfl

theorem returns_trivialDataCreateRef (env : Env) (h : Heap) (buf : Ptr) (len : Nat) :
    Returns (trivialDataCreateRef env buf len) h (fun r h' => match r with
      | none => Still h h' h.datas
      | some d => ∃ D, NewDatum h h' len d D) := by
  unfold trivialDataCreateRef
  refine Returns.bind (returns_request env h) ?_
  intro r h₁ hr
  obtain ⟨s, hfresh⟩ := hr
  cases r with
  | none => exact Returns.pure s
  | some d =>
      refine Returns.step (modify_run _) (Returns.pure ?_)
      obtain ⟨rfl, hnext⟩ := hfresh d rfl
      have hlt : h.next < h₁.next := by omega
      refine ⟨⟨⟨buf, len⟩, .referenced, 1, .trivial⟩, ⟨s.pages, ?_, s.kind, s.next⟩,
        Nat.le_refl _, hlt, rfl, rfl⟩
      rw [← s.datas]
      rfl

/-! ## Giving data up -/

theorem returns_mmapAllocatorPut (a : Nat) (h : Heap) :
    Returns (mmapAllocatorPut a) h (fun _ h' => Still h h' h.datas) := by
  unfold mmapAllocatorPut
  refine returns_getMmapAllocator fun A _ => Returns.step (modify_run _) ?_
  by_cases hz : u16Dec A.useCount = 0
  · rw [if_neg (by simpa using hz)]
    dsimp only
    split
    · exact Returns.step (modify_run _)
        (Returns.of_run (modify_run _) ⟨rfl, rfl, rfl, Nat.le_refl _⟩)
    · exact Returns.of_run (modify_run _) ⟨rfl, rfl, rfl, Nat.le_refl _⟩
  · rw [if_pos (by simpa using hz)]
    exact Returns.pure ⟨rfl, rfl, rfl, Nat.le_refl _⟩

theorem returns_munmap (q : Ptr) (h : Heap) :
    Returns (munmap q) h (fun _ h' => Still h h' h.datas) := by
  unfold munmap
  intro u h' hrun
  split at hrun
  · cases hrun
    exact ⟨rfl, rfl, rfl, Nat.le_refl _⟩
  · cases hrun
    exact Still.refl h

theorem returns_dataTreeDel (a d : Nat) (h : Heap) :
    Returns (dataTreeDel a d) h (fun _ h' => Still h h' h.datas) := by
  unfold dataTreeDel
  refine returns_getMmapAllocator fun A _ => ?_
  split
  · exact Returns.of_run (modify_run _) ⟨rfl, rfl, rfl, Nat.le_refl _⟩
  · exact Returns.throw

theorem returns_mmapAllocatorDataDestroy (a d : Nat) (obsolete : Bool) (h : Heap) :
    Returns (mmapAllocatorDataDestroy a d obsolete) h
      (fun _ h' => Still h h' (update h.datas d none)) := by
  -- all that follows the removal from the tree
  have rest : ∀ h₁, Still h h₁ h.datas →
      Returns (do let D ← getData d; munmap D.dataVec.base; freeData d; mmapAllocatorPut a) h₁
        (fun _ h' => Still h h' (update h.datas d none)) := by
    intro h₁ s₁
    refine returns_getData fun D _ => Returns.bind (returns_munmap D.dataVec.base h₁) ?_
    intro u h₂ s₂
    have s := s₁.then_same s₂
    refine Returns.bind (returns_freeData d h₂) ?_
    intro u h₃ s₃
    refine (returns_mmapAllocatorPut a h₃).mono fun _ h₄ s₄ => ?_
    have := (s.trans s₃).then_same s₄
    rwa [s.datas] at this
  unfold mmapAllocatorDataDestroy
  cases obsolete with
  | true => exact rest h (Still.refl h)
  | false => exact Returns.bind (returns_dataTreeDel a d h) fun _ h₁ s₁ => rest h₁ s₁

theorem returns_dataRelease (d : Nat) (D : Data) (h : Heap) :
    Returns (dataRelease d D) h (fun _ h' => Still h h' (update h.datas d none)) := by
  unfold dataRelease
  cases D.operations with
  | trivial =>
      dsimp only
      by_cases hr : D.responsibility = .owned
      · rw [if_pos hr]
        refine Returns.bind (returns_allocatorFree _ h) ?_
        intro u h₁ s₁
        refine (returns_freeData d h₁).mono fun _ h₂ s₂ => ?_
        have s := s₁.trans s₂
        rwa [s₁.datas] at s
      · rw [if_neg hr]
        exact returns_freeData d h
  | mmap a off obsolete => exact returns_mmapAllocatorDataDestroy a d obsolete h

theorem returns_dataPut (d : Nat) (h : Heap) : Returns (dataPut d) h (fun _ h' =>
    ∃ D, h.datas d = some D ∧ Still h h' (update h.datas d D.put)) := by
  unfold dataPut
  refine returns_getData fun D hD => Returns.step (modify_run _) ?_
  unfold Data.put
  by_cases hz : u16Dec D.useCount = 0
  · rw [if_neg (by simpa using hz)]
    refine (returns_dataRelease d _ _).mono fun _ h' s => ⟨D, hD, ?_⟩
    refine ⟨s.pages, ?_, s.kind, s.next⟩
    rw [s.datas, if_pos hz]
    exact update_idem _ _ _
  · rw [if_pos hz]
    refine Returns.pure ⟨D, hD, rfl, ?_, rfl, Nat.le_refl _⟩
    rw [if_neg hz]
    rfl

theorem returns_dataGet (d : Nat) (h : Heap) : Returns (dataGet d) h (fun _ h' =>
    ∃ D, h.datas d = some D ∧
      Still h h' (update h.datas d (some { D with useCount := u16Inc D.useCount }))) := by
  unfold dataGet modifyData
  refine returns_getData fun D hD => Returns.of_run (modify_run _) ⟨D, hD, ?_⟩
  exact ⟨rfl, rfl, rfl, Nat.le_refl _⟩

/-! ## Steps -/

/-- The number of users recorded in a live `pb_data`. -/
def Heap.usesOf (h : Heap) (d : Nat) : Option Nat := (h.datas d).map Data.useCount

/-- What `put` leaves of the number of users. -/
def putUse (u : Nat) : Option Nat := if u16Dec u = 0 then none else some (u16Dec u)

theorem Data.map_put (D : Data) : D.put.map Data.useCount = putUse D.useCount := by
  unfold Data.put putUse
  split <;> rfl

theorem Heap.usesOf_update {f : Nat → Option Data} {o : Option Data}
    (hf : h'.datas = update f d o) :
    h'.usesOf = update (fun e => (f e).map Data.useCount) d (o.map Data.useCount) := by
  funext e
  unfold usesOf
  rw [hf]
  rcases eq_or_ne e d with rfl | hne
  · rw [update_self, update_self]
  · rw [update_of_ne hne, update_of_ne hne]

/-- The region of a live `pb_data`. -/
def Heap.boundsOf (h : Heap) (d : Nat) : Option DataVec := (h.datas d).map Data.dataVec

theorem Heap.boundsOf_update {f : Nat → Option Data} {o : Option Data}
    (hf : h'.datas = update f d o) :
    h'.boundsOf = update (fun e => (f e).map Data.dataVec) d (o.map Data.dataVec) := by
  funext e
  unfold boundsOf
  rw [hf]
  rcases eq_or_ne e d with rfl | hne
  · rw [update_self, update_self]
  · rw [update_of_ne hne, update_of_ne hne]

/-- The one range of bytes lies in the other. -/
structure DataVec.Inside (v w : DataVec) : Prop where
  region : v.base.region = w.base.region
  start : w.base.offset ≤ v.base.offset
  stop : v.base.offset + v.len ≤ w.base.offset + w.len

theorem DataVec.Inside.refl (v : DataVec) : v.Inside v := ⟨rfl, Nat.le_refl _, Nat.le_refl _⟩

theorem DataVec.Inside.trans {u v w : DataVec} (i : u.Inside v) (j : v.Inside w) : u.Inside w :=
  ⟨i.region.trans j.region, Nat.le_trans j.start i.start, Nat.le_trans i.stop j.stop⟩

/-- The restrictions under which a run is considered: which part of a page, by
its length, an offset and a length, may be shared while its data has how many
users, and what page may be split at which offset while its data has how many. -/
structure Allowance where
  share : Nat → Nat → Nat → Nat → Prop
  split : Nat → Nat → Nat → Prop

/-- A heap with its rings and the pages that are not linked yet. -/
structure Layout where
  heap : Heap
  rings : Nat → List Nat
  flight : List Nat

/-- The bytes of the pages, their data and the recorded users have become the
given ones. Data that is left has kept its region. -/
structure Change (h h' : Heap) (vec : Nat → DataVec) (data uses : Nat → Option Nat) : Prop where
  vec : h'.vecOf = vec
  data : h'.dataOf = data
  uses : h'.usesOf = uses
  bounds : ∀ d, d < h.next → h'.boundsOf d = none ∨ h'.boundsOf d = h.boundsOf d
  kind : h'.kindOf = h.kindOf
  next : h.next ≤ h'.next

theorem Heap.lenOf_update {v : DataVec} (hv : h'.vecOf = update h.vecOf x v) :
    h'.lenOf = update h.lenOf x v.len := by
  funext p
  rw [lenOf, hv]
  rcases eq_or_ne p x with rfl | hne
  · rw [update_self, update_self]
  · rw [update_of_ne hne, update_of_ne hne, lenOf]

section Change

variable {data uses : Nat → Option Nat}

theorem Change.len_same (c : Change h h' h.vecOf data uses) : h'.lenOf = h.lenOf := by
  funext p
  rw [Heap.lenOf, c.vec, Heap.lenOf]

theorem Change.len_update {v : DataVec} (c : Change h h' (update h.vecOf x v) data uses) :
    h'.lenOf = update h.lenOf x v.len :=
  Heap.lenOf_update c.vec

theorem Change.len_split {y : Nat} {v w : DataVec}
    (c : Change h h' (update (update h.vecOf y v) x w) data uses) :
    h'.lenOf = update (update h.lenOf y v.len) x w.len := by
  funext p
  rw [Heap.lenOf, c.vec]
  rcases eq_or_ne p x with rfl | hne
  · rw [update_self, update_self]
  · rw [update_of_ne hne, update_of_ne hne]
    rcases eq_or_ne p y with rfl | hne'
    · rw [update_self, update_self]
    · rw [update_of_ne hne', update_of_ne hne', Heap.lenOf]

end Change

/-- **The steps** that operations are made of. -/
inductive PageEffect (G : Allowance) : Layout → Layout → Prop where
  /-- Nothing happens to pages. Data that was just made may be gone again. -/
  | quiet {h h' : Heap} {R : Nat → List Nat} {F : List Nat} {u : Nat → Option Nat}
      (hu : ∀ d, u d = h.usesOf d ∨ h.next ≤ d ∧ u d = none)
      (c : Change h h' h.vecOf h.dataOf u) : PageEffect G ⟨h, R, F⟩ ⟨h', R, F⟩
  /-- A new page with data of its own. -/
  | own {h h' : Heap} {R : Nat → List Nat} {F : List Nat} {x d : Nat} {v : DataVec}
      (hx : h.next ≤ x) (hx' : x < h'.next) (hd : h.next ≤ d) (hd' : d < h'.next) (hn : 0 < v.len)
      (hv : h'.boundsOf d = some v)
      (c : Change h h' (update h.vecOf x v) (update h.dataOf x (some d))
        (update h.usesOf d (some 1))) : PageEffect G ⟨h, R, F⟩ ⟨h', R, x :: F⟩
  /-- A new page that shares a part of another. -/
  | share {h h' : Heap} {R : Nat → List Nat} {F : List Nat} {p x d off n u : Nat}
      (hx : h.next ≤ x) (hx' : x < h'.next)
      (hp : h.dataOf p = some d) (hu : h.usesOf d = some u) (hn : 0 < n)
      (hg : G.share (h.lenOf p) off n (h.refs d))
      (c : Change h h' (update h.vecOf x ⟨(h.vecOf p).base.add off, n⟩) (update h.dataOf x (some d))
        (update h.usesOf d (some (u16Inc u)))) : PageEffect G ⟨h, R, F⟩ ⟨h', R, x :: F⟩
  /-- A new page takes the bytes of a linked one before an offset. -/
  | split {h h' : Heap} {R : Nat → List Nat} {F : List Nat} {b it y d off u : Nat}
      {k₁ k₂ : List Nat} (hb : (h.buffers b).isSome) (hR : R b = k₁ ++ it :: k₂)
      (hy : h.next ≤ y) (hy' : y < h'.next)
      (hd : h.dataOf it = some d) (hu : h.usesOf d = some u) (hpos : 0 < off)
      (hle : off ≤ h.lenOf it) (hg : G.split (h.lenOf it) off (h.refs d))
      (c : Change h h' (update (update h.vecOf y ⟨(h.vecOf it).base, off⟩) it
        ⟨(h.vecOf it).base.add off, h.lenOf it - off⟩) (update h.dataOf y (some d)) (update h.usesOf d (some (u16Inc u)))) :
      PageEffect G ⟨h, R, F⟩ ⟨h', update R b (k₁ ++ y :: it :: k₂), F⟩
  /-- A page is linked at a cut of a ring. -/
  | link {h h' : Heap} {R : Nat → List Nat} {F : List Nat} {b x : Nat} {l₁ l₂ : List Nat}
      (hR : R b = l₁ ++ l₂) (c : Change h h' h.vecOf h.dataOf h.usesOf) :
      PageEffect G ⟨h, R, x :: F⟩ ⟨h', update R b (l₁ ++ x :: l₂), F⟩
  /-- A page that is not linked is destroyed. -/
  | destroy {h h' : Heap} {R : Nat → List Nat} {F : List Nat} {x d u : Nat}
      (hd : h.dataOf x = some d) (hu : h.usesOf d = some u)
      (c : Change h h' (update h.vecOf x ⟨Ptr.null, 0⟩) (update h.dataOf x none)
        (update h.usesOf d (putUse u))) : PageEffect G ⟨h, R, x :: F⟩ ⟨h', R, F⟩
  /-- A linked page is shortened. -/
  | shrink {h h' : Heap} {R : Nat → List Nat} {F : List Nat} {b p : Nat} {v : DataVec}
      (hb : (h.buffers b).isSome) (hp : p ∈ R b) (hn : 0 < v.len) (hv : v.Inside (h.vecOf p))
      (c : Change h h' (update h.vecOf p v) h.dataOf h.usesOf) :
      PageEffect G ⟨h, R, F⟩ ⟨h', R, F⟩
  /-- A page is unlinked and destroyed. -/
  | drop {h h' : Heap} {R : Nat → List Nat} {F : List Nat} {b p d u : Nat}
      {l₁ l₂ : List Nat} (hb : (h.buffers b).isSome) (hR : R b = l₁ ++ p :: l₂)
      (hd : h.dataOf p = some d) (hu : h.usesOf d = some u)
      (c : Change h h' (update h.vecOf p ⟨Ptr.null, 0⟩) (update h.dataOf p none)
        (update h.usesOf d (putUse u))) :
      PageEffect G ⟨h, R, F⟩ ⟨h', update R b (l₁ ++ l₂), F⟩
  /-- A linked page gets data of its own. -/
  | dup {h h' : Heap} {R : Nat → List Nat} {F : List Nat} {b p d e u : Nat} {v : DataVec}
      (hb : (h.buffers b).isSome) (hp : p ∈ R b)
      (hd : h.dataOf p = some e) (hu : h.usesOf e = some u) (hne : e ≠ d) (hd' : h.next ≤ d)
      (hd'' : d < h'.next) (hlen : v.len = h.lenOf p) (hv : h'.boundsOf d = some v)
      (c : Change h h' (update h.vecOf p v) (update h.dataOf p (some d))
        (update (update h.usesOf e (putUse u)) d (some 1))) :
      PageEffect G ⟨h, R, F⟩ ⟨h', R, F⟩

/-- A step, after which the rings are rings again. -/
structure PageStep (G : Allowance) (c c' : Layout) : Prop where
  effect : PageEffect G c c'
  links : Links c'.heap c'.rings c'.flight

def PageSteps (G : Allowance) : Layout → Layout → Prop := Relation.ReflTransGen (PageStep G)

/-- A step is allowed by whatever allows more. -/
theorem PageStep.mono {G G' : Allowance} {c c' : Layout} (s : PageStep G c c')
    (hshare : ∀ len off n k, G.share len off n k → G'.share len off n k)
    (hsplit : ∀ len off k, G.split len off k → G'.split len off k) : PageStep G' c c' := by
  obtain ⟨e, hl⟩ := s
  refine ⟨?_, hl⟩
  cases e with
  | quiet hu c => exact .quiet hu c
  | own hx hx' hd hd' hn hv c => exact .own hx hx' hd hd' hn hv c
  | share hx hx' hp hu hn hg c => exact .share hx hx' hp hu hn (hshare _ _ _ _ hg) c
  | split hb hR hy hy' hd hu hpos hle hg c =>
      exact .split hb hR hy hy' hd hu hpos hle (hsplit _ _ _ hg) c
  | link hR c => exact .link hR c
  | destroy hd hu c => exact .destroy hd hu c
  | shrink hb hp hn hv c => exact .shrink hb hp hn hv c
  | drop hb hR hd hu c => exact .drop hb hR hd hu c
  | dup hb hp hd hu hne hd' hd'' hlen hv c => exact .dup hb hp hd hu hne hd' hd'' hlen hv c

/-- What the steps rely on: the rings, `page_end` without data or bytes, and
data that is older than what is to come. -/
structure Footing (h : Heap) (R : Nat → List Nat) (F : List Nat) : Prop where
  links : Links h R F
  sentinel : ∀ {b}, (h.buffers b).isSome → h.dataOf b = none ∧ h.lenOf b = 0
  born : ∀ {p d}, h.dataOf p = some d → d < h.next

section Footing

variable {G : Allowance} {c c' : Layout}

theorem PageEffect.kind (e : PageEffect G c c') : c'.heap.kindOf = c.heap.kindOf := by
  cases e <;> exact Change.kind ‹_›

theorem PageEffect.next (e : PageEffect G c c') : c.heap.next ≤ c'.heap.next := by
  cases e <;> exact Change.next ‹_›

/-- Pages outside the rings and the flight have no data. -/
theorem Links.dataOf_none (hl : Links h R F) (hx : h.next ≤ x) : h.dataOf x = none := by
  refine Heap.dataOf_of_none ?_
  by_contra hn
  have := hl.fresh (Option.isSome_iff_ne_none.mpr hn)
  omega

theorem Footing.step (ft : Footing c.heap c.rings c.flight) (s : PageStep G c c') :
    Footing c'.heap c'.rings c'.flight := by
  obtain ⟨e, hl⟩ := s
  have hbuf : ∀ b, (c'.heap.buffers b).isSome → (c.heap.buffers b).isSome := by
    intro b hb
    rwa [Heap.buffers_isSome_congr e.kind] at hb
  have hnext := e.next
  refine ⟨hl, ?_, ?_⟩
  · intro b hb
    have hold := ft.sentinel (hbuf b hb)
    have hlt := ft.links.buffer_fresh (hbuf b hb)
    -- no step gives data or bytes to a page_end
    have hring : ∀ {c' p}, p ∈ c.rings c' → b ≠ p := by
      rintro c' p hp rfl
      have := hbuf b hb
      simp [ft.links.page hp] at this
    have hflight : ∀ {p}, p ∈ c.flight → b ≠ p := by
      rintro p hp rfl
      have := hbuf b hb
      simp [(ft.links.apart hp).1] at this
    cases e with
    | quiet _ ch => rw [ch.data, ch.len_same]; exact hold
    | own hx _ _ _ _ _ ch =>
        have hne : b ≠ _ := Nat.ne_of_lt (Nat.lt_of_lt_of_le hlt hx)
        rw [ch.data, ch.len_update, update_of_ne hne, update_of_ne hne]
        exact hold
    | share hx _ _ _ _ _ ch =>
        have hne : b ≠ _ := Nat.ne_of_lt (Nat.lt_of_lt_of_le hlt hx)
        rw [ch.data, ch.len_update, update_of_ne hne, update_of_ne hne]
        exact hold
    | split _ hR hy _ _ _ _ _ _ ch =>
        have hne : b ≠ _ := Nat.ne_of_lt (Nat.lt_of_lt_of_le hlt hy)
        have hit : b ≠ _ := hring (mem_cut hR)
        rw [ch.data, ch.len_split, update_of_ne hne, update_of_ne hit, update_of_ne hne]
        exact hold
    | link _ ch => rw [ch.data, ch.len_same]; exact hold
    | destroy _ _ ch =>
        have hne : b ≠ _ := hflight List.mem_cons_self
        rw [ch.data, ch.len_update, update_of_ne hne, update_of_ne hne]
        exact hold
    | shrink _ hp _ _ ch =>
        rw [ch.data, ch.len_update, update_of_ne (hring hp)]
        exact hold
    | drop _ hR _ _ ch =>
        have hne : b ≠ _ := hring (mem_cut hR)
        rw [ch.data, ch.len_update, update_of_ne hne, update_of_ne hne]
        exact hold
    | dup _ hp _ _ _ _ _ _ _ ch =>
        rw [ch.data, ch.len_update, update_of_ne (hring hp), update_of_ne (hring hp)]
        exact hold
  · intro p d hd
    have hold : c.heap.dataOf p = some d → d < c'.heap.next :=
      fun h => Nat.lt_of_lt_of_le (ft.born h) hnext
    -- a page with other data than before has either new data or that of another page
    have hupd : ∀ {x o}, c'.heap.dataOf = update c.heap.dataOf x o →
        (o = some d → d < c'.heap.next) → d < c'.heap.next := by
      intro x o he ho
      rw [he] at hd
      rcases eq_or_ne p x with rfl | hne
      · rw [update_self] at hd
        exact ho hd
      · rw [update_of_ne hne] at hd
        exact hold hd
    cases e with
    | quiet _ ch => rw [ch.data] at hd; exact hold hd
    | own _ _ _ hd' _ _ ch => exact hupd ch.data (fun he => by cases he; exact hd')
    | share _ _ hp _ _ _ ch =>
        refine hupd ch.data (fun he => ?_)
        cases he
        exact Nat.lt_of_lt_of_le (ft.born hp) hnext
    | split _ _ _ _ hp _ _ _ _ ch =>
        refine hupd ch.data (fun he => ?_)
        cases he
        exact Nat.lt_of_lt_of_le (ft.born hp) hnext
    | link _ ch => rw [ch.data] at hd; exact hold hd
    | destroy _ _ ch => exact hupd ch.data (fun he => by cases he)
    | shrink _ _ _ _ ch => rw [ch.data] at hd; exact hold hd
    | drop _ _ _ _ ch => exact hupd ch.data (fun he => by cases he)
    | dup _ _ _ _ _ _ hd' _ _ ch => exact hupd ch.data (fun he => by cases he; exact hd')

/-- **Invariants**: what every step keeps holds after all steps. -/
theorem PageSteps.invariant {I : Layout → Prop} (s : PageSteps G c c')
    (ft : Footing c.heap c.rings c.flight) (hc : I c)
    (hstep : ∀ a a', Footing a.heap a.rings a.flight → I a → PageStep G a a' → I a') :
    I c' ∧ Footing c'.heap c'.rings c'.flight := by
  induction s with
  | refl => exact ⟨hc, ft⟩
  | tail _ hs ih => exact ⟨hstep _ _ ih.2 ih.1 hs, ih.2.step hs⟩

theorem PageSteps.footing (s : PageSteps G c c') (ft : Footing c.heap c.rings c.flight) :
    Footing c'.heap c'.rings c'.flight :=
  (s.invariant (I := fun _ => True) ft trivial (fun _ _ _ _ _ => trivial)).2

theorem PageSteps.kind (s : PageSteps G c c') : c'.heap.kindOf = c.heap.kindOf := by
  induction s with
  | refl => rfl
  | tail _ hs ih => exact hs.effect.kind.trans ih

end Footing

/-! ## Pages that are held -/

/-- The page is in a ring or about to be linked. -/
def Layout.Holds (c : Layout) (p : Nat) : Prop := (∃ b, p ∈ c.rings b) ∨ p ∈ c.flight

/-- What a step has left of a page that is held after it: it has bytes, or as
many as before, or what a split left of it; and it has data, or the same as
before. -/
structure Held (G : Allowance) (c c' : Layout) (q : Nat) : Prop where
  len : 0 < c'.heap.lenOf q ∨ (c.Holds q ∧ c'.heap.lenOf q = c.heap.lenOf q) ∨
    ∃ off k, G.split (c.heap.lenOf q) off k ∧ c'.heap.lenOf q = c.heap.lenOf q - off
  data : (c'.heap.dataOf q).isSome ∨ (c.Holds q ∧ c'.heap.dataOf q = c.heap.dataOf q)

section Held

variable {G : Allowance} {c c' : Layout} {q : Nat}

theorem Layout.Holds.of_ring {l : List Nat} (hR : R b = l) (hq : q ∈ l) :
    Layout.Holds ⟨h, R, F⟩ q := by
  refine .inl ⟨b, ?_⟩
  show q ∈ R b
  rwa [hR]

/-- What is in the rings after one has changed. -/
theorem holds_update {l : List Nat} (hq : Layout.Holds ⟨h', update R b l, F⟩ q) :
    q ∈ l ∨ (∃ c, c ≠ b ∧ q ∈ R c) ∨ q ∈ F := by
  rcases hq with ⟨c, hc⟩ | hF
  · have hc' : q ∈ update R b l c := hc
    rcases eq_or_ne c b with rfl | hne
    · rw [update_self] at hc'
      exact .inl hc'
    · rw [update_of_ne hne] at hc'
      exact .inr (.inl ⟨c, hne, hc'⟩)
  · exact .inr (.inr hF)

/-- Nothing has happened to the page itself. -/
theorem Held.of_same (hq : c.Holds q) (hlen : c'.heap.lenOf q = c.heap.lenOf q)
    (hdata : c'.heap.dataOf q = c.heap.dataOf q) : Held G c c' q :=
  ⟨.inr (.inl ⟨hq, hlen⟩), .inr ⟨hq, hdata⟩⟩

/-- A new page has bytes and data. -/
theorem Held.new (hn : 0 < n) (hlen : h'.lenOf = update h.lenOf x n)
    (hdata : h'.dataOf = update h.dataOf x (some d)) (hq : Layout.Holds ⟨h', R, x :: F⟩ q) :
    Held G ⟨h, R, F⟩ ⟨h', R, x :: F⟩ q := by
  by_cases he : q = x
  · refine ⟨.inl ?_, .inl ?_⟩
    · show 0 < h'.lenOf q
      rwa [hlen, he, update_self]
    · show (h'.dataOf q).isSome
      rw [hdata, he, update_self]
      rfl
  · refine .of_same (hq.imp id fun hF => (List.mem_cons.mp hF).resolve_left he) ?_ ?_
    · show h'.lenOf q = _
      rw [hlen, update_of_ne he]
    · show h'.dataOf q = _
      rw [hdata, update_of_ne he]

/-- **What a step leaves** of the pages that are held after it. -/
theorem PageStep.held (s : PageStep G c c') (ft : Footing c.heap c.rings c.flight)
    (hq : c'.Holds q) : Held G c c' q := by
  have hl := ft.links
  cases s.effect with
  | quiet _ ch => exact .of_same hq (congrFun ch.len_same q) (congrFun ch.data q)
  | own _ _ _ _ hn _ ch => exact .new hn ch.len_update ch.data hq
  | share _ _ _ _ hn _ ch => exact .new hn ch.len_update ch.data hq
  | @split h h' R F b it y d off u k₁ k₂ hb hR hy hy' hd hu hpos hle hg ch =>
      by_cases hne : q = y
      · have hyit : y ≠ it := by
          have := hl.fresh ((hl.live it).mpr (.inr (.inl ⟨b, mem_cut hR⟩)))
          have : it < h.next := this
          omega
        refine ⟨.inl ?_, .inl ?_⟩
        · rw [ch.len_split, hne, update_of_ne hyit, update_self]
          exact hpos
        · rw [ch.data, hne, update_self]
          rfl
      · have hold : Layout.Holds ⟨h, R, F⟩ q := by
          rcases holds_update hq with hq | ⟨c, -, hq⟩ | hq
          · refine .of_ring hR ?_
            simpa [hne] using hq
          · exact .inl ⟨c, hq⟩
          · exact .inr hq
        have hdata : h'.dataOf q = h.dataOf q := by rw [ch.data, update_of_ne hne]
        refine ⟨?_, .inr ⟨hold, hdata⟩⟩
        by_cases hit : q = it
        · subst hit
          refine .inr (.inr ⟨off, _, hg, ?_⟩)
          rw [ch.len_split, update_self]
        · refine .inr (.inl ⟨hold, ?_⟩)
          rw [ch.len_split, update_of_ne hit, update_of_ne hne]
  | @link h h' R F b x l₁ l₂ hR ch =>
      refine .of_same ?_ (congrFun ch.len_same q) (congrFun ch.data q)
      rcases holds_update hq with hq | ⟨c, -, hq⟩ | hq
      · by_cases hne : q = x
        · exact .inr (List.mem_cons.mpr (.inl hne))
        · exact .of_ring hR (by simpa [hne] using hq)
      · exact .inl ⟨c, hq⟩
      · exact .inr (List.mem_cons_of_mem x hq)
  | @destroy h h' R F x d u hd hu ch =>
      have hne : q ≠ x := by
        rintro rfl
        rcases hq with ⟨c, hc⟩ | hF
        · exact (hl.apart List.mem_cons_self).2 c hc
        · exact (List.nodup_cons.mp hl.flight).1 hF
      refine .of_same (hq.imp id (List.mem_cons_of_mem x)) ?_ ?_
      · rw [ch.len_update, update_of_ne hne]
      · rw [ch.data, update_of_ne hne]
  | @shrink h h' R F b p v hb hp hn hv ch =>
      refine ⟨?_, .inr ⟨hq, congrFun ch.data q⟩⟩
      by_cases he : q = p
      · refine .inl ?_
        rw [ch.len_update, he, update_self]
        exact hn
      · refine .inr (.inl ⟨hq, ?_⟩)
        rw [ch.len_update, update_of_ne he]
  | @drop h h' R F b p d u l₁ l₂ hb hR hd hu ch =>
      have hp : p ∈ R b := mem_cut hR
      have hnd : (l₁ ++ p :: l₂).Nodup := hR ▸ hl.nodup hb
      obtain ⟨hn₁, hn₂⟩ := notMem_of_nodup_cut hnd
      have hne : q ≠ p := by
        rintro rfl
        rcases holds_update hq with hq | ⟨c, hcb, hq⟩ | hq
        · exact (List.mem_append.mp hq).elim hn₁ hn₂
        · exact hcb (hl.disj hq hp)
        · exact (hl.apart hq).2 b hp
      have hold : Layout.Holds ⟨h, R, F⟩ q := by
        rcases holds_update hq with hq | ⟨c, -, hq⟩ | hq
        · refine .of_ring hR ?_
          simp only [List.mem_append, List.mem_cons] at hq ⊢
          tauto
        · exact .inl ⟨c, hq⟩
        · exact .inr hq
      refine .of_same hold ?_ ?_
      · rw [ch.len_update, update_of_ne hne]
      · rw [ch.data, update_of_ne hne]
  | @dup h h' R F b p d e u v hb hp hd hu hne hd' hd'' hlen hv ch =>
      have hsame : h'.lenOf q = h.lenOf q := by
        rw [ch.len_update, hlen, update_eq_self]
      refine ⟨.inr (.inl ⟨hq, hsame⟩), ?_⟩
      by_cases he : q = p
      · refine .inl ?_
        rw [ch.data, he, update_self]
        rfl
      · refine .inr ⟨hq, ?_⟩
        rw [ch.data, update_of_ne he]

/-- A page that is held after a step was held before, or is new. -/
theorem PageStep.holds (s : PageStep G c c') (hq : c'.Holds q) :
    c.Holds q ∨ c.heap.next ≤ q := by
  cases s.effect with
  | quiet _ ch => exact .inl hq
  | @own h h' R F x d v hx hx' hd hd' hn hv ch =>
      by_cases he : q = x
      · exact .inr (he ▸ hx)
      · exact .inl (hq.imp id fun hF => (List.mem_cons.mp hF).resolve_left he)
  | @share h h' R F p x d off n u hx hx' hp hu hn hg ch =>
      by_cases he : q = x
      · exact .inr (he ▸ hx)
      · exact .inl (hq.imp id fun hF => (List.mem_cons.mp hF).resolve_left he)
  | @split h h' R F b it y d off u k₁ k₂ hb hR hy hy' hd hu hpos hle hg ch =>
      by_cases he : q = y
      · exact .inr (he ▸ hy)
      · left
        rcases holds_update hq with hq | ⟨c, -, hq⟩ | hq
        · refine .of_ring hR ?_
          simpa [he] using hq
        · exact .inl ⟨c, hq⟩
        · exact .inr hq
  | @link h h' R F b x l₁ l₂ hR ch =>
      left
      rcases holds_update hq with hq | ⟨c, -, hq⟩ | hq
      · by_cases he : q = x
        · exact .inr (List.mem_cons.mpr (.inl he))
        · exact .of_ring hR (by simpa [he] using hq)
      · exact .inl ⟨c, hq⟩
      · exact .inr (List.mem_cons_of_mem x hq)
  | @destroy h h' R F x d u hd hu ch => exact .inl (hq.imp id (List.mem_cons_of_mem x))
  | shrink _ _ _ _ ch => exact .inl hq
  | @drop h h' R F b p d u l₁ l₂ hb hR hd hu ch =>
      left
      rcases holds_update hq with hq | ⟨c, -, hq⟩ | hq
      · refine .of_ring hR ?_
        simp only [List.mem_append, List.mem_cons] at hq ⊢
        tauto
      · exact .inl ⟨c, hq⟩
      · exact .inr hq
  | dup _ _ _ _ _ _ _ _ _ ch => exact .inl hq

end Held

end Pb
