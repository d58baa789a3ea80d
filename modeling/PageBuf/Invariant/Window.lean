import PageBuf.Lib.Sequence
import PageBuf.Invariant.MapBlock

/-!
# Window — the mapped part of a file

The pages of an mmap buffer show one stretch of its file. Each lies on a mapping
of its own, which starts at a multiple of 4096 and ends where the page does; a
mapping that a longer one has replaced is obsolete, and its page is followed by
one of the same block.
-/

namespace Pb

open StateRun Function Ring RefCount

variable {h h' : Heap} {R : Nat → List Nat} {F X : List Nat} {a b d e file head size : Nat}
  {fd : Fd} {k k' : Block} {ks ks' : List Block} {old : Option Nat}

/-! ## Blocks -/

/-- A page of the buffer with its data and mapping: it shows the file from `start` on, to the end
of the mapping of `len` bytes at `offset`. -/
structure Block where
  page : Nat
  data : Nat
  mapping : Nat
  offset : Nat
  len : Nat
  start : Nat
  obsolete : Bool
deriving DecidableEq, Repr

namespace Block

/-- Where in the file the block ends. -/
def stop (k : Block) : Nat := k.offset + k.len

/-- The mapping is of one block of a file of `size` bytes, and the page begins in it. -/
structure Fits (k : Block) (size : Nat) : Prop where
  offset : k.offset = mmapOffsetOf k.start
  len : k.len ≤ mmapBaseSize
  start : k.start < k.stop
  stop : k.stop ≤ size

/-- The block behind. -/
structure Before (k k' : Block) : Prop where
  start : k'.start = k.stop
  obsolete : k'.offset = k.offset → k.obsolete = true

/-- The block, obsolete if its data is what has been replaced. -/
def replaced (old : Option Nat) (k : Block) : Block :=
  if old = some k.data then { k with obsolete := true } else k

@[simp] theorem page_replaced : (k.replaced old).page = k.page := by
  unfold replaced
  split <;> rfl

@[simp] theorem data_replaced : (k.replaced old).data = k.data := by
  unfold replaced
  split <;> rfl

@[simp] theorem start_replaced : (k.replaced old).start = k.start := by
  unfold replaced
  split <;> rfl

@[simp] theorem offset_replaced : (k.replaced old).offset = k.offset := by
  unfold replaced
  split <;> rfl

@[simp] theorem stop_replaced : (k.replaced old).stop = k.stop := by
  unfold replaced
  split <;> rfl

@[simp] theorem len_replaced : (k.replaced old).len = k.len := by
  unfold replaced
  split <;> rfl

@[simp] theorem replaced_none : replaced none = id := by
  funext k
  exact if_neg (by simp)

theorem obsolete_replaced (ho : k.obsolete = true) : (k.replaced old).obsolete = true := by
  unfold replaced
  split
  · rfl
  · exact ho

theorem Fits.replaced (hf : k.Fits size) : (k.replaced old).Fits size := by
  obtain ⟨h₁, h₂, h₃, h₄⟩ := hf
  exact ⟨by simpa using h₁, by simpa using h₂, by simpa using h₃, by simpa using h₄⟩

theorem Fits.mono {size' : Nat} (hf : k.Fits size) (hle : size ≤ size') : k.Fits size' :=
  ⟨hf.offset, hf.len, hf.start, Nat.le_trans hf.stop hle⟩

theorem Before.replaced (hb : k.Before k') : (k.replaced old).Before (k'.replaced old) where
  start := by simpa using hb.start
  obsolete := fun he => obsolete_replaced (hb.obsolete (by simpa using he))

end Block

/-! ## Stretches -/

/-- Where the stretch of the blocks begins, `head` if there is none. -/
def startOf (ks : List Block) (head : Nat) : Nat := (ks.head?.map Block.start).getD head

/-- Where the stretch of the blocks ends, `head` if there is none. -/
def stopOf : List Block → Nat → Nat
  | [], head => head
  | k :: ks, _ => stopOf ks k.stop

@[simp] theorem startOf_nil : startOf [] head = head := rfl

@[simp] theorem startOf_cons : startOf (k :: ks) head = k.start := rfl

@[simp] theorem stopOf_nil : stopOf [] head = head := rfl

theorem stopOf_cons : stopOf (k :: ks) head = stopOf ks k.stop := rfl

@[simp] theorem stopOf_concat : stopOf (ks ++ [k]) head = k.stop := by
  induction ks generalizing head with
  | nil => rfl
  | cons k' ks ih => exact ih

@[simp] theorem startOf_replaced :
    startOf (ks.map (Block.replaced old)) head = startOf ks head := by
  cases ks <;> simp

@[simp] theorem stopOf_replaced : stopOf (ks.map (Block.replaced old)) head = stopOf ks head := by
  induction ks generalizing head with
  | nil => rfl
  | cons k ks ih => simp [stopOf_cons, ih]

/-- Blocks of a file of `size` bytes, one after the other. -/
structure Stretch (ks : List Block) (size : Nat) : Prop where
  fits : ∀ k ∈ ks, k.Fits size
  chain : ks.IsChain Block.Before

namespace Stretch

theorem nil (size : Nat) : Stretch [] size := ⟨by simp, List.isChain_nil⟩

theorem mono {size' : Nat} (s : Stretch ks size) (hle : size ≤ size') : Stretch ks size' :=
  ⟨fun k hk => (s.fits k hk).mono hle, s.chain⟩

theorem replaced (s : Stretch ks size) (old : Option Nat) :
    Stretch (ks.map (Block.replaced old)) size where
  fits := by
    intro k hk
    obtain ⟨k', hk', rfl⟩ := List.mem_map.mp hk
    exact (s.fits k' hk').replaced
  chain := (List.isChain_map _).mpr (s.chain.imp fun _ _ hb => hb.replaced)

theorem tail (s : Stretch (k :: ks) size) : Stretch ks size :=
  ⟨fun k' hk' => s.fits k' (List.mem_cons_of_mem k hk'), s.chain.tail⟩

/-- What follows a block begins where it ends. -/
theorem start_next (s : Stretch (k :: ks) size) : startOf ks k.stop = k.stop := by
  cases ks with
  | nil => rfl
  | cons k' ks => exact (List.isChain_cons_cons.mp s.chain).1.start

theorem start_le_stop (s : Stretch ks size) (head : Nat) : startOf ks head ≤ stopOf ks head := by
  induction ks generalizing head with
  | nil => exact Nat.le_refl _
  | cons k ks ih =>
      have hfit := (s.fits k List.mem_cons_self).start
      have hle := ih s.tail k.stop
      rw [s.start_next] at hle
      rw [startOf_cons, stopOf_cons]
      omega

/-- No block ends behind the stretch. -/
theorem stop_le (s : Stretch ks size) (hk : k ∈ ks) (head : Nat) : k.stop ≤ stopOf ks head := by
  induction ks generalizing head with
  | nil => cases hk
  | cons k' ks ih =>
      rw [stopOf_cons]
      rcases List.mem_cons.mp hk with rfl | hk
      · have hle := s.tail.start_le_stop k.stop
        rwa [s.start_next] at hle
      · exact ih s.tail hk _

/-- No block begins before the stretch. -/
theorem start_le (s : Stretch ks size) (hk : k ∈ ks) (head : Nat) : startOf ks head ≤ k.start := by
  induction ks generalizing head with
  | nil => cases hk
  | cons k' ks ih =>
      rw [startOf_cons]
      rcases List.mem_cons.mp hk with rfl | hk
      · exact Nat.le_refl _
      · have hfit := (s.fits k' List.mem_cons_self).start
        have hle := ih s.tail hk k'.stop
        rw [s.start_next] at hle
        omega

/-- A stretch is no longer than its blocks can be. -/
theorem length_le (s : Stretch ks size) (head : Nat) :
    stopOf ks head ≤ startOf ks head + mmapBaseSize * ks.length := by
  induction ks generalizing head with
  | nil => exact Nat.le_add_right _ _
  | cons k ks ih =>
      have hrest := ih s.tail k.stop
      have hfit := s.fits k List.mem_cons_self
      have hlen := hfit.len
      have hoff := hfit.offset
      have hle : mmapOffsetOf k.start ≤ k.start := Nat.div_mul_le_self _ _
      rw [s.start_next] at hrest
      rw [stopOf_cons, startOf_cons, List.length_cons, Nat.mul_succ]
      unfold Block.stop at *
      omega

theorem stop_le_size (s : Stretch ks size) (hhead : head ≤ size) : stopOf ks head ≤ size := by
  induction ks generalizing head with
  | nil => exact hhead
  | cons k ks ih => exact ih s.tail (s.fits k List.mem_cons_self).stop

/-- A block begins where the one before it ends. -/
theorem start_behind {l₁ l₂ : List Block} (s : Stretch (l₁ ++ k :: k' :: l₂) size) :
    k'.start = k.stop :=
  (List.isChain_append_cons_cons.mp s.chain).2.1.start

/-- Of the blocks at the offset where the stretch ends only the last one is not
obsolete. -/
theorem last_of_offset (s : Stretch ks size) (hk : k ∈ ks) (hlive : k.obsolete = false)
    (hoff : k.offset = mmapOffsetOf (stopOf ks head)) : ∃ l, ks = l ++ [k] := by
  induction ks generalizing head with
  | nil => cases hk
  | cons k' ks ih =>
      rcases List.mem_cons.mp hk with rfl | hk
      · cases ks with
        | nil => exact ⟨[], rfl⟩
        | cons k₂ ks =>
            exfalso
            -- the next block would lie at the same offset
            have hb := (List.isChain_cons_cons.mp s.chain).1
            have hfit := s.fits k List.mem_cons_self
            have hfit₂ := s.tail.fits k₂ List.mem_cons_self
            have hle := s.tail.stop_le List.mem_cons_self k.stop
            rw [stopOf_cons] at hoff
            have hsame : k₂.offset = k.offset := by
              have h₁ := hfit.start
              have h₂ := hfit₂.start
              have h₃ := hb.start
              rw [hfit₂.offset]
              simp only [mmapOffsetOf, mmapBaseSize] at hoff ⊢
              unfold Block.stop at *
              omega
            rw [hb.obsolete hsame] at hlive
            cases hlive
      · obtain ⟨l, rfl⟩ := ih s.tail hk hoff
        exact ⟨k' :: l, rfl⟩

/-- Of the blocks at one offset one is not obsolete. -/
theorem offset_unique (s : Stretch ks size) (hk : k ∈ ks) (hk' : k' ∈ ks)
    (hlive : k.obsolete = false) (hlive' : k'.obsolete = false) (hoff : k.offset = k'.offset) :
    k = k' := by
  induction ks with
  | nil => cases hk
  | cons k₁ ks ih =>
      -- a first block that is not obsolete is the only one at its offset
      have hfirst : ∀ {c}, c ∈ ks → k₁.obsolete = false → k₁.offset ≠ c.offset := by
        intro c hc hcur hsame
        cases ks with
        | nil => cases hc
        | cons k₂ ks =>
            have hb := (List.isChain_cons_cons.mp s.chain).1
            have hfit := s.fits k₁ List.mem_cons_self
            have hfit₂ := s.tail.fits k₂ List.mem_cons_self
            have hfitc := s.tail.fits c hc
            have hle := s.tail.start_le hc 0
            rw [startOf_cons] at hle
            have hnext : k₂.offset = k₁.offset := by
              have h₁ := hfit.start
              have h₂ := hb.start
              have h₃ := hfit.offset
              have h₄ := hfitc.offset
              rw [hfit₂.offset]
              simp only [mmapOffsetOf, mmapBaseSize] at h₃ h₄ ⊢
              omega
            rw [hb.obsolete hnext] at hcur
            cases hcur
      rcases List.mem_cons.mp hk with rfl | hin
      · rcases List.mem_cons.mp hk' with rfl | hin'
        · rfl
        · exact absurd hoff (hfirst hin' hlive)
      · rcases List.mem_cons.mp hk' with rfl | hin'
        · exact absurd hoff.symm (hfirst hin hlive')
        · exact ih s.tail hin hin'

/-- A block behind the stretch. -/
theorem append (s : Stretch ks size) (hfit : k.Fits size) (hstart : k.start = stopOf ks head)
    (hlast : ∀ l k', ks = l ++ [k'] → k.offset = k'.offset → k'.obsolete = true) :
    Stretch (ks ++ [k]) size where
  fits := by
    intro k' hk'
    rcases List.mem_append.mp hk' with hk' | hk'
    · exact s.fits k' hk'
    · rw [List.mem_singleton.mp hk']
      exact hfit
  chain := by
    refine List.isChain_append.mpr ⟨s.chain, List.isChain_singleton k, ?_⟩
    intro k' hk' k₂ hk₂
    obtain rfl : k = k₂ := by simpa using hk₂
    obtain ⟨l, rfl⟩ := List.getLast?_eq_some_iff.mp hk'
    exact ⟨by rw [hstart, stopOf_concat], hlast l k' rfl⟩

/-- A block before the stretch, which begins with a block of its own. -/
theorem cons (s : Stretch ks size) (head : Nat) (hfit : k.Fits size)
    (hfront : ks ≠ [] → k.stop = startOf ks head ∧ k.len = mmapBaseSize) :
    Stretch (k :: ks) size where
  fits := by
    intro k' hk'
    rcases List.mem_cons.mp hk' with rfl | hk'
    · exact hfit
    · exact s.fits k' hk'
  chain := by
    cases ks with
    | nil => exact List.isChain_singleton k
    | cons k' ks =>
        obtain ⟨hstop, hlen⟩ := hfront (by simp)
        refine List.isChain_cons_cons.mpr ⟨⟨hstop.symm, fun he => ?_⟩, s.chain⟩
        have hoff := (s.fits k' List.mem_cons_self).offset
        have hoff' := hfit.offset
        rw [startOf_cons] at hstop
        rw [← hstop] at hoff
        unfold Block.stop at hoff
        simp only [mmapOffsetOf, mmapBaseSize] at *
        omega

end Stretch

/-! ## What the heap shows -/

/-- The page, its data and its mapping are those of the block. -/
structure Heap.Shows (h : Heap) (a file : Nat) (k : Block) : Prop where
  data : h.dataOf k.page = some k.data
  shape : h.shapeOf k.data = some ⟨⟨⟨.mapped k.mapping, 0⟩, k.len⟩, .owned,
    .mmap a k.offset k.obsolete⟩
  mapping : h.mappings k.mapping = some ⟨file, k.offset, k.len⟩
  vec : h.vecOf k.page = ⟨⟨.mapped k.mapping, k.start - k.offset⟩, k.stop - k.start⟩

namespace Heap.Shows

theorem lenOf (hk : h.Shows a file k) : h.lenOf k.page = k.stop - k.start := by
  rw [Heap.lenOf, hk.vec]

/-- The bytes of the page are those of the file. -/
theorem pageBytes (hk : h.Shows a file k) (hfit : k.Fits (h.files file).length) :
    h.pageBytes k.page = ((h.files file).take k.stop).drop k.start := by
  have hstop := hfit.stop
  have hstart := hfit.start
  have hoff : k.offset ≤ k.start := by
    rw [hfit.offset]
    exact Nat.div_mul_le_self _ _
  refine List.ext_getElem ?_ fun i hi hi' => ?_
  · rw [Heap.length_pageBytes, hk.lenOf, List.length_drop, List.length_take]
    omega
  · rw [Heap.length_pageBytes, hk.lenOf] at hi
    have hlen : k.stop - k.start = (h.vecOf k.page).len := by rw [hk.vec]
    simp only [Heap.pageBytes, Heap.bytes, Heap.lenOf, hk.vec, List.getElem_map, List.getElem_range,
      Heap.byteAt, hk.mapping, List.getElem_drop, List.getElem_take]
    rw [List.getD_eq_getElem?_getD, show k.offset + (k.start - k.offset + i) = k.start + i by omega,
      List.getElem?_eq_getElem (by omega)]
    rfl

end Heap.Shows

/-- The blocks show the stretch of the file. -/
theorem flat_stretch (hshows : ∀ k ∈ ks, h.Shows a file k)
    (s : Stretch ks (h.files file).length) (head : Nat) : h.flat (ks.map Block.page)
      = ((h.files file).take (stopOf ks head)).drop (startOf ks head) := by
  induction ks generalizing head with
  | nil => simp
  | cons k ks ih =>
      have hrest := ih (fun k' hk' => hshows k' (List.mem_cons_of_mem k hk')) s.tail k.stop
      have hfit := s.fits k List.mem_cons_self
      have hle := s.tail.start_le_stop k.stop
      rw [s.start_next] at hrest hle
      rw [List.map_cons, Heap.flat_cons, hrest, (hshows k List.mem_cons_self).pageBytes hfit,
        stopOf_cons, startOf_cons]
      exact Sequence.stretch_join _ (Nat.le_of_lt hfit.start) hle

/-- **The window** of the mmap buffer `b`, the only buffer there is: its pages are the blocks `ks`,
the first of which begins where the buffer does or at a block of the file. -/
structure Maps (h : Heap) (R : Nat → List Nat) (b a : Nat) (fd : Fd) (head : Nat)
    (ks : List Block) : Prop where
  inv : Inv h R
  opened : Opened h b a fd head
  alone : ∀ e, e ≠ b → h.buffers e = none
  ring : R b = ks.map Block.page
  shows : ∀ k ∈ ks, h.Shows a fd.file k
  once : (ks.map Block.data).Nodup
  stretch : Stretch ks (h.files fd.file).length
  first : startOf ks head = head ∨ head < startOf ks head ∧ mmapBaseSize ∣ startOf ks head

namespace Maps

variable (m : Maps h R b a fd head ks)

include m

/-- A page of the heap is the buffer's end or one of its blocks. -/
theorem page_of_data {p d : Nat} (hp : h.dataOf p = some d) : ∃ k ∈ ks, k.page = p ∧ k.data = d := by
  have hc := m.inv.core
  have hlive : (h.pages p).isSome := by
    by_contra hn
    rw [Heap.dataOf_of_none (Option.not_isSome_iff_eq_none.mp hn)] at hp
    cases hp
  rcases (hc.links.live p).mp hlive with hb | ⟨e, he⟩ | hF
  · rw [(hc.views.sentinel hb).1] at hp
    cases hp
  · have heb : e = b := by
      by_contra hne
      rw [hc.links.dead (m.alone e hne)] at he
      cases he
    rw [heb, m.ring] at he
    obtain ⟨k, hk, rfl⟩ := List.mem_map.mp he
    refine ⟨k, hk, rfl, ?_⟩
    rw [(m.shows k hk).data] at hp
    exact Option.some.inj hp
  · cases hF

/-- Data is there for a page. -/
theorem block_of_data {s : Shape} (hs : h.shapeOf d = some s) : ∃ k ∈ ks, k.data = d := by
  have hpos := (m.inv.core.objs.live d).mp (by rw [hs]; rfl)
  have hrefs : 0 < h.refs d := by simpa [Heap.count] using hpos
  obtain ⟨p, -, hp⟩ := holders_pos_iff.mp hrefs
  obtain ⟨k, hk, -, hd⟩ := m.page_of_data hp
  exact ⟨k, hk, hd⟩

end Maps

end Pb
