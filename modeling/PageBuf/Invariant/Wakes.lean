import PageBuf.Invariant.Bookkeeping

/-!
# Wakes — what bytes in an empty mmap buffer cost

Two relations between states, seen from an mmap buffer `b` and its allocator
`a`. `Stays`: they are what they were, or gone, and the revision has not gone
back. `Wakes`: moreover, while the revision has not moved, an empty buffer is
still empty. Nearly every function of the library stays within both, whatever
the state it is called in and however its requests are answered, since it
touches neither the length of a file nor a head.
-/

namespace Pb

open StateRun Function

variable {env : Env} {h h' h'' : Heap} {a b c d p : Nat}

/-! ## The two relations -/

/-- The file of the allocator has no bytes behind its head. -/
def Heap.Vacant (h : Heap) (a : Nat) : Prop :=
  ∀ A fd, h.mmapAllocators a = some A → A.fileFd = some fd →
    (h.files fd.file).length ≤ A.fileHeadOffset

/-- Buffer and allocator are what they were, if they are still there. -/
structure Stays (b a : Nat) (h h' : Heap) : Prop where
  next : h.next ≤ h'.next
  buffer : ∀ {B'}, b < h.next → h'.buffers b = some B' → ∃ B, h.buffers b = some B ∧
    B'.operations = B.operations ∧ B.dataRevision ≤ B'.dataRevision
  allocator : ∀ {A'}, a < h.next → h'.mmapAllocators a = some A' →
    ∃ A, h.mmapAllocators a = some A ∧ A'.fileFd = A.fileFd

/-- And bytes in an empty buffer have moved its revision. -/
structure Wakes (b a : Nat) (h h' : Heap) : Prop extends Stays b a h h' where
  vacant : ∀ {B B'}, b < h.next → a < h.next → h.buffers b = some B → h'.buffers b = some B' →
    B'.dataRevision = B.dataRevision → h.Vacant a → h'.Vacant a

theorem Stays.refl (b a : Nat) (h : Heap) : Stays b a h h :=
  ⟨Nat.le_refl _, fun _ hB => ⟨_, hB, rfl, Nat.le_refl _⟩, fun _ hA => ⟨_, hA, rfl⟩⟩

theorem Stays.trans (s : Stays b a h h') (s' : Stays b a h' h'') : Stays b a h h'' where
  next := Nat.le_trans s.next s'.next
  buffer := fun hlt hB => by
    obtain ⟨B', hB', hop', hle'⟩ := s'.buffer (Nat.lt_of_lt_of_le hlt s.next) hB
    obtain ⟨B, hB, hop, hle⟩ := s.buffer hlt hB'
    exact ⟨B, hB, hop'.trans hop, Nat.le_trans hle hle'⟩
  allocator := fun hlt hA => by
    obtain ⟨A', hA', hfd'⟩ := s'.allocator (Nat.lt_of_lt_of_le hlt s.next) hA
    obtain ⟨A, hA, hfd⟩ := s.allocator hlt hA'
    exact ⟨A, hA, hfd'.trans hfd⟩

theorem Wakes.refl (b a : Nat) (h : Heap) : Wakes b a h h :=
  ⟨.refl b a h, fun _ _ _ _ _ hv => hv⟩

/-- The revision of the state between stands if that of the last does. -/
theorem Wakes.trans (w : Wakes b a h h') (w' : Wakes b a h' h'') : Wakes b a h h'' where
  toStays := w.toStays.trans w'.toStays
  vacant := fun {B B''} hb ha hB hB'' hrev hv => by
    have hb' := Nat.lt_of_lt_of_le hb w.next
    obtain ⟨B', hB', -, hle'⟩ := w'.buffer hb' hB''
    obtain ⟨B₀, hB₀, -, hle⟩ := w.buffer hb hB'
    rw [hB] at hB₀
    cases hB₀
    have hmid := w.vacant hb ha hB hB' (by omega) hv
    exact w'.vacant hb' (Nat.lt_of_lt_of_le ha w.next) hB' hB'' (by omega) hmid

instance : Std.Refl (Stays b a) := ⟨Stays.refl b a⟩

instance : IsTrans Heap (Stays b a) := ⟨fun _ _ _ => Stays.trans⟩

/-- A buffer whose revision has moved may have got bytes. -/
theorem Stays.wakes (s : Stays b a h h')
    (hlt : ∀ {B B'}, h.buffers b = some B → h'.buffers b = some B' →
      B'.dataRevision ≠ B.dataRevision) : Wakes b a h h' :=
  ⟨s, fun _ _ hB hB' hrev _ => absurd hrev (hlt hB hB')⟩

/-! ## Updates of the heap -/

/-- Nothing that matters has changed but the length of no file. -/
theorem Wakes.of_rest (hn : h.next ≤ h'.next) (hb : h'.buffers = h.buffers)
    (ha : h'.mmapAllocators = h.mmapAllocators)
    (hf : ∀ k, (h'.files k).length = (h.files k).length) : Wakes b a h h' where
  next := hn
  buffer := fun _ hB => ⟨_, hb ▸ hB, rfl, Nat.le_refl _⟩
  allocator := fun _ hA => ⟨_, ha ▸ hA, rfl⟩
  vacant := fun _ _ _ _ _ hv A fd hA hfd => by
    rw [hf]
    exact hv A fd (ha ▸ hA) hfd

theorem Wakes.setBuffer {B B' : Buffer} (hB : h.buffers c = some B)
    (hop : B'.operations = B.operations) (hle : B.dataRevision ≤ B'.dataRevision) :
    Wakes b a h (h.setBuffer c (some B')) where
  next := Nat.le_refl _
  buffer := fun {B''} _ hB'' => by
    rcases eq_or_ne b c with rfl | hne
    · simp only [Heap.setBuffer, update_self] at hB''
      cases hB''
      exact ⟨B, hB, hop, hle⟩
    · simp only [Heap.setBuffer, update_of_ne hne] at hB''
      exact ⟨B'', hB'', rfl, Nat.le_refl _⟩
  allocator := fun _ hA => ⟨_, hA, rfl⟩
  vacant := fun _ _ _ _ _ hv => hv

/-- An allocator with other fields, but with its file and its head. -/
theorem Wakes.setMmapAllocator {A A' : MmapAllocator} (hA : h.mmapAllocators c = some A)
    (hfd : A'.fileFd = A.fileFd) (hhead : A'.fileHeadOffset = A.fileHeadOffset) :
    Wakes b a h (h.setMmapAllocator c (some A')) where
  next := Nat.le_refl _
  buffer := fun _ hB => ⟨_, hB, rfl, Nat.le_refl _⟩
  allocator := fun {A''} _ hA'' => by
    rcases eq_or_ne a c with rfl | hne
    · simp only [Heap.setMmapAllocator, update_self] at hA''
      cases hA''
      exact ⟨A, hA, hfd⟩
    · simp only [Heap.setMmapAllocator, update_of_ne hne] at hA''
      exact ⟨A'', hA'', rfl⟩
  vacant := fun _ _ _ _ _ hv A'' fd hA'' hfd'' => by
    rcases eq_or_ne a c with rfl | hne
    · simp only [Heap.setMmapAllocator, update_self] at hA''
      cases hA''
      rw [hhead]
      exact hv A fd hA (hfd ▸ hfd'')
    · simp only [Heap.setMmapAllocator, update_of_ne hne] at hA''
      exact hv A'' fd hA'' hfd''

/-- An allocator that is gone. -/
theorem Wakes.noMmapAllocator : Wakes b a h (h.setMmapAllocator c none) where
  next := Nat.le_refl _
  buffer := fun _ hB => ⟨_, hB, rfl, Nat.le_refl _⟩
  allocator := fun {A'} _ hA => by
    rcases eq_or_ne a c with rfl | hne
    · simp only [Heap.setMmapAllocator, update_self] at hA
      cases hA
    · simp only [Heap.setMmapAllocator, update_of_ne hne] at hA
      exact ⟨A', hA, rfl⟩
  vacant := fun _ _ _ _ _ hv A' fd hA hfd => by
    rcases eq_or_ne a c with rfl | hne
    · simp only [Heap.setMmapAllocator, update_self] at hA
      cases hA
    · simp only [Heap.setMmapAllocator, update_of_ne hne] at hA
      exact hv A' fd hA hfd

/-- A buffer that is gone. -/
theorem Wakes.noBuffer (h : Heap) : Wakes b a h ((h.setBuffer c none).setPage c none) where
  next := Nat.le_refl _
  buffer := fun {B'} _ hB => by
    rcases eq_or_ne b c with rfl | hne
    · simp only [Heap.setPage, Heap.setBuffer, update_self] at hB
      cases hB
    · simp only [Heap.setPage, Heap.setBuffer, update_of_ne hne] at hB
      exact ⟨B', hB, rfl, Nat.le_refl _⟩
  allocator := fun _ hA => ⟨_, hA, rfl⟩
  vacant := fun _ _ _ _ _ hv => hv

/-- A new buffer, which is not an old one. -/
theorem Wakes.newBuffer {B' : Buffer} (hc : h.next ≤ c) : Wakes b a h (h.setBuffer c (some B'))
    where
  next := Nat.le_refl _
  buffer := fun {B''} hlt hB => by
    simp only [Heap.setBuffer, update_of_ne (show b ≠ c by omega)] at hB
    exact ⟨B'', hB, rfl, Nat.le_refl _⟩
  allocator := fun _ hA => ⟨_, hA, rfl⟩
  vacant := fun _ _ _ _ _ hv => hv

instance : Bookkeeping (Wakes b a) where
  refl := Wakes.refl b a
  trans _ _ _ := Wakes.trans
  rest hn _ hb ha hf := .of_rest hn hb ha hf
  buffer hB hop hle := .setBuffer hB hop hle
  allocator hA hfd hhead := .setMmapAllocator hA hfd hhead
  closed := .noMmapAllocator

end Pb
