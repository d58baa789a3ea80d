import PageBuf.Lib.Sequence

/-!
# FlatFile — a file with a head

The abstract data type behind a buffer over a file: the items of the file and a
place in it, up to which nothing is seen. The file grows at its end; the head
moves in both directions and hides or shows again what it passes.
-/

/-- A file that is seen from its head on. -/
@[ext]
structure FlatFile (α : Type) where
  items : List α
  head : Nat
  le : head ≤ items.length

namespace FlatFile

variable {α : Type}

inductive Op (α : Type) where
  | write (t : List α)
  | extend (n : Nat)
  | reserve (n : Nat)
  | rewind (n : Nat)
  | seek (n : Nat)
  | overwrite (t : List α)
  | read (n : Nat)
  | clear
  | size

/-- A file that is seen whole. -/
def whole (items : List α) : FlatFile α := ⟨items, 0, Nat.zero_le _⟩

/-- What is seen of the file. -/
def view (f : FlatFile α) : List α := f.items.drop f.head

def size (f : FlatFile α) : Nat := f.items.length - f.head

theorem length_view (f : FlatFile α) : f.view.length = f.size := List.length_drop

def write (f : FlatFile α) (t : List α) : FlatFile α where
  items := f.items ++ t
  head := f.head
  le := by
    rw [List.length_append]
    exact Nat.le_add_right_of_le f.le

def rewind (f : FlatFile α) (n : Nat) : FlatFile α where
  items := f.items
  head := f.head - min n f.head
  le := Nat.le_trans (Nat.sub_le _ _) f.le

def seek (f : FlatFile α) (n : Nat) : FlatFile α where
  items := f.items
  head := f.head + min n f.size
  le := by
    have hle := f.le
    unfold size
    omega

/-- The items seen give way to those of `t`, as far as both go. -/
def overwrite (f : FlatFile α) (t : List α) : FlatFile α where
  items := Sequence.overwrite f.items f.head (t.take f.size)
  head := f.head
  le := by
    have hle := f.le
    rw [Sequence.length_overwrite]
    · exact hle
    · rw [List.length_take, size]
      omega

def clear (f : FlatFile α) : FlatFile α := ⟨f.items, f.items.length, Nat.le_refl _⟩

/-! ## What is seen -/

@[simp] theorem view_write (f : FlatFile α) (t : List α) : (f.write t).view = f.view ++ t :=
  List.drop_append_of_le_length f.le

@[simp] theorem view_seek (f : FlatFile α) (n : Nat) :
    (f.seek n).view = f.view.drop (min n f.view.length) := by
  rw [f.length_view]
  exact (List.drop_drop).symm

@[simp] theorem view_overwrite (f : FlatFile α) (t : List α) :
    (f.overwrite t).view = Sequence.overwrite f.view 0 (t.take f.view.length) := by
  rw [f.length_view]
  have hhead : (f.items.take f.head).length = f.head := by
    rw [List.length_take]
    exact Nat.min_eq_left f.le
  simp only [view, overwrite, Sequence.overwrite, List.append_assoc, List.take_zero,
    List.nil_append, Nat.zero_add]
  rw [List.drop_left' hhead, List.drop_drop]

@[simp] theorem view_clear (f : FlatFile α) : f.clear.view = [] :=
  List.drop_of_length_le (Nat.le_refl _)

@[simp] theorem view_whole (items : List α) : (whole items).view = items := rfl

/-! ## Operations and runs -/

/-- What an operation answers and leaves; `fill` is the item a file is extended with. -/
def step (fill : α) : Op α → FlatFile α → Sequence.Answer α × FlatFile α
  | .write t, f => (.count t.length, f.write t)
  | .extend n, f => (.count n, f.write (List.replicate n fill))
  | .reserve n, f => (.count (n - f.size), f.write (List.replicate (n - f.size) fill))
  | .rewind n, f => (.count (min n f.head), f.rewind n)
  | .seek n, f => (.count (min n f.size), f.seek n)
  | .overwrite t, f => (.count (min t.length f.size), f.overwrite t)
  | .read n, f => (.items (f.view.take n), f)
  | .clear, f => (.done, f.clear)
  | .size, f => (.count f.size, f)

/-- After a reservation there is as much to see as was asked for. -/
theorem size_reserve (fill : α) (f : FlatFile α) (n : Nat) :
    n ≤ (f.step fill (.reserve n)).2.size := by
  have hle := f.le
  simp only [step, write, size, List.length_append, List.length_replicate]
  omega

/-- Rewinding what was sought restores the file. -/
theorem rewind_seek (f : FlatFile α) (n : Nat) : (f.seek n).rewind (min n f.size) = f := by
  have hhead : f.head + min n f.size - min (min n f.size) (f.head + min n f.size) = f.head := by
    omega
  exact FlatFile.ext rfl hhead

/-- `Run fill f l f'`: the operations `l`, with their answers, lead from `f` to `f'`. -/
inductive Run (fill : α) (f : FlatFile α) : List (Op α × Sequence.Answer α) → FlatFile α → Prop where
  | nil : Run fill f [] f
  | snoc {f' l p} : Run fill f l f' →
      Run fill f (l ++ [(p, (f'.step fill p).1)]) (f'.step fill p).2

/-- `Sessions fill items ls items'`: the uses `ls` of a file, each from the beginning of the file as
the one before has left it, or of no items where the file is to be overwritten. -/
inductive Sessions (fill : α) (items : List α) :
    List (Bool × List (Op α × Sequence.Answer α)) → List α → Prop where
  | nil : Sessions fill items [] items
  | snoc {items' ls l f} {overwritten : Bool} : Sessions fill items ls items' →
      Run fill (.whole (if overwritten then [] else items')) l f →
      Sessions fill items (ls ++ [(overwritten, l)]) f.items

end FlatFile
