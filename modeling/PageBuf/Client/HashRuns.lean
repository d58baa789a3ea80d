import PageBuf.Invariant.HashUpdate

/-!
# HashRuns — what the users of a hash table do with it

The objects are the caller's: they come and go as it likes while they are not in
the table. Whatever hash function the header is compiled with, however the
buckets are doubled on the way, and whatever the objects held before they were
added, the table stays sound until the memory runs out, and what it answers is
what a list of the items answers.
-/

namespace Pb

open StateRun Function

variable {κ : Type}

/-- A step of a program with a hash table: the caller's own with its objects, and the macros. -/
inductive HashOp (κ : Type) where
  | place (e : Nat) (H : HashHandle κ)
  | release (e : Nat)
  | add (e : Nat) (key : κ)
  | delete (e : Nat)
  | find (key : κ)
  | clear

/-- Running a step. Only a search answers. -/
def execHash [DecidableEq κ] (env : HashEnv κ) : HashOp κ → HashM κ (Option Nat)
  | .place e H => do modify (·.setHandle e (some H)); return none
  | .release e => do modify (·.setHandle e none); return none
  | .add e key => do hashAdd env e key; return none
  | .delete e => do hashDelete env e; return none
  | .find key => hashFind env key
  | .clear => do hashClear; return none

namespace HashOp

/-- What the caller minds: an object in the table is neither freed nor added again, only an
object that is in it is deleted, and the items can be counted. -/
def Allowed (h : HashHeap κ) (items : List (Nat × κ)) : HashOp κ → Prop
  | .place e _ => e ∉ items.map Prod.fst
  | .release e => e ∉ items.map Prod.fst
  | .add e _ => e ∉ items.map Prod.fst ∧ h.Live e ∧ items.length + 1 < 2 ^ 32
  | .delete e => e ∈ items.map Prod.fst
  | .find _ => True
  | .clear => True

/-- What a step makes of the items. -/
def effect (items : List (Nat × κ)) : HashOp κ → List (Nat × κ)
  | .add e key => items ++ [(e, key)]
  | .delete e => items.filter fun p => p.1 ≠ e
  | .clear => []
  | _ => items

/-- What a step may answer. -/
def Answers (items : List (Nat × κ)) : HashOp κ → Option Nat → Prop
  | .find key, out => (∀ e, out = some e → (e, key) ∈ items) ∧ (out = none → ∀ e, (e, key) ∉ items)
  | _, out => out = none

/-- The objects a step may write to: those of the table, and its own. -/
def Writes (items : List (Nat × κ)) (b : Nat) : HashOp κ → Prop
  | .place e _ => b = e
  | .release e => b = e
  | .add e _ => b ∈ items.map Prod.fst ++ [e]
  | .delete _ => b ∈ items.map Prod.fst
  | .find _ => False
  | .clear => False

end HashOp

/-- The states of a program that begins with a null head pointer, and the items of its table. -/
inductive HashRun [DecidableEq κ] (env : HashEnv κ) : HashHeap κ → List (Nat × κ) → Prop where
  | new (handles : Nat → Option (HashHandle κ)) (calls : Nat) :
      HashRun env ⟨handles, none, none, calls⟩ []
  | step {h h' : HashHeap κ} {items : List (Nat × κ)} {op : HashOp κ} {out : Option Nat} :
      HashRun env h items → op.Allowed h items → execHash env op h = .ok (out, h') →
      HashRun env h' (op.effect items)

variable [DecidableEq κ] {env : HashEnv κ} {h h' : HashHeap κ} {items : List (Nat × κ)}
  {op : HashOp κ} {e : Nat} {key : κ}

namespace HashHeap

/-- **A step keeps the table sound.** Only adding needs memory. -/
theorem Sound.exec (so : h.Sound env items) (hbound : env.Bounded) (hop : op.Allowed h items) :
    (∃ e key, op = .add e key) ∧ execHash env op h = .error .fatal ∨
      Yields (execHash env op) h (fun out h' => h'.Sound env (op.effect items) ∧
        op.Answers items out ∧ ∀ b, ¬op.Writes items b → h'.handles b = h.handles b) := by
  cases op with
  | place e H =>
      refine .inr ⟨none, _, rfl, so.congr rfl rfl fun b hb => ?_, rfl, fun b hb => ?_⟩
      · exact update_of_ne (fun heq : b = e => hop (heq ▸ hb)) _ _
      · exact update_of_ne hb _ _
  | release e =>
      refine .inr ⟨none, _, rfl, so.congr rfl rfl fun b hb => ?_, rfl, fun b hb => ?_⟩
      · exact update_of_ne (fun heq : b = e => hop (heq ▸ hb)) _ _
      · exact update_of_ne hb _ _
  | add e key =>
      obtain ⟨he, hlive, hfew⟩ := hop
      rcases hashAdd_spec key hbound so he hlive hfew with hfatal | hadd
      · exact .inl ⟨⟨e, key, rfl⟩, bind_fails hfatal⟩
      · exact .inr (hadd.bind fun _ g hg => yields_pure.mpr ⟨hg.1, rfl, hg.2⟩)
  | delete e =>
      exact .inr ((hashDelete_spec so hop).bind fun _ g hg => yields_pure.mpr ⟨hg.1, rfl, hg.2⟩)
  | find key =>
      obtain ⟨out, hfind, hsome, hnone⟩ := so.hashFind_run key
      exact .inr ⟨out, h, hfind, so, ⟨hsome, hnone⟩, fun _ _ => rfl⟩
  | clear =>
      refine .inr ((hashClear_spec so).bind fun _ g hg => yields_pure.mpr ⟨hg.1, rfl, ?_⟩)
      exact fun b _ => congrFun hg.2 b

/-- **The table is sound in every run.** -/
theorem sound_of_run (hbound : env.Bounded) (hrun : HashRun env h items) : h.Sound env items := by
  induction hrun with
  | new => exact .empty rfl rfl
  | step _ hop hexec ih =>
      rcases ih.exec hbound hop with ⟨-, hfatal⟩ | hy
      · rw [hfatal] at hexec
        cases hexec
      · exact (hy.of_run hexec).1

/-- Where the keys are different, the item that a search finds is the one with the key. -/
theorem Sound.hashFind_iff (so : h.Sound env items) (hkeys : (items.map Prod.snd).Nodup)
    (key : κ) :
    ∃ out, hashFind env key h = .ok (out, h) ∧ ∀ e, out = some e ↔ (e, key) ∈ items := by
  obtain ⟨out, hfind, hsome, hnone⟩ := so.hashFind_run key
  refine ⟨out, hfind, fun e => ⟨hsome e, fun he => ?_⟩⟩
  cases out with
  | none => exact absurd he (hnone rfl e)
  | some e' => rw [(Prod.mk.inj (List.inj_on_of_nodup_map hkeys (hsome e' rfl) he rfl)).1]

end HashHeap

/-- **A hash table stays intact.** In every run a step that is allowed goes through, unless it adds
an item and there is no memory for it; the integrity check passes after it, the items come in the
order they were added, and no object but those in the table has been written to. -/
theorem hash_stays_intact (hbound : env.Bounded) (hrun : HashRun env h items)
    (hop : op.Allowed h items) :
    (∃ e key, op = .add e key) ∧ execHash env op h = .error .fatal ∨
      Yields (execHash env op) h (fun out h' => hashFsck h' = .ok ((), h') ∧
        hashIter h' = .ok (op.effect items, h') ∧
        hashCount h' = .ok ((op.effect items).length, h') ∧ op.Answers items out ∧
        ∀ b, ¬op.Writes items b → h'.handles b = h.handles b) := by
  refine ((HashHeap.sound_of_run hbound hrun).exec hbound hop).imp_right fun hy => ?_
  refine hy.mono fun out h' hpost => ?_
  obtain ⟨so, hanswer, hout⟩ := hpost
  exact ⟨so.hashFsck_run, so.hashIter_run, so.hashCount_run, hanswer, hout⟩

/-- **A search is a lookup.** In every run, where no two items of the table have one key, it finds
the item with the key, whatever the hash function is and however the buckets were doubled. -/
theorem hash_find_iff (hbound : env.Bounded) (hrun : HashRun env h items)
    (hkeys : (items.map Prod.snd).Nodup) (key : κ) :
    ∃ out, hashFind env key h = .ok (out, h) ∧ ∀ e, out = some e ↔ (e, key) ∈ items :=
  (HashHeap.sound_of_run hbound hrun).hashFind_iff hkeys key

/-! ## A table on offsets of a file -/

/-- The keys of the mmap allocator, hashed as the header does, in a build with its integrity
check. -/
def HashEnv.offsets : HashEnv Nat where
  fcn offset := hashJen (uint64Bytes offset)
  grants _ size := decide (size < 2 ^ 36)
  debug := true

theorem bounded_offsets : HashEnv.offsets.Bounded := fun _ _ hg => of_decide_eq_true hg

/-- Where a step leads, as far as it goes through. -/
def HashHeap.afterHash (h : HashHeap κ) (env : HashEnv κ) (op : HashOp κ) : HashHeap κ :=
  match execHash env op h with
  | .ok (_, h') => h'
  | .error _ => h

/-- Whether a step goes through. -/
def HashHeap.goesThrough (h : HashHeap κ) (env : HashEnv κ) (op : HashOp κ) : Bool :=
  match execHash env op h with
  | .ok _ => true
  | .error _ => false

theorem HashRun.after (hrun : HashRun env h items) (op : HashOp κ) (hop : op.Allowed h items)
    (hgo : h.goesThrough env op = true) : HashRun env (h.afterHash env op) (op.effect items) := by
  unfold HashHeap.goesThrough at hgo
  unfold HashHeap.afterHash
  split at hgo
  · rename_i r hr
    rw [hr]
    exact hrun.step hop hr
  · cases hgo

/-- Eight objects, not yet in a table. -/
def HashHeap.eightObjects : HashHeap Nat where
  handles e := if e < 8 then some ⟨none, none, none, none, 0, 0⟩ else none
  head := none
  tbl := none
  calls := 0

/-- Two of them in the table. -/
def HashHeap.twoAdded : HashHeap Nat :=
  (eightObjects.afterHash .offsets (.add 0 4096)).afterHash .offsets (.add 1 8192)

theorem run_twoAdded : HashRun .offsets .twoAdded [(0, 4096), (1, 8192)] := by
  have h₀ : HashRun .offsets .eightObjects [] := .new _ _
  have h₁ := h₀.after (.add 0 4096)
    ⟨by decide, ⟨_, rfl⟩, by decide⟩ (by decide +kernel)
  have hgo : (HashHeap.eightObjects.afterHash .offsets (.add 0 4096)).goesThrough .offsets
      (.add 1 8192) = true := by decide +kernel
  refine h₁.after (.add 1 8192) ⟨by decide, ?_, by decide⟩ hgo
  exact Option.isSome_iff_exists.mp (by decide +kernel)

theorem hash_stays_intact_offsets :
    (∃ e key, HashOp.delete (κ := Nat) 0 = .add e key) ∧
      execHash .offsets (.delete 0) .twoAdded = .error .fatal ∨
      Yields (execHash .offsets (.delete 0)) .twoAdded (fun out h' =>
        hashFsck h' = .ok ((), h') ∧ hashIter h' = .ok ([(1, 8192)], h') ∧
        hashCount h' = .ok (1, h') ∧ out = none ∧
        ∀ b, b ∉ [0, 1] → h'.handles b = HashHeap.twoAdded.handles b) :=
  hash_stays_intact bounded_offsets run_twoAdded (show 0 ∈ [0, 1] by decide)

theorem hash_find_iff_offsets : ∃ out,
    hashFind .offsets 8192 .twoAdded = .ok (out, .twoAdded) ∧
      ∀ e, out = some e ↔ (e, 8192) ∈ [(0, 4096), (1, 8192)] :=
  hash_find_iff bounded_offsets run_twoAdded (by decide) 8192

end Pb
