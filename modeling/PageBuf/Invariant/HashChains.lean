import PageBuf.Lib.Chain
import PageBuf.Lib.Returns
import PageBuf.Model.Hash

/-!
# HashChains — the buckets of a hash table

Every bucket holds a chain of exactly the items whose hash leads to it. An item
that comes goes to the front of its chain, when it is added as when the buckets
are doubled; an item that goes is cut out of it. Nothing of this touches the
order of the items, their keys, or any other object.
-/

namespace Pb

open StateRun Function Chain

variable {κ α : Type} {env : HashEnv κ} {h h' h'' : HashHeap κ} {T T' : HashTable}
  {a e i n v : Nat} {x : Option Nat} {es es' l : List Nat} {bs bs' : List HashBucket}
  {B : HashBucket} {H : HashHandle κ} {f : HashHandle κ → HashHandle κ} {g : HashHandle κ → α}
  {slot : Nat → Nat}

namespace HashHeap

/-! ## Fields -/

/-- One field of every handle. -/
def field (h : HashHeap κ) (g : HashHandle κ → α) (e : Nat) : Option α := (h.handles e).map g

/-- A write to one handle. -/
def write (h : HashHeap κ) (e : Nat) (f : HashHandle κ → HashHandle κ) : HashHeap κ :=
  { h with handles := update h.handles e ((h.handles e).map f) }

/-- A write through a pointer that may be null. -/
def write? (h : HashHeap κ) (x : Option Nat) (f : HashHandle κ → HashHandle κ) : HashHeap κ :=
  match x with
  | none => h
  | some e => h.write e f

/-- The object is there. -/
def Live (h : HashHeap κ) (e : Nat) : Prop := ∃ H, h.handles e = some H

theorem field_write_same (hg : ∀ H, g (f H) = g H) : (h.write e f).field g = h.field g := by
  ext1 b
  rcases eq_or_ne b e with rfl | hne
  · simp only [field, write, update_self, Option.map_map]
    exact congrArg (fun k => (h.handles b).map k) (funext hg)
  · simp [field, write, update_of_ne hne]

theorem field_write {y : α} (hlive : h.Live e) (hg : ∀ H, g (f H) = y) :
    (h.write e f).field g = update (h.field g) e (some y) := by
  obtain ⟨H, hH⟩ := hlive
  ext1 b
  rcases eq_or_ne b e with rfl | hne
  · simp [field, write, hH, hg]
  · simp [field, write, update_of_ne hne]

theorem field_write?_same (hg : ∀ H, g (f H) = g H) : (h.write? x f).field g = h.field g := by
  cases x with
  | none => rfl
  | some e => exact field_write_same hg

theorem live_iff_field : h.Live e ↔ (h.field g e).isSome := by
  simp [Live, field, Option.isSome_iff_exists]

theorem live_of_field {y : α} (hf : h.field g e = some y) : h.Live e := by
  rw [live_iff_field (g := g), hf]
  rfl

theorem handles_write_of_ne (hne : a ≠ e) : (h.write e f).handles a = h.handles a :=
  update_of_ne hne _ _

theorem handles_write?_of_ne (hne : x ≠ some a) : (h.write? x f).handles a = h.handles a := by
  cases x with
  | none => rfl
  | some e => exact handles_write_of_ne fun he => hne (he ▸ rfl)

theorem live_write : (h.write e f).Live a ↔ h.Live a := by
  rw [live_iff_field (g := fun _ => ()), live_iff_field (g := fun _ => ()), field_write_same]
  exact fun _ => rfl

theorem live_write? : (h.write? x f).Live a ↔ h.Live a := by
  cases x with
  | none => rfl
  | some e => exact live_write

@[simp] theorem head_write : (h.write e f).head = h.head := rfl

@[simp] theorem tbl_write : (h.write e f).tbl = h.tbl := rfl

@[simp] theorem head_write? : (h.write? x f).head = h.head := by cases x <;> rfl

@[simp] theorem tbl_write? : (h.write? x f).tbl = h.tbl := by cases x <;> rfl

/-- The head pointer leads to the table. -/
structure Rooted (h : HashHeap κ) (T : HashTable) : Prop where
  head : ∃ a, h.head = some a ∧ h.Live a
  tbl : h.tbl = some T

/-- The same memory with another table. -/
def withTbl (h : HashHeap κ) (T : HashTable) : HashHeap κ := { h with tbl := some T }

@[simp] theorem field_withTbl : (h.withTbl T).field g = h.field g := rfl

theorem Rooted.withTbl (r : h.Rooted T) (T' : HashTable) : (h.withTbl T').Rooted T' :=
  ⟨r.head, rfl⟩

theorem Rooted.write (r : h.Rooted T) : (h.write e f).Rooted T := by
  obtain ⟨⟨a, ha, hlive⟩, htbl⟩ := r
  exact ⟨⟨a, ha, live_write.mpr hlive⟩, htbl⟩

theorem Rooted.write? (r : h.Rooted T) : (h.write? x f).Rooted T := by
  cases x with
  | none => exact r
  | some e => exact r.write

/-! ## Runs -/

theorem getHandle_run (hH : h.handles e = some H) : getHandle e h = .ok (H, h) := by
  simp [getHandle, hH]

theorem modifyHandle_run (hlive : h.Live e) : modifyHandle e f h = .ok ((), h.write e f) := by
  obtain ⟨H, hH⟩ := hlive
  refine (bind_run (getHandle_run hH)).trans ?_
  show Except.ok ((), h.setHandle e (some (f H))) = _
  rw [write, hH]
  rfl

theorem modifyHandle?_run (hlive : ∀ e, x = some e → h.Live e) :
    modifyHandle? x f h = .ok ((), h.write? x f) := by
  cases x with
  | none => rfl
  | some e => exact modifyHandle_run (hlive e rfl)

theorem Rooted.getTbl_run (r : h.Rooted T) : getTbl h = .ok (T, h) := by
  obtain ⟨⟨a, ha, H, hH⟩, htbl⟩ := r
  unfold getTbl
  refine (bind_run (a := h) rfl).trans ?_
  simp only [ha]
  refine (bind_run (getHandle_run hH)).trans ((bind_run (a := h) rfl).trans ?_)
  simp only [htbl]
  rfl

theorem Rooted.modifyTbl_run (r : h.Rooted T) (k : HashTable → HashTable) :
    modifyTbl k h = .ok ((), h.withTbl (k T)) :=
  (bind_run r.getTbl_run).trans rfl

theorem Rooted.getBucket_run (r : h.Rooted T) (hB : T.buckets[i]? = some B) :
    getBucket i h = .ok (B, h) := by
  refine (bind_run r.getTbl_run).trans ?_
  simp only [hB]
  rfl

theorem Rooted.modifyBucket_run (r : h.Rooted T) (hB : T.buckets[i]? = some B)
    (k : HashBucket → HashBucket) :
    modifyBucket i k h = .ok ((), h.withTbl { T with buckets := T.buckets.set i (k B) }) :=
  (bind_run (r.getBucket_run hB)).trans (r.modifyTbl_run _)

/-! ## Frames -/

/-- Only the chains of `es`, and the table, may have changed. -/
structure Rechained (es : List Nat) (h h' : HashHeap κ) : Prop where
  head : h'.head = h.head
  next : h'.field HashHandle.next = h.field HashHandle.next
  prev : h'.field HashHandle.prev = h.field HashHandle.prev
  key : h'.field HashHandle.key = h.field HashHandle.key
  hashv : h'.field HashHandle.hashv = h.field HashHandle.hashv
  outside : ∀ b, b ∉ es → h'.handles b = h.handles b

namespace Rechained

theorem refl : Rechained es h h := ⟨rfl, rfl, rfl, rfl, rfl, fun _ _ => rfl⟩

theorem trans (c : Rechained es h h') (c' : Rechained es h' h'') : Rechained es h h'' :=
  ⟨c'.head.trans c.head, c'.next.trans c.next, c'.prev.trans c.prev, c'.key.trans c.key,
    c'.hashv.trans c.hashv, fun b hb => (c'.outside b hb).trans (c.outside b hb)⟩

theorem mono (c : Rechained es h h') (hsub : es ⊆ es') : Rechained es' h h' :=
  { c with outside := fun b hb => c.outside b fun hm => hb (hsub hm) }

theorem withTbl (T : HashTable) : Rechained es h (h.withTbl T) :=
  ⟨rfl, rfl, rfl, rfl, rfl, fun _ _ => rfl⟩

theorem live (c : Rechained es h h') : h'.Live e ↔ h.Live e := by
  rw [live_iff_field (g := HashHandle.hashv), live_iff_field (g := HashHandle.hashv), c.hashv]

theorem rooted (c : Rechained es h h') (r : h.Rooted T) (htbl : h'.tbl = some T') :
    h'.Rooted T' := by
  obtain ⟨a, ha, hlive⟩ := r.head
  exact ⟨⟨a, c.head.trans ha, c.live.mpr hlive⟩, htbl⟩

/-- A write of chain links only. -/
theorem write (he : e ∈ es) (hf : ∀ H, (f H).next = H.next ∧ (f H).prev = H.prev ∧
    (f H).key = H.key ∧ (f H).hashv = H.hashv) : Rechained es h (h.write e f) where
  head := rfl
  next := field_write_same fun H => (hf H).1
  prev := field_write_same fun H => (hf H).2.1
  key := field_write_same fun H => (hf H).2.2.1
  hashv := field_write_same fun H => (hf H).2.2.2
  outside := fun _ hb => handles_write_of_ne fun hbe => hb (hbe ▸ he)

theorem write? (he : ∀ e, x = some e → e ∈ es) (hf : ∀ H, (f H).next = H.next ∧
    (f H).prev = H.prev ∧ (f H).key = H.key ∧ (f H).hashv = H.hashv) :
    Rechained es h (h.write? x f) := by
  cases x with
  | none => exact refl
  | some e => exact write (he e rfl) hf

end Rechained

/-! ## Chains -/

/-- Every bucket holds the items that belong to it, and counts them. -/
def Chained (h : HashHeap κ) (slot : Nat → Nat) (bs : List HashBucket) (es : List Nat) : Prop :=
  ∀ i B, bs[i]? = some B → ∃ l : List Nat, B.hhHead = l.head? ∧ B.count = l.length ∧
    Linked (h.field HashHandle.hhNext) (h.field HashHandle.hhPrev) l ∧
    l.Perm (es.filter fun e => slot e = i)

theorem Chained.perm (c : Chained h slot bs es) (hp : es.Perm es') : Chained h slot bs es' := by
  intro i B hB
  obtain ⟨l, hhead, hcount, hl, hperm⟩ := c i B hB
  exact ⟨l, hhead, hcount, hl, hperm.trans (hp.filter _)⟩

theorem Chained.slot_congr {slot' : Nat → Nat} (c : Chained h slot bs es)
    (hs : ∀ e ∈ es, slot' e = slot e) : Chained h slot' bs es := by
  intro i B hB
  obtain ⟨l, hhead, hcount, hl, hperm⟩ := c i B hB
  have hfilter : (es.filter fun e => slot' e = i) = es.filter fun e => slot e = i :=
    List.filter_congr fun e he => by rw [hs e he]
  exact ⟨l, hhead, hcount, hl, hfilter ▸ hperm⟩

/-- Chains none of whose items is touched. -/
theorem Chained.congr (c : Chained h slot bs es) (hs : ∀ e ∈ es, h'.handles e = h.handles e) :
    Chained h' slot bs es := by
  intro i B hB
  obtain ⟨l, hhead, hcount, hl, hperm⟩ := c i B hB
  have hfield : ∀ {β : Type} (g : HashHandle κ → β), ∀ b ∈ l, h'.field g b = h.field g b := by
    intro β g b hb
    rw [field, field, hs b (List.mem_of_mem_filter (hperm.mem_iff.mp hb))]
  exact ⟨l, hhead, hcount, hl.congr (hfield _) (hfield _), hperm⟩

theorem chained_zero (slot : Nat → Nat) (n : Nat) :
    Chained h slot (List.replicate n .zero) [] := by
  intro i B hB
  obtain rfl : B = .zero := List.eq_of_mem_replicate (List.mem_of_getElem? hB)
  exact ⟨[], rfl, rfl, linked_nil, .nil⟩

theorem Linked.live {k k' : HashHandle κ → Option Nat} (hl : Linked (h.field k) (h.field k') l)
    (he : e ∈ l) : h.Live e := by
  obtain ⟨l₁, l₂, rfl⟩ := List.append_of_mem he
  exact live_of_field hl.next_mem

/-- The item goes to the front of a chain. -/
def pushed (h : HashHeap κ) (e : Nat) (x : Option Nat) : HashHeap κ :=
  (h.write e fun H => { H with hhPrev := none, hhNext := x }).write? x
    fun H => { H with hhPrev := some e }

theorem rechained_pushed (he : e ∈ es) (hx : ∀ b, x = some b → b ∈ es) :
    Rechained es h (h.pushed e x) := by
  unfold pushed
  refine Rechained.trans (Rechained.write he ?_) (Rechained.write? hx ?_)
  · exact fun _ => ⟨rfl, rfl, rfl, rfl⟩
  · exact fun _ => ⟨rfl, rfl, rfl, rfl⟩

theorem linked_pushed (hl : Linked (h.field HashHandle.hhNext) (h.field HashHandle.hhPrev) l)
    (hlive : h.Live e) (he : e ∉ l) :
    Linked ((h.pushed e l.head?).field HashHandle.hhNext)
      ((h.pushed e l.head?).field HashHandle.hhPrev) (e :: l) := by
  have hnext : (h.pushed e l.head?).field HashHandle.hhNext =
      update (h.field HashHandle.hhNext) e (some l.head?) := by
    unfold pushed
    rw [field_write?_same, field_write hlive]
    · exact fun _ => rfl
    · exact fun _ => rfl
  have hprev : ∀ b, l.head? ≠ some b → (h.pushed e l.head?).field HashHandle.hhPrev b =
      update (h.field HashHandle.hhPrev) e (some none) b := by
    intro b hb
    unfold pushed
    rw [field, handles_write?_of_ne hb, ← field, field_write hlive]
    exact fun _ => rfl
  have hne : ∀ b ∈ l, b ≠ e := fun b hb hbe => he (hbe ▸ hb)
  refine hl.push he ?_ ?_ ?_ ?_ ?_
  · intro b hb
    rw [hnext, update_of_ne (hne b hb)]
  · intro b hb hhead
    rw [hprev b hhead, update_of_ne (hne b hb)]
  · rw [hnext, update_self]
  · rw [hprev e fun hhead => he (List.mem_of_head? hhead), update_self]
  · intro b hhead
    have hb : h.Live b := Linked.live hl (List.mem_of_head? hhead)
    unfold pushed
    rw [hhead]
    show (HashHeap.write _ b _).field HashHandle.hhPrev b = _
    rw [field_write (live_write.mpr hb), update_self]
    exact fun _ => rfl

/-- **An item comes to its bucket.** -/
theorem Chained.push (c : Chained h slot bs es) (hlive : h.Live e) (he : e ∉ es)
    (hB : bs[slot e]? = some B) (m : Nat) :
    Chained (h.pushed e B.hhHead) slot
      (bs.set (slot e) ⟨some e, B.count + 1, m⟩) (e :: es) := by
  obtain ⟨l₀, hhead₀, -, hl₀, hperm₀⟩ := c (slot e) B hB
  have hsub₀ : ∀ b ∈ l₀, b ∈ es ∧ slot b = slot e := fun b hb => by
    simpa using hperm₀.mem_iff.mp hb
  intro i B' hB'
  by_cases hi : i = slot e
  · subst hi
    obtain ⟨l, hhead, hcount, hl, hperm⟩ := c (slot e) B hB
    rw [List.getElem?_set_self (List.getElem?_eq_some_iff.mp hB).1] at hB'
    cases hB'
    have hnot : e ∉ l := fun hm => he (List.mem_of_mem_filter (hperm.mem_iff.mp hm))
    refine ⟨e :: l, rfl, by simp [hcount], ?_, ?_⟩
    · rw [hhead]
      exact linked_pushed hl hlive hnot
    · simpa using hperm
  · rw [List.getElem?_set_ne (Ne.symm hi)] at hB'
    obtain ⟨l, hhead, hcount, hl, hperm⟩ := c i B' hB'
    have hsub : ∀ b ∈ l, b ∈ es ∧ slot b = i := fun b hb => by
      simpa using hperm.mem_iff.mp hb
    -- neither `e` nor the old front of its chain is in this one
    have hkeep : ∀ b ∈ l, (h.pushed e B.hhHead).handles b = h.handles b := by
      intro b hb
      obtain ⟨hbe, hslot⟩ := hsub b hb
      unfold pushed
      rw [handles_write?_of_ne, handles_write_of_ne]
      · exact fun heq => he (heq ▸ hbe)
      · rw [hhead₀]
        intro hfront
        exact hi (hslot.symm.trans (hsub₀ b (List.mem_of_head? hfront)).2)
    refine ⟨l, hhead, hcount, hl.congr ?_ ?_, ?_⟩
    · intro b hb
      rw [field, hkeep b hb, ← field]
    · intro b hb
      rw [field, hkeep b hb, ← field]
    · rwa [List.filter_cons_of_neg (by simpa using fun heq => hi heq.symm)]

/-! ## An item that goes -/

/-- The item between two others is cut out: `sn` and `sp` set the links. -/
def cutOut (sn sp : Option Nat → HashHandle κ → HashHandle κ) (h : HashHeap κ)
    (before after : Option Nat) : HashHeap κ :=
  (h.write? before (sn after)).write? after (sp before)

section Cut

variable {sn sp : Option Nat → HashHandle κ → HashHandle κ} {before after : Option Nat}

theorem handles_cutOut (hb : before ≠ some a) (ha : after ≠ some a) :
    (h.cutOut sn sp before after).handles a = h.handles a := by
  unfold cutOut
  rw [handles_write?_of_ne ha, handles_write?_of_ne hb]

theorem linked_cutOut {nx pv : HashHandle κ → Option Nat} {l₁ l₂ : List Nat}
    (hnn : ∀ x H, nx (sn x H) = x) (hnp : ∀ x H, nx (sp x H) = nx H)
    (hpp : ∀ x H, pv (sp x H) = x) (hpn : ∀ x H, pv (sn x H) = pv H)
    (hl : Linked (h.field nx) (h.field pv) (l₁ ++ e :: l₂)) :
    Linked ((h.cutOut sn sp l₁.getLast? l₂.head?).field nx)
      ((h.cutOut sn sp l₁.getLast? l₂.head?).field pv) (l₁ ++ l₂) := by
  have hlive : ∀ b ∈ l₁ ++ l₂, h.Live b := by
    intro b hb
    refine Linked.live hl ?_
    simp only [List.mem_append, List.mem_cons] at hb ⊢
    tauto
  have hnext : (h.cutOut sn sp l₁.getLast? l₂.head?).field nx =
      (h.write? l₁.getLast? (sn l₂.head?)).field nx := field_write?_same (hnp _)
  have hprev : ∀ b, l₂.head? ≠ some b →
      (h.cutOut sn sp l₁.getLast? l₂.head?).field pv b = h.field pv b := by
    intro b hb
    unfold cutOut
    rw [field, handles_write?_of_ne hb, ← field, field_write?_same (hpn _)]
  refine hl.remove ?_ ?_ ?_ ?_
  · intro b _ hlast
    rw [hnext, field, handles_write?_of_ne hlast, ← field]
  · intro b _ hhead
    exact hprev b hhead
  · intro b hlast
    rw [hnext, hlast]
    show (HashHeap.write _ b _).field nx b = _
    rw [field_write (hlive b (List.mem_append_left _ (List.mem_of_getLast? hlast))) (hnn _),
      update_self]
  · intro b hhead
    unfold cutOut
    rw [hhead]
    show (HashHeap.write _ b _).field pv b = _
    rw [field_write (live_write?.mpr (hlive b (List.mem_append_right _
      (List.mem_of_head? hhead)))) (hpp _), update_self]

end Cut

/-- The item between two others is cut out of its chain. -/
def cutChain (h : HashHeap κ) (before after : Option Nat) : HashHeap κ :=
  h.cutOut (fun x H => { H with hhNext := x }) (fun x H => { H with hhPrev := x }) before after

theorem rechained_cutChain {before after : Option Nat} (hb : ∀ b, before = some b → b ∈ es)
    (ha : ∀ b, after = some b → b ∈ es) : Rechained es h (h.cutChain before after) := by
  unfold cutChain cutOut
  refine Rechained.trans (Rechained.write? hb ?_) (Rechained.write? ha ?_)
  · exact fun _ => ⟨rfl, rfl, rfl, rfl⟩
  · exact fun _ => ⟨rfl, rfl, rfl, rfl⟩

/-- **An item goes from its bucket.** -/
theorem Chained.cut {l₁ l₂ : List Nat} (c : Chained h slot bs es)
    (hB : bs[slot e]? = some B) (hcount : B.count = (l₁ ++ e :: l₂).length)
    (hl : Linked (h.field HashHandle.hhNext) (h.field HashHandle.hhPrev) (l₁ ++ e :: l₂))
    (hperm : (l₁ ++ e :: l₂).Perm (es.filter fun b => slot b = slot e)) :
    Chained (h.cutChain l₁.getLast? l₂.head?) slot
      (bs.set (slot e) ⟨(l₁ ++ l₂).head?, B.count - 1, B.expandMult⟩) (es.erase e) := by
  have hmem : ∀ b ∈ l₁ ++ e :: l₂, b ∈ es ∧ slot b = slot e := fun b hb => by
    simpa using hperm.mem_iff.mp hb
  have he : es.Perm (e :: es.erase e) :=
    List.perm_cons_erase (hmem e List.mem_append_cons_self).1
  intro i B' hB'
  by_cases hi : i = slot e
  · subst hi
    rw [List.getElem?_set_self (List.getElem?_eq_some_iff.mp hB).1] at hB'
    cases hB'
    refine ⟨l₁ ++ l₂, rfl, ?_, linked_cutOut (fun _ _ => rfl) (fun _ _ => rfl) (fun _ _ => rfl)
      (fun _ _ => rfl) hl, ?_⟩
    · simp [hcount]
    · have hfilter := he.filter fun b => decide (slot b = slot e)
      rw [List.filter_cons_of_pos (by simp)] at hfilter
      exact (List.perm_middle.symm.trans (hperm.trans hfilter)).cons_inv
  · rw [List.getElem?_set_ne (Ne.symm hi)] at hB'
    obtain ⟨l, hhead', hcount', hl', hperm'⟩ := c i B' hB'
    -- the items next to the one that goes are in another chain
    have hkeep : ∀ b ∈ l, (h.cutChain l₁.getLast? l₂.head?).handles b = h.handles b := by
      intro b hb
      have hslot : slot b = i := of_decide_eq_true (List.mem_filter.mp (hperm'.mem_iff.mp hb)).2
      refine handles_cutOut ?_ ?_
      · intro hlast
        have := (hmem b (List.mem_append_left _ (List.mem_of_getLast? hlast))).2
        exact hi (hslot.symm.trans this)
      · intro hfront
        have := (hmem b (List.mem_append_right _
          (List.mem_cons_of_mem e (List.mem_of_head? hfront)))).2
        exact hi (hslot.symm.trans this)
    refine ⟨l, hhead', hcount', hl'.congr ?_ ?_, hperm'.trans ?_⟩
    · intro b hb
      rw [field, hkeep b hb, ← field]
    · intro b hb
      rw [field, hkeep b hb, ← field]
    · have hfilter := he.filter fun b => decide (slot b = i)
      rwa [List.filter_cons_of_neg (by simpa using fun heq => hi heq.symm)] at hfilter

/-- The bucket does not lead to the item that goes. -/
theorem hashDelFront_spec {l₁ l₂ : List Nat} (r : h.Rooted T) (hB : T.buckets[i]? = some B)
    (hhead : B.hhHead = (l₁ ++ e :: l₂).head?) (he : e ∉ l₁) :
    Yields (hashIf (B.hhHead = some e) (modifyBucket i fun B => { B with hhHead := l₂.head? })) h
      (fun _ h' => h' = h.withTbl { T with
        buckets := T.buckets.set i { B with hhHead := (l₁ ++ l₂).head? } }) := by
  unfold hashIf
  cases l₁ with
  | nil =>
      rw [if_pos (show B.hhHead = some e from hhead)]
      exact ⟨(), _, r.modifyBucket_run hB _, rfl⟩
  | cons b l₁ =>
      have hne : B.hhHead ≠ some e := by
        rw [hhead]
        intro heq
        exact he (by simp [Option.some.inj heq])
      rw [if_neg hne]
      refine yields_pure.mpr ?_
      have hsame : { B with hhHead := (b :: l₁ ++ l₂).head? } = B := by
        rw [show (b :: l₁ ++ l₂).head? = B.hhHead from hhead.symm]
      obtain ⟨hlt, rfl⟩ := List.getElem?_eq_some_iff.mp hB
      rw [hsame, List.set_getElem_self, withTbl, ← r.tbl]

/-- **`PB_HASH_DEL_IN_BKT` takes the item out of its bucket.** -/
theorem hashDelInBkt_spec (r : h.Rooted T) (c : Chained h slot T.buckets es) (he : e ∈ es)
    (hlt : slot e < T.buckets.length) (hfew : es.length < 2 ^ 32) :
    Yields (hashDelInBkt (slot e) e) h (fun _ h' => ∃ bs, h'.tbl = some { T with buckets := bs } ∧
      bs.length = T.buckets.length ∧ Rechained es h h' ∧ Chained h' slot bs (es.erase e)) := by
  obtain ⟨B, hB⟩ : ∃ B, T.buckets[slot e]? = some B := ⟨_, List.getElem?_eq_getElem hlt⟩
  obtain ⟨l, hhead, hcount, hl, hperm⟩ := c _ B hB
  obtain ⟨l₁, l₂, rfl⟩ : ∃ l₁ l₂, l = l₁ ++ e :: l₂ :=
    List.append_of_mem (hperm.mem_iff.mpr (List.mem_filter.mpr ⟨he, decide_eq_true rfl⟩))
  have hmem : ∀ b ∈ l₁ ++ e :: l₂, b ∈ es := fun b hb =>
    List.mem_of_mem_filter (hperm.mem_iff.mp hb)
  have hlive : ∀ b ∈ l₁ ++ e :: l₂, h.Live b := fun b hb => Linked.live hl hb
  obtain ⟨hn₁, hn₂⟩ := Ring.notMem_of_nodup_cut hl.nodup
  have hlen : B.count ≤ es.length := by
    rw [hcount, hperm.length_eq]
    exact List.length_filter_le _ _
  have hpos : 0 < B.count := by
    rw [hcount, List.length_append, List.length_cons]
    omega
  have hdec : u32Dec B.count = B.count - 1 := u32Dec_of_pos hpos (by omega)
  obtain ⟨H, hH⟩ := hlive e List.mem_append_cons_self
  have hnext : H.hhNext = l₂.head? := by
    have := hl.next_mem
    rw [field, hH] at this
    exact Option.some.inj this
  have hprev : H.hhPrev = l₁.getLast? := by
    have := hl.prev_mem
    rw [field, hH] at this
    exact Option.some.inj this
  have hbefore : ∀ b, l₁.getLast? = some b → b ∈ l₁ ++ e :: l₂ := fun b hb =>
    List.mem_append_left _ (List.mem_of_getLast? hb)
  have hafter : ∀ b, l₂.head? = some b → b ∈ l₁ ++ e :: l₂ := fun b hb =>
    List.mem_append_right _ (List.mem_cons_of_mem e (List.mem_of_head? hb))
  have hget : ∀ B₁ : HashBucket, (T.buckets.set (slot e) B₁)[slot e]? = some B₁ :=
    fun B₁ => List.getElem?_set_self hlt
  have r₁ := r.withTbl { T with
    buckets := T.buckets.set (slot e) { B with count := u32Dec B.count } }
  have hfront := hashDelFront_spec r₁ (hget _) hhead hn₁
  simp only [List.set_set, hdec] at hfront r₁
  have c₂ : Chained (h.withTbl { T with
      buckets := T.buckets.set (slot e) ⟨(l₁ ++ l₂).head?, B.count - 1, B.expandMult⟩ }) slot
      T.buckets es := c
  have hcut := c₂.cut hB hcount hl hperm
  unfold hashDelInBkt
  refine Yields.step (r.modifyBucket_run hB _) ?_
  rw [hdec]
  refine Yields.step (getHandle_run hH) (Yields.step (r₁.getBucket_run (hget _)) ?_)
  rw [hnext, hprev]
  refine hfront.bind ?_
  rintro _ _ rfl
  refine Yields.step (modifyHandle?_run fun b hb => hlive b (hbefore b hb)) ?_
  have hH' : (HashHeap.write? (h.withTbl { T with
      buckets := T.buckets.set (slot e) ⟨(l₁ ++ l₂).head?, B.count - 1, B.expandMult⟩ })
      l₁.getLast? fun P => { P with hhNext := l₂.head? }).handles e = some H := by
    rw [handles_write?_of_ne fun hb => hn₁ (List.mem_of_getLast? hb)]
    exact hH
  refine Yields.step (getHandle_run hH') ?_
  rw [hnext, hprev]
  refine ⟨(), _, modifyHandle?_run fun b hb => live_write?.mpr (hlive b (hafter b hb)), _, ?_,
    List.length_set, ?_, hcut⟩
  · rw [tbl_write?, tbl_write?]
    rfl
  · exact (Rechained.withTbl _).trans (rechained_cutChain (fun b hb => hmem b (hbefore b hb))
      fun b hb => hmem b (hafter b hb))

end HashHeap

end Pb
