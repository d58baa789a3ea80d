import PageBuf.Invariant.HashOrder

/-!
# HashUpdate — what is added to a hash table, and what is deleted

An item that is added goes to the end of the order and to the front of its
bucket; one that is deleted is taken out of both. Either way the table is sound
again, and no other object has been touched.
-/

namespace Pb

open StateRun Function Chain

variable {κ : Type} {env : HashEnv κ} {h h' h'' : HashHeap κ} {T : HashTable}
  {a e tail : Nat} {key : κ} {es es' : List Nat} {items : List (Nat × κ)}
  {f : HashHandle κ → HashHandle κ}

namespace HashHeap

/-! ## Frames -/

/-- Only the order of `es`, the head pointer and the table may have changed. -/
structure Reordered (es : List Nat) (h h' : HashHeap κ) : Prop where
  hhNext : h'.field HashHandle.hhNext = h.field HashHandle.hhNext
  hhPrev : h'.field HashHandle.hhPrev = h.field HashHandle.hhPrev
  key : h'.field HashHandle.key = h.field HashHandle.key
  hashv : h'.field HashHandle.hashv = h.field HashHandle.hashv
  outside : ∀ b, b ∉ es → h'.handles b = h.handles b

namespace Reordered

theorem of_handles (hs : h'.handles = h.handles) : Reordered es h h' := by
  have hfield : ∀ {β : Type} (g : HashHandle κ → β), h'.field g = h.field g := by
    intro β g
    ext1 b
    rw [field, hs, ← field]
  exact ⟨hfield _, hfield _, hfield _, hfield _, fun b _ => congrFun hs b⟩

theorem trans (c : Reordered es h h') (c' : Reordered es h' h'') : Reordered es h h'' :=
  ⟨c'.hhNext.trans c.hhNext, c'.hhPrev.trans c.hhPrev, c'.key.trans c.key,
    c'.hashv.trans c.hashv, fun b hb => (c'.outside b hb).trans (c.outside b hb)⟩

theorem live (c : Reordered es h h') : h'.Live e ↔ h.Live e := by
  rw [live_iff_field (g := HashHandle.hashv), live_iff_field (g := HashHandle.hashv), c.hashv]

theorem slotOf (c : Reordered es h h') (n : Nat) : h'.slotOf n = h.slotOf n := by
  ext b
  rw [HashHeap.slotOf, c.hashv]
  rfl

theorem chained {slot : Nat → Nat} {bs : List HashBucket} (c : Reordered es h h')
    (hc : Chained h slot bs es') : Chained h' slot bs es' := by
  unfold Chained
  rw [c.hhNext, c.hhPrev]
  exact hc

/-- A write of links of the order only. -/
theorem write (he : e ∈ es) (hf : ∀ H, (f H).hhNext = H.hhNext ∧ (f H).hhPrev = H.hhPrev ∧
    (f H).key = H.key ∧ (f H).hashv = H.hashv) : Reordered es h (h.write e f) where
  hhNext := field_write_same fun H => (hf H).1
  hhPrev := field_write_same fun H => (hf H).2.1
  key := field_write_same fun H => (hf H).2.2.1
  hashv := field_write_same fun H => (hf H).2.2.2
  outside := fun _ hb => handles_write_of_ne fun hbe => hb (hbe ▸ he)

theorem write? {x : Option Nat} (he : ∀ e, x = some e → e ∈ es) (hf : ∀ H,
    (f H).hhNext = H.hhNext ∧ (f H).hhPrev = H.hhPrev ∧ (f H).key = H.key ∧
    (f H).hashv = H.hashv) : Reordered es h (h.write? x f) := by
  cases x with
  | none => exact of_handles rfl
  | some e => exact write (he e rfl) hf

end Reordered

/-- A table whose items nobody has written to is as it was. -/
theorem Filled.congr (fl : h.Filled env T items) (hhead : h'.head = h.head) (htbl : h'.tbl = h.tbl)
    (hs : ∀ b ∈ items.map Prod.fst, h'.handles b = h.handles b) : h'.Filled env T items := by
  have hfield : ∀ {β : Type} (g : HashHandle κ → β), ∀ b ∈ items.map Prod.fst,
      h'.field g b = h.field g b := by
    intro β g b hb
    rw [field, hs b hb, ← field]
  refine ⟨htbl.trans fl.tbl, ⟨hhead.trans fl.order.head, fl.order.tail,
    fl.order.linked.congr (hfield _) (hfield _)⟩, ?_, fl.few, fl.sized,
    (fl.chained.congr hs).slot_congr ?_⟩
  · intro p hp
    have hmem : p.1 ∈ items.map Prod.fst := List.mem_map_of_mem hp
    rw [hfield _ _ hmem, hfield _ _ hmem]
    exact fl.keys p hp
  · intro b hb
    rw [HashHeap.slotOf, HashHeap.slotOf, hfield _ b hb]

theorem Sound.keys (so : h.Sound env items) : ∀ p ∈ items,
    h.field HashHandle.key p.1 = some p.2 ∧
    h.field HashHandle.hashv p.1 = some (env.fcn p.2).toNat := by
  cases so with
  | empty => simp
  | filled fl => exact fl.keys

theorem Sound.congr (so : h.Sound env items) (hhead : h'.head = h.head) (htbl : h'.tbl = h.tbl)
    (hs : ∀ b ∈ items.map Prod.fst, h'.handles b = h.handles b) : h'.Sound env items := by
  cases so with
  | empty hnone hno => exact .empty (hhead.trans hnone) (htbl.trans hno)
  | filled fl => exact .filled (fl.congr hhead htbl hs)

theorem InOrder.rooted (o : h.InOrder tail es) (hlive : ∀ b ∈ es, h.Live b)
    (htbl : h.tbl = some T) : h.Rooted T := by
  cases hes : es.head? with
  | none =>
      have htail := o.tail
      rw [List.head?_eq_none_iff.mp hes] at htail
      cases htail
  | some b => exact ⟨⟨b, o.head.trans hes, hlive b (List.mem_of_head? hes)⟩, htbl⟩

/-! ## The end of the order -/

/-- The first item of a table. -/
theorem hashAppend_first (hhead : h.head = none) (hnext : h.field HashHandle.next e = some none) :
    Unless .fatal (hashAppend env e) h (fun _ h' => ∃ T', h'.tbl = some T' ∧ T'.Sized 0 ∧
      h'.InOrder T'.tail [e] ∧ Reordered [e] h h' ∧
      Chained h' (h'.slotOf T'.numBuckets) T'.buckets []) := by
  have hlive : HashHeap.Live { h with head := some e } e := live_of_field hnext
  have hw : Reordered [e] h
      (HashHeap.write { h with head := some e } e fun H => { H with prev := none }) := by
    have hhead : Reordered [e] h { h with head := some e } := Reordered.of_handles rfl
    refine hhead.trans (Reordered.write (List.mem_singleton.mpr rfl) ?_)
    exact fun _ => ⟨rfl, rfl, rfl, rfl⟩
  unfold hashAppend
  refine Unless.step (a := h) rfl ?_
  simp only [hhead]
  refine Unless.step (show (modify _ : HashM κ Unit) h = .ok ((), { h with head := some e })
    from rfl) ?_
  refine Unless.step (modifyHandle_run hlive) ?_
  unfold hashMakeTable
  refine (hashMalloc_spec 64).bind ?_
  rintro _ g₁ ⟨rfl, -⟩
  refine (hashMalloc_spec _).bind ?_
  rintro _ g₂ ⟨rfl, -⟩
  refine Yields.unless ⟨(), _, rfl, _, rfl, ⟨(by decide : 5 < 32), rfl, List.length_replicate, rfl⟩,
    ⟨rfl, rfl, ?_⟩, hw.trans (Reordered.of_handles rfl), chained_zero _ _⟩
  have hnil : Linked (fun _ => none) (fun _ => none) ([] : List Nat) := linked_nil
  refine hnil.concat List.not_mem_nil (by simp) (by simp) ?_ ?_ (by simp)
  · show (HashHeap.write _ e _).field HashHandle.next e = some none
    rw [field_write_same]
    · exact hnext
    · exact fun _ => rfl
  · show (HashHeap.write _ e _).field HashHandle.prev e = some none
    rw [field_write hlive, update_self]
    exact fun _ => rfl

/-- One more item. -/
theorem hashAppend_next (fl : h.Filled env T items) (he : e ∉ items.map Prod.fst)
    (hnext : h.field HashHandle.next e = some none) :
    Yields (hashAppend env e) h (fun _ h' => ∃ T', h'.tbl = some T' ∧ T'.Sized items.length ∧
      h'.InOrder T'.tail (items.map Prod.fst ++ [e]) ∧
      Reordered (items.map Prod.fst ++ [e]) h h' ∧
      Chained h' (h'.slotOf T'.numBuckets) T'.buckets (items.map Prod.fst)) := by
  obtain ⟨a, hhead, -⟩ := fl.head_eq
  have htail : T.tail ∈ items.map Prod.fst := List.mem_of_getLast? fl.order.tail
  have hne : T.tail ≠ e := fun heq => he (heq ▸ htail)
  have hlive : h.Live e := live_of_field hnext
  have hsteps : Reordered (items.map Prod.fst ++ [e]) h
      (HashHeap.write (h.write T.tail fun H => { H with next := some e }) e
        fun H => { H with prev := some T.tail }) := by
    refine Reordered.trans (Reordered.write (List.mem_append_left _ htail) ?_)
      (Reordered.write (by simp) ?_)
    · exact fun _ => ⟨rfl, rfl, rfl, rfl⟩
    · exact fun _ => ⟨rfl, rfl, rfl, rfl⟩
  unfold hashAppend
  refine Yields.step (a := h) rfl ?_
  simp only [hhead]
  refine Yields.step fl.rooted.getTbl_run ?_
  refine Yields.step (modifyHandle_run (fl.live htail)) ?_
  refine Yields.step (modifyHandle_run (live_write.mpr hlive)) ?_
  refine ⟨(), _, fl.rooted.write.write.modifyTbl_run _, _, rfl,
    ⟨fl.sized.log, fl.sized.num, fl.sized.buckets, fl.sized.items⟩, ⟨?_, ?_, ?_⟩, ?_, ?_⟩
  · show h.head = _
    rw [fl.order.head]
    refine (head?_append_of_getLast? ?_).symm
    rw [fl.order.tail]
    exact Option.some_ne_none _
  · exact List.getLast?_concat
  · have hn : HashHeap.field (HashHeap.write (h.write T.tail fun H => { H with next := some e }) e
        fun H => { H with prev := some T.tail }) HashHandle.next =
        update (h.field HashHandle.next) T.tail (some (some e)) := by
      rw [field_write_same, field_write (fl.live htail)]
      · exact fun _ => rfl
      · exact fun _ => rfl
    have hp : HashHeap.field (HashHeap.write (h.write T.tail fun H => { H with next := some e }) e
        fun H => { H with prev := some T.tail }) HashHandle.prev =
        update (h.field HashHandle.prev) e (some (some T.tail)) := by
      rw [field_write (live_write.mpr hlive), field_write_same]
      · exact fun _ => rfl
      · exact fun _ => rfl
    rw [field_withTbl, field_withTbl, hn, hp]
    refine fl.order.linked.concat he ?_ ?_ ?_ ?_ ?_
    · intro b _ hlast
      rw [fl.order.tail] at hlast
      exact update_of_ne (fun heq => hlast (congrArg some heq.symm)) _ _
    · intro b hb
      exact update_of_ne (fun heq : b = e => he (heq ▸ hb)) _ _
    · rw [update_of_ne hne.symm, hnext]
    · rw [update_self, fl.order.tail]
    · intro b hlast
      rw [fl.order.tail] at hlast
      rw [← Option.some.inj hlast, update_self]
  · exact hsteps.trans (Reordered.of_handles rfl)
  · have hslot := hsteps.slotOf T.numBuckets
    have hc := hsteps.chained fl.chained
    rw [← hslot] at hc
    exact hc

/-- **The item that is added goes to the end of the order**, or the memory is not there. -/
theorem hashAppend_spec (so : h.Sound env items) (he : e ∉ items.map Prod.fst)
    (hnext : h.field HashHandle.next e = some none) :
    Unless .fatal (hashAppend env e) h (fun _ h' => ∃ T', h'.tbl = some T' ∧
      T'.Sized items.length ∧ h'.InOrder T'.tail (items.map Prod.fst ++ [e]) ∧
      Reordered (items.map Prod.fst ++ [e]) h h' ∧
      Chained h' (h'.slotOf T'.numBuckets) T'.buckets (items.map Prod.fst)) := by
  cases so with
  | empty hhead _ => exact hashAppend_first hhead hnext
  | filled fl => exact (hashAppend_next fl he hnext).unless

/-! ## Adding -/

/-- The check at the end of a change, where it is compiled in. -/
theorem Sound.hashIf_run (so : h.Sound env items) : hashIf env.debug hashFsck h = .ok ((), h) := by
  unfold hashIf
  split
  · exact so.hashFsck_run
  · rfl

/-- A new item at the end of the order, counted and hashed, but not in its bucket yet. -/
structure Pending (env : HashEnv κ) (h : HashHeap κ) (T : HashTable) (items : List (Nat × κ))
    (e : Nat) (key : κ) : Prop where
  tbl : h.tbl = some T
  order : h.InOrder T.tail (items.map Prod.fst ++ [e])
  keys : ∀ p ∈ items ++ [(e, key)], h.field HashHandle.key p.1 = some p.2 ∧
    h.field HashHandle.hashv p.1 = some (env.fcn p.2).toNat
  few : items.length + 1 < 2 ^ 32
  sized : T.Sized (items.length + 1)
  chained : Chained h (h.slotOf T.numBuckets) T.buckets (items.map Prod.fst)

/-- **A new item gets into its bucket**, or the memory is not there. -/
theorem Pending.hashAddToBkt_spec (pe : h.Pending env T items e key) (hbound : env.Bounded) :
    Unless .fatal (hashAddToBkt env (hashToBkt (env.fcn key).toNat T.numBuckets) e) h
      (fun _ h' => h'.Sound env (items ++ [(e, key)]) ∧
        Rechained (items.map Prod.fst ++ [e]) h h') := by
  have hmap : (items ++ [(e, key)]).map Prod.fst = items.map Prod.fst ++ [e] := by simp
  have hperm := List.perm_append_singleton e (items.map Prod.fst)
  have hlive : ∀ b ∈ items.map Prod.fst ++ [e], h.Live b := fun b hb =>
    Linked.live pe.order.linked hb
  have r := pe.order.rooted hlive pe.tbl
  have hslot : hashToBkt (env.fcn key).toNat T.numBuckets = h.slotOf T.numBuckets e := by
    rw [slotOf, (pe.keys (e, key) (by simp)).2, Option.getD_some]
  have hsized := pe.sized
  have hfew := pe.few
  rw [← List.length_map (f := Prod.fst)] at hsized hfew
  rw [hslot]
  refine (HashHeap.hashAddToBkt_spec hbound r hsized pe.chained
    (hperm.nodup_iff.mp pe.order.linked.nodup) (hlive e (by simp)) hfew).mono ?_
  rintro _ h' ⟨T', htbl, hsized', htail, hre, hchained⟩
  refine ⟨.filled (T := T') ⟨htbl, ⟨?_, ?_, ?_⟩, ?_, ?_, ?_, ?_⟩, hre.mono hperm.symm.subset⟩
  · rw [hmap, hre.head]
    exact pe.order.head
  · rw [hmap, htail]
    exact pe.order.tail
  · rw [hmap, hre.next, hre.prev]
    exact pe.order.linked
  · rw [hre.key, hre.hashv]
    exact pe.keys
  · rw [List.length_append]
    exact pe.few
  · rw [List.length_append, ← List.length_map (f := Prod.fst)]
    exact hsized'
  · rw [hmap]
    exact hchained.perm hperm.symm

/-- **Adding an item** leaves a sound table that ends with it, or the memory is not there. -/
theorem hashAdd_spec (key : κ) (hbound : env.Bounded) (so : h.Sound env items)
    (he : e ∉ items.map Prod.fst) (hlive : h.Live e) (hfew : items.length + 1 < 2 ^ 32) :
    Unless .fatal (hashAdd env e key) h (fun _ h' => h'.Sound env (items ++ [(e, key)]) ∧
      ∀ b, b ∉ items.map Prod.fst ++ [e] → h'.handles b = h.handles b) := by
  have hne : ∀ b ∈ items.map Prod.fst, b ≠ e := fun b hb heq => he (heq ▸ hb)
  have so₁ : (h.write e fun H => { H with next := none, key := key }).Sound env items :=
    so.congr rfl rfl fun b hb => handles_write_of_ne (hne b hb)
  have hkey₁ : (h.write e fun H => { H with next := none, key := key }).field HashHandle.key =
      update (h.field HashHandle.key) e (some key) := field_write hlive fun _ => rfl
  have hnext₁ : (h.write e fun H => { H with next := none, key := key }).field
      HashHandle.next e = some none := by
    rw [field_write hlive, update_self]
    exact fun _ => rfl
  have hout₁ : ∀ b, b ∉ items.map Prod.fst ++ [e] →
      (h.write e fun H => { H with next := none, key := key }).handles b = h.handles b :=
    fun b hb => handles_write_of_ne fun heq => hb (by simp [heq])
  unfold hashAdd
  refine Unless.step (modifyHandle_run hlive) ?_
  revert so₁ hkey₁ hnext₁ hout₁
  generalize (h.write e fun H => { H with next := none, key := key }) = g₁
  intro so₁ hkey₁ hnext₁ hout₁
  refine (hashAppend_spec so₁ he hnext₁).bind ?_
  rintro _ g₂ ⟨T, htbl, hsized, horder, hre, hchained⟩
  have hlive₂ : ∀ b ∈ items.map Prod.fst ++ [e], g₂.Live b := fun b hb =>
    Linked.live horder.linked hb
  have r₂ := horder.rooted hlive₂ htbl
  have hinc : u32Inc T.numItems = items.length + 1 := by
    rw [hsized.items]
    exact u32_of_lt hfew
  -- the hash of the new item does not move the others
  have hhash : ((g₂.withTbl { T with numItems := u32Inc T.numItems }).write e
      fun H => { H with hashv := (env.fcn key).toNat }).field HashHandle.hashv =
      update (g₂.field HashHandle.hashv) e (some (env.fcn key).toNat) :=
    field_write (h := g₂.withTbl _) (hlive₂ e (by simp)) fun _ => rfl
  have hpending : HashHeap.Pending env ((g₂.withTbl { T with numItems := u32Inc T.numItems }).write
      e fun H => { H with hashv := (env.fcn key).toNat })
      { T with numItems := u32Inc T.numItems } items e key := by
    refine ⟨rfl, ⟨horder.head, horder.tail, ?_⟩, ?_, hfew,
      ⟨hsized.log, hsized.num, hsized.buckets, hinc⟩, ?_⟩
    · rw [field_write_same, field_write_same]
      · exact horder.linked
      · exact fun _ => rfl
      · exact fun _ => rfl
    · intro p hp
      rw [hhash, field_write_same, field_withTbl, hre.key, hre.hashv]
      · rcases List.mem_append.mp hp with hp | hp
        · rw [update_of_ne (hne p.1 (List.mem_map_of_mem hp))]
          exact so₁.keys p hp
        · obtain rfl := List.mem_singleton.mp hp
          rw [hkey₁, update_self, update_self]
          exact ⟨rfl, rfl⟩
      · exact fun _ => rfl
    · refine (hchained.congr fun b hb => handles_write_of_ne (hne b hb)).slot_congr ?_
      intro b hb
      rw [slotOf, slotOf, hhash, update_of_ne (hne b hb)]
  refine Unless.step (r₂.modifyTbl_run _) ?_
  refine Unless.step (modifyHandle_run (hlive₂ e (by simp))) ?_
  refine Unless.step (r₂.withTbl _).write.getTbl_run ?_
  refine (hpending.hashAddToBkt_spec hbound).bind ?_
  rintro _ g₅ ⟨so₅, hre₅⟩
  refine Yields.unless ⟨(), g₅, so₅.hashIf_run, so₅, fun b hb => ?_⟩
  have hbe : b ≠ e := fun heq => hb (by simp [heq])
  rw [hre₅.outside b hb, handles_write_of_ne hbe]
  exact (hre.outside b hb).trans (hout₁ b hb)

/-! ## Deleting -/

/-- The item between two others is cut out of the order. -/
def cutOrder (h : HashHeap κ) (before after : Option Nat) : HashHeap κ :=
  h.cutOut (fun x H => { H with next := x }) (fun x H => { H with prev := x }) before after

theorem reordered_cutOrder {before after : Option Nat} (hb : ∀ b, before = some b → b ∈ es)
    (ha : ∀ b, after = some b → b ∈ es) : Reordered es h (h.cutOrder before after) := by
  unfold cutOrder cutOut
  refine Reordered.trans (Reordered.write? hb ?_) (Reordered.write? ha ?_)
  · exact fun _ => ⟨rfl, rfl, rfl, rfl⟩
  · exact fun _ => ⟨rfl, rfl, rfl, rfl⟩

theorem linked_cutOrder {l₁ l₂ : List Nat}
    (hl : Linked (h.field HashHandle.next) (h.field HashHandle.prev) (l₁ ++ e :: l₂)) :
    Linked ((h.cutOrder l₁.getLast? l₂.head?).field HashHandle.next)
      ((h.cutOrder l₁.getLast? l₂.head?).field HashHandle.prev) (l₁ ++ l₂) :=
  linked_cutOut (fun _ _ => rfl) (fun _ _ => rfl) (fun _ _ => rfl) (fun _ _ => rfl) hl

/-- The tail is what it is once the item has gone. -/
theorem hashDeleteTail_spec {l₁ l₂ : List Nat} (r : h.Rooted T) (hnd : (l₁ ++ e :: l₂).Nodup)
    (htail : (l₁ ++ e :: l₂).getLast? = some T.tail) (hne : l₁ ++ l₂ ≠ []) :
    Yields (hashIf (e = T.tail) (hashDeleteTail l₁.getLast?)) h (fun _ h' => ∃ t,
      (l₁ ++ l₂).getLast? = some t ∧ h' = h.withTbl { T with tail := t }) := by
  unfold hashIf
  cases l₂ using List.reverseRecOn with
  | nil =>
      rw [List.getLast?_concat] at htail
      rw [if_pos (Option.some.inj htail), List.append_nil]
      rw [List.append_nil] at hne
      obtain ⟨p, hp⟩ := Option.ne_none_iff_exists'.mp (mt List.getLast?_eq_none_iff.mp hne)
      rw [hp]
      exact ⟨(), _, r.modifyTbl_run _, p, rfl, rfl⟩
  | append_singleton l₂ t =>
      rw [← List.cons_append, ← List.append_assoc, List.getLast?_concat] at htail
      obtain rfl := Option.some.inj htail
      have hnot : e ≠ T.tail := by
        intro heq
        exact (Ring.notMem_of_nodup_cut hnd).2 (by simp [heq])
      rw [if_neg hnot]
      refine yields_pure.mpr ⟨T.tail, by rw [← List.append_assoc, List.getLast?_concat], ?_⟩
      rw [withTbl, ← r.tbl]

/-- **The item is taken out of the order.** -/
theorem hashUnlink_spec {l₁ l₂ : List Nat} (fl : h.Filled env T items)
    (hes : items.map Prod.fst = l₁ ++ e :: l₂) (hne : l₁ ++ l₂ ≠ []) :
    Yields (hashUnlink e) h (fun _ h' => ∃ t, h'.tbl = some { T with tail := t } ∧
      h'.InOrder t (l₁ ++ l₂) ∧ Reordered (items.map Prod.fst) h h') := by
  have hl := fl.order.linked
  have htail := fl.order.tail
  have hhead := fl.order.head
  have hlive : ∀ b ∈ l₁ ++ e :: l₂, h.Live b := fun b hb => fl.live (by rwa [hes])
  rw [hes] at hl htail hhead
  obtain ⟨H, hH⟩ := hlive e (by simp)
  obtain ⟨hn₁, -⟩ := Ring.notMem_of_nodup_cut hl.nodup
  have hnext : H.next = l₂.head? := by
    have := hl.next_mem
    rw [field, hH] at this
    exact Option.some.inj this
  have hprev : H.prev = l₁.getLast? := by
    have := hl.prev_mem
    rw [field, hH] at this
    exact Option.some.inj this
  have hbefore : ∀ b, l₁.getLast? = some b → b ∈ l₁ ++ e :: l₂ := fun b hb =>
    List.mem_append_left _ (List.mem_of_getLast? hb)
  have hafter : ∀ b, l₂.head? = some b → b ∈ l₁ ++ e :: l₂ := fun b hb =>
    List.mem_append_right _ (List.mem_cons_of_mem e (List.mem_of_head? hb))
  unfold hashUnlink
  refine Yields.step (getHandle_run hH) (Yields.step fl.rooted.getTbl_run ?_)
  rw [hnext, hprev]
  refine (hashDeleteTail_spec fl.rooted hl.nodup htail hne).bind ?_
  rintro _ _ ⟨t, ht, rfl⟩
  -- with nothing before the item it is the head pointer that goes on
  have hdelete : hashDeleteNext l₁.getLast? l₂.head? (h.withTbl { T with tail := t }) =
      .ok ((), HashHeap.write? { (h.withTbl { T with tail := t }) with
        head := (l₁ ++ l₂).head? } l₁.getLast? fun P => { P with next := l₂.head? }) := by
    cases hlast : l₁.getLast? with
    | none =>
        rw [List.getLast?_eq_none_iff.mp hlast]
        rfl
    | some p =>
        have hfront : (l₁ ++ l₂).head? = h.head := by
          have hsome : l₁.getLast? ≠ none := by simp [hlast]
          rw [hhead, head?_append_of_getLast? hsome, head?_append_of_getLast? hsome]
        rw [hfront]
        exact modifyHandle_run (h := h.withTbl _) (hlive p (hbefore p hlast))
  refine Yields.step hdelete ?_
  have hH' : (HashHeap.write? { (h.withTbl { T with tail := t }) with
      head := (l₁ ++ l₂).head? } l₁.getLast? fun P => { P with next := l₂.head? }).handles e =
      some H := by
    rw [handles_write?_of_ne fun hb => hn₁ (List.mem_of_getLast? hb)]
    exact hH
  refine Yields.step (getHandle_run hH') ?_
  rw [hnext, hprev]
  have hcut := linked_cutOrder (h := { (h.withTbl { T with tail := t }) with
      head := (l₁ ++ l₂).head? }) hl
  refine ⟨(), _, modifyHandle?_run fun b hb => live_write?.mpr (hlive b (hafter b hb)), t, ?_,
    ⟨?_, ht, hcut⟩, ?_⟩
  · rw [tbl_write?, tbl_write?]
    rfl
  · rw [head_write?, head_write?]
  · have hsame : Reordered (items.map Prod.fst) h { (h.withTbl { T with tail := t }) with
        head := (l₁ ++ l₂).head? } := Reordered.of_handles rfl
    rw [← hes] at hbefore hafter
    exact hsame.trans (reordered_cutOrder hbefore hafter)

/-- The objects that stay are those on either side of the one that goes. -/
theorem map_filter_ne {l₁ l₂ : List Nat} (hnd : (items.map Prod.fst).Nodup)
    (hes : items.map Prod.fst = l₁ ++ e :: l₂) :
    (items.filter fun p => p.1 ≠ e).map Prod.fst = l₁ ++ l₂ ∧
      (items.map Prod.fst).erase e = l₁ ++ l₂ := by
  have herase : (items.map Prod.fst).erase e = l₁ ++ l₂ := by
    rw [hes] at hnd ⊢
    rw [List.erase_append_right _ (Ring.notMem_of_nodup_cut hnd).1, List.erase_cons_head]
  refine ⟨?_, herase⟩
  rw [← herase, hnd.erase_eq_filter, List.filter_map]
  congr 1
  refine List.filter_congr fun p _ => ?_
  by_cases hp : p.1 = e <;> simp [hp]

/-- **Deleting an item** leaves a sound table of the others. -/
theorem hashRemove_spec (so : h.Sound env items) (he : e ∈ items.map Prod.fst) :
    Yields (hashRemove e) h (fun _ h' => h'.Sound env (items.filter fun p => p.1 ≠ e) ∧
      ∀ b, b ∉ items.map Prod.fst → h'.handles b = h.handles b) := by
  cases so with
  | empty => simp at he
  | @filled T _ fl =>
      obtain ⟨l₁, l₂, hes⟩ := List.append_of_mem he
      obtain ⟨hmap, herase⟩ := map_filter_ne fl.nodup hes
      have hl := fl.order.linked
      rw [hes] at hl
      obtain ⟨H, hH⟩ := fl.live he
      have hnext : H.next = l₂.head? := by
        have := hl.next_mem
        rw [field, hH] at this
        exact Option.some.inj this
      have hprev : H.prev = l₁.getLast? := by
        have := hl.prev_mem
        rw [field, hH] at this
        exact Option.some.inj this
      unfold hashRemove
      refine Yields.step (getHandle_run hH) ?_
      by_cases hne : l₁ ++ l₂ = []
      · -- the last item takes the table with it
        obtain ⟨rfl, rfl⟩ := List.append_eq_nil_iff.mp hne
        rw [if_pos ⟨hprev, hnext⟩]
        rw [List.map_eq_nil_iff.mp hmap]
        refine Yields.step fl.rooted.getTbl_run ?_
        exact ⟨(), _, rfl, .empty rfl rfl, fun _ _ => rfl⟩
      · have hlinks : ¬(H.prev = none ∧ H.next = none) := by
          rw [hprev, hnext, List.getLast?_eq_none_iff, List.head?_eq_none_iff]
          rintro ⟨rfl, rfl⟩
          exact hne rfl
        rw [if_neg hlinks]
        refine (hashUnlink_spec fl hes hne).bind ?_
        rintro _ g ⟨t, htbl, horder, hre⟩
        have hlive : ∀ b ∈ items.map Prod.fst, g.Live b := fun b hb =>
          hre.live.mpr (fl.live hb)
        have r := horder.rooted (fun b hb => Linked.live horder.linked hb) htbl
        obtain ⟨H', hH'⟩ := hlive e he
        refine Yields.step (getHandle_run hH') (Yields.step r.getTbl_run ?_)
        rw [show hashToBkt H'.hashv T.numBuckets = h.slotOf T.numBuckets e by
          rw [← slotOf_of_handle hH', hre.slotOf]]
        have hlt : h.slotOf T.numBuckets e < T.buckets.length := by
          rw [fl.sized.buckets]
          exact fl.sized.slot_lt h e
        have hfew : (items.map Prod.fst).length < 2 ^ 32 := by
          rw [List.length_map]
          exact fl.few
        refine (hashDelInBkt_spec r (hre.chained fl.chained) he hlt hfew).bind ?_
        rintro _ g' ⟨bs, htbl', hlen, hre', hchained⟩
        have r' := hre'.rooted r htbl'
        have hpos : 0 < items.length := List.length_pos_iff.mpr fl.ne_nil
        have hcount : (items.filter fun p => p.1 ≠ e).length = items.length - 1 := by
          rw [← List.length_map (f := Prod.fst), hmap, ← herase, List.length_erase_of_mem he,
            List.length_map]
        refine ⟨(), _, r'.modifyTbl_run _, .filled (T := { T with
          tail := t, buckets := bs, numItems := u32Dec T.numItems }) ⟨rfl, ⟨?_, ?_, ?_⟩, ?_, ?_,
          ⟨fl.sized.log, fl.sized.num, hlen.trans fl.sized.buckets, ?_⟩, ?_⟩, fun b hb => ?_⟩
        · rw [hmap]
          exact hre'.head.trans horder.head
        · rw [hmap]
          exact horder.tail
        · rw [hmap, field_withTbl, field_withTbl, hre'.next, hre'.prev]
          exact horder.linked
        · intro p hp
          rw [field_withTbl, field_withTbl, hre'.key, hre'.hashv, hre.key, hre.hashv]
          exact fl.keys p (List.mem_of_mem_filter hp)
        · rw [hcount]
          have := fl.few
          omega
        · show u32Dec T.numItems = _
          rw [hcount, fl.sized.items]
          exact u32Dec_of_pos hpos fl.few.le
        · have hslot : HashHeap.slotOf (g'.withTbl { T with
              tail := t, buckets := bs, numItems := u32Dec T.numItems }) T.numBuckets =
              h.slotOf T.numBuckets := (hre'.slotOf _).trans (hre.slotOf _)
          rw [hslot, hmap, ← herase]
          exact hchained
        · exact (hre'.outside b hb).trans (hre.outside b hb)

theorem hashDelete_spec (so : h.Sound env items) (he : e ∈ items.map Prod.fst) :
    Yields (hashDelete env e) h (fun _ h' => h'.Sound env (items.filter fun p => p.1 ≠ e) ∧
      ∀ b, b ∉ items.map Prod.fst → h'.handles b = h.handles b) := by
  unfold hashDelete
  refine (hashRemove_spec so he).bind ?_
  rintro _ g ⟨so', hout⟩
  exact ⟨(), g, so'.hashIf_run, so', hout⟩

theorem hashClear_spec (so : h.Sound env items) :
    Yields hashClear h (fun _ h' => h'.Sound env [] ∧ h'.handles = h.handles) := by
  unfold hashClear
  refine Yields.step (a := h) rfl ?_
  cases so with
  | empty hhead htbl =>
      simp only [hhead]
      exact yields_pure.mpr ⟨.empty hhead htbl, rfl⟩
  | filled fl =>
      obtain ⟨a, hhead, -⟩ := fl.head_eq
      simp only [hhead]
      refine Yields.step fl.rooted.getTbl_run ?_
      exact ⟨(), _, rfl, .empty rfl rfl, rfl⟩

end HashHeap

end Pb
