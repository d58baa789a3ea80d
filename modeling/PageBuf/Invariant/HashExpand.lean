import PageBuf.Invariant.HashChains
import Mathlib.Algebra.Order.Group.Nat
import Mathlib.Data.Nat.Bitwise

/-!
# HashExpand — doubling the buckets of a hash table

The items go over one by one, chain after chain. Until an item has gone its
forward link is all that the loops use of it, and the items that have gone are
chained in the new buckets already.
-/

namespace Pb

open StateRun Function Chain

variable {κ : Type} {env : HashEnv κ} {h h' : HashHeap κ} {T T' : HashTable}
  {e i k n v : Nat} {es gone l : List Nat} {new : List HashBucket} {H : HashHandle κ}
  {slot : Nat → Nat}

/-! ## Buckets by number -/

theorem hashToBkt_lt (hk : k < 32) (v : Nat) : hashToBkt v (2 ^ k) < 2 ^ k := by
  have hle : 2 ^ k ≤ 2 ^ 32 := Nat.pow_le_pow_right (by omega) hk.le
  have hpos : 0 < 2 ^ k := Nat.two_pow_pos k
  have hand : v &&& u32Dec (2 ^ k) ≤ u32Dec (2 ^ k) := Nat.and_le_right
  rw [u32Dec_of_pos hpos hle] at hand
  unfold hashToBkt
  rw [u32Dec_of_pos hpos hle]
  omega

/-- The items of the buckets up to one are those of the buckets before it, and its own. -/
theorem perm_filter_lt_succ (slot : Nat → Nat) (i : Nat) (es : List Nat) :
    (es.filter fun e => slot e < i + 1).Perm
      ((es.filter fun e => slot e = i) ++ es.filter fun e => slot e < i) := by
  induction es with
  | nil => exact .nil
  | cons e es ih =>
      rcases Nat.lt_trichotomy (slot e) i with hlt | heq | hgt
      · rw [List.filter_cons_of_pos (by simp; omega), List.filter_cons_of_neg (by simp; omega),
          List.filter_cons_of_pos (by simp; omega)]
        exact (ih.cons e).trans List.perm_middle.symm
      · rw [List.filter_cons_of_pos (by simp; omega), List.filter_cons_of_pos (by simp; omega),
          List.filter_cons_of_neg (by simp; omega)]
        exact ih.cons e
      · rw [List.filter_cons_of_neg (by simp; omega), List.filter_cons_of_neg (by simp; omega),
          List.filter_cons_of_neg (by simp; omega)]
        exact ih

/-- A machine that cannot give `2 ^ 36` bytes at once. -/
def HashEnv.Bounded (env : HashEnv κ) : Prop :=
  ∀ n size, env.grants n size = true → size < 2 ^ 36

namespace HashHeap

/-- The bucket of an item among `n`. -/
def slotOf (h : HashHeap κ) (n e : Nat) : Nat :=
  hashToBkt ((h.field HashHandle.hashv e).getD 0) n

theorem slotOf_of_handle (hH : h.handles e = some H) : h.slotOf n e = hashToBkt H.hashv n := by
  simp [slotOf, field, hH]

theorem Rechained.slotOf (c : Rechained es h h') (n : Nat) : h'.slotOf n = h.slotOf n := by
  ext b
  rw [HashHeap.slotOf, c.hashv]
  rfl

end HashHeap

/-- The numbers of a table of `n` items. -/
structure HashTable.Sized (T : HashTable) (n : Nat) : Prop where
  log : T.log2NumBuckets < 32
  num : T.numBuckets = 2 ^ T.log2NumBuckets
  buckets : T.buckets.length = T.numBuckets
  items : T.numItems = n

theorem HashTable.Sized.slot_lt (s : T.Sized n) (h : HashHeap κ) (e : Nat) :
    h.slotOf T.numBuckets e < T.numBuckets := by
  rw [s.num]
  exact hashToBkt_lt s.log _

namespace HashHeap

/-! ## One item -/

theorem hashExpandMult_spec (r : h.Rooted T) (hideal : T.idealChainMaxlen ≠ 0) :
    Yields (hashExpandMult i k) h
      (fun _ h' => ∃ m, h' = h.withTbl { T with nonidealItems := m }) := by
  unfold hashExpandMult
  refine Yields.step r.getTbl_run ?_
  split
  · refine Yields.step (r.modifyTbl_run _) ?_
    rw [u32Div, if_neg hideal]
    exact yields_pure.mpr ⟨_, rfl⟩
  · refine yields_pure.mpr ⟨T.nonidealItems, ?_⟩
    rw [withTbl, ← r.tbl]

/-- **An item goes over.** -/
theorem hashMove_spec (r : h.Rooted T) (c : Chained h slot new gone) (hH : h.handles e = some H)
    (he : e ∉ gone) (hslot : hashToBkt H.hashv (u32 (T.numBuckets * 2)) = slot e)
    (hlt : slot e < new.length) (hideal : T.idealChainMaxlen ≠ 0)
    (hfew : gone.length + 1 < 2 ^ 32) :
    Yields (hashMove e new) h (fun r h' => r.1 = H.hhNext ∧ r.2.length = new.length ∧
      Chained h' slot r.2 (e :: gone) ∧ Rechained (e :: gone) h h' ∧
      ∃ m, h'.tbl = some { T with nonidealItems := m }) := by
  have hlive : h.Live e := ⟨H, hH⟩
  have hB : new[slot e]? = some new[slot e] := List.getElem?_eq_getElem hlt
  generalize new[slot e] = B at hB
  obtain ⟨l, hhead, hcount, hl, hperm⟩ := c (slot e) B hB
  have hlen : B.count ≤ gone.length := by
    rw [hcount, hperm.length_eq]
    exact List.length_filter_le _ _
  have hinc : u32Inc B.count = B.count + 1 := u32_of_lt (by omega)
  have hmem : ∀ b, B.hhHead = some b → b ∈ gone := fun b hb =>
    List.mem_of_mem_filter (hperm.mem_iff.mp (List.mem_of_head? (hhead ▸ hb)))
  have hfront : ∀ b, B.hhHead = some b → h.Live b := fun b hb =>
    Linked.live hl (List.mem_of_head? (hhead ▸ hb))
  unfold hashMove
  refine Yields.step (getHandle_run hH) (Yields.step r.getTbl_run ?_)
  simp only [hslot, hB, hinc]
  refine (hashExpandMult_spec r hideal).bind ?_
  rintro m h' ⟨t, rfl⟩
  refine Yields.step (modifyHandle_run hlive) (Yields.step (modifyHandle?_run ?_) ?_)
  · exact fun b hb => live_write.mpr (hfront b hb)
  · have c' : Chained (h.withTbl { T with nonidealItems := t }) slot new gone := c
    refine yields_pure.mpr ⟨rfl, List.length_set, c'.push hlive he hB m, ?_, t, ?_⟩
    · exact (Rechained.withTbl _).trans
        (rechained_pushed List.mem_cons_self fun b hb => List.mem_cons_of_mem e (hmem b hb))
    · exact tbl_write?

/-! ## One chain -/

/-- **A chain goes over.** -/
theorem hashMoveChain_spec (r : h.Rooted T) (c : Chained h slot new gone)
    (hl : Leads (h.field HashHandle.hhNext) l) (hnd : l.Nodup) (hdis : ∀ b ∈ l, b ∉ gone)
    (hslot : ∀ b ∈ l, h.slotOf (u32 (T.numBuckets * 2)) b = slot b ∧ slot b < new.length)
    (hideal : T.idealChainMaxlen ≠ 0) (hfew : l.length + gone.length < 2 ^ 32)
    (hle : l.length ≤ T.numItems) :
    Yields (hashMoveChain l.head? new) h (fun r h' => r.length = new.length ∧
      Chained h' slot r (l ++ gone) ∧ Rechained (l ++ gone) h h' ∧
      ∃ m, h'.tbl = some { T with nonidealItems := m }) := by
  unfold hashMoveChain
  refine Yields.step r.getTbl_run ?_
  refine Yields.loop (I := fun n b s => ∃ l₁ l₂, l = l₁ ++ l₂ ∧ b.1 = l₂.head? ∧ n = l₂.length ∧
    b.2.length = new.length ∧ Chained s slot b.2 (l₁ ++ gone) ∧ Rechained (l ++ gone) h s ∧
    Leads (s.field HashHandle.hhNext) l₂ ∧ ∃ m, s.tbl = some { T with nonidealItems := m })
    ?_ (T.numItems + 1) l.length (l.head?, new) h ?_ (by omega)
  · rintro n ⟨thh, bs⟩ s ⟨l₁, l₂, rfl, hthh, rfl, hlen, c', hre, hlead, m, htbl⟩
    have r' := hre.rooted r htbl
    cases l₂ with
    | nil =>
        obtain rfl : thh = none := hthh
        rw [List.append_nil] at hre
        rw [List.append_nil]
        exact yields_pure.mpr ⟨hlen, c', hre, m, htbl⟩
    | cons e l₂ =>
        obtain rfl : thh = some e := hthh
        have he : e ∈ l₁ ++ e :: l₂ := List.mem_append_cons_self
        have hcut : e ∉ l₁ ++ gone := by
          rw [List.mem_append, not_or]
          exact ⟨(Ring.notMem_of_nodup_cut hnd).1, hdis e he⟩
        obtain ⟨H, hH⟩ := live_of_field hlead.cons
        have hnext : H.hhNext = l₂.head? := by
          have := hlead.cons
          rw [field, hH] at this
          exact Option.some.inj this
        obtain ⟨hse, hlte⟩ := hslot e he
        have hsl : hashToBkt H.hashv (u32 (T.numBuckets * 2)) = slot e := by
          rw [← slotOf_of_handle hH, hre.slotOf, hse]
        have hcount : (l₁ ++ gone).length + 1 < 2 ^ 32 := by
          simp only [List.length_append, List.length_cons] at hfew ⊢
          omega
        refine Yields.bind (hashMove_spec r' c' hH hcut hsl (by rwa [hlen]) hideal hcount) ?_
        rintro ⟨nxt, bs'⟩ s' ⟨hnxt, hlen', c'', hre', m', htbl'⟩
        refine yields_pure.mpr ⟨l₂.length, by simp, l₁ ++ [e], l₂, by simp, hnxt.trans hnext, rfl,
          hlen'.trans hlen, ?_, ?_, ?_, m', htbl'⟩
        · refine c''.perm ?_
          rw [List.append_assoc]
          exact List.perm_middle.symm
        · refine hre.trans (hre'.mono ?_)
          intro b hb
          rcases List.mem_cons.mp hb with rfl | hb
          · exact List.mem_append_left _ he
          · simp only [List.mem_append, List.mem_cons] at hb ⊢
            tauto
        · refine hlead.tail.congr fun b hb => ?_
          rw [field, hre'.outside b, ← field]
          intro hin
          have hb' : b ∈ l₁ ++ e :: l₂ := by simp [hb]
          rcases List.mem_cons.mp hin with rfl | hin
          · exact (Ring.notMem_of_nodup_cut hnd).2 hb
          · rcases List.mem_append.mp hin with hin | hin
            · exact (List.nodup_append.mp hnd).2.2 b hin b (by simp [hb]) rfl
            · exact hdis b hb' hin
  · exact ⟨[], l, rfl, rfl, rfl, rfl, c, Rechained.refl, hl, T.nonidealItems, r.tbl⟩

/-! ## All chains -/

/-- **All items go over.** -/
theorem hashMoveAll_spec (r : h.Rooted T) (s : T.Sized es.length)
    (c : Chained h (h.slotOf T.numBuckets) T.buckets es) (hnd : es.Nodup)
    (hlive : ∀ b ∈ es, h.slotOf (u32 (T.numBuckets * 2)) b < new.length)
    (hz : Chained h (h.slotOf (u32 (T.numBuckets * 2))) new [])
    (hideal : T.idealChainMaxlen ≠ 0) (hfew : es.length < 2 ^ 32) :
    Yields (hashMoveAll new) h (fun r h' => r.length = new.length ∧
      Chained h' (h.slotOf (u32 (T.numBuckets * 2))) r es ∧ Rechained es h h' ∧
      ∃ m, h'.tbl = some { T with nonidealItems := m }) := by
  unfold hashMoveAll
  refine Yields.step r.getTbl_run ?_
  refine Yields.loop (I := fun n b g => b.1 + n = T.numBuckets ∧ b.2.length = new.length ∧
    Chained g (h.slotOf (u32 (T.numBuckets * 2))) b.2
      (es.filter fun e => h.slotOf T.numBuckets e < b.1) ∧ Rechained es h g ∧
    (∀ j B, b.1 ≤ j → T.buckets[j]? = some B → ∃ l : List Nat, B.hhHead = l.head? ∧
      Leads (g.field HashHandle.hhNext) l ∧
      l.Perm (es.filter fun e => h.slotOf T.numBuckets e = j)) ∧
    ∃ m, g.tbl = some { T with nonidealItems := m })
    ?_ (T.numBuckets + 1) T.numBuckets (0, new) h ?_ (by omega)
  · rintro n ⟨i, bs⟩ g ⟨hn, hlen, c', hre, hrest, m, htbl⟩
    dsimp only at hn hlen c' hrest
    have r' := hre.rooted r htbl
    by_cases hi : i < T.numBuckets
    · obtain ⟨B, hB⟩ : ∃ B, T.buckets[i]? = some B :=
        ⟨_, List.getElem?_eq_getElem (by rw [s.buckets]; exact hi)⟩
      obtain ⟨l, hhead, hlead, hperm⟩ := hrest i B le_rfl hB
      have hmem : ∀ {b}, b ∈ l → b ∈ es ∧ h.slotOf T.numBuckets b = i := fun hb => by
        simpa using hperm.mem_iff.mp hb
      have hsplit := perm_filter_lt_succ (h.slotOf T.numBuckets) i es
      have hsum : l.length + (es.filter fun e => h.slotOf T.numBuckets e < i).length ≤
          es.length := by
        have hall := List.length_filter_le (fun e => decide (h.slotOf T.numBuckets e < i + 1)) es
        rw [hsplit.length_eq, List.length_append, ← hperm.length_eq] at hall
        exact hall
      simp only [if_pos hi]
      refine Yields.step (r'.getBucket_run hB) ?_
      rw [hhead]
      refine Yields.bind (hashMoveChain_spec r' c' hlead (hperm.nodup_iff.mpr (hnd.filter _)) ?_ ?_
        hideal (by omega) ?_) ?_
      · intro b hb hgone
        have hlt := (List.mem_filter.mp hgone).2
        simp only [(hmem hb).2, decide_eq_true_eq] at hlt
        omega
      · intro b hb
        refine ⟨congrFun (hre.slotOf _) b, ?_⟩
        rw [hlen]
        exact hlive b (hmem hb).1
      · have hitems := s.items
        show l.length ≤ T.numItems
        omega
      · rintro bs' g' ⟨hlen', c'', hre', m', htbl'⟩
        have hsub : l ++ es.filter (fun e => h.slotOf T.numBuckets e < i) ⊆ es := by
          intro b hb
          rcases List.mem_append.mp hb with hb | hb
          · exact (hmem hb).1
          · exact List.mem_of_mem_filter hb
        refine yields_pure.mpr ⟨n - 1, by omega, by omega, hlen'.trans hlen, ?_,
          hre.trans (hre'.mono hsub), ?_, m', htbl'⟩
        · exact c''.perm ((hperm.append_right _).trans hsplit.symm)
        · intro j B' hij hB'
          obtain ⟨l', hhead', hlead', hperm'⟩ := hrest j B' (Nat.le_of_succ_le hij) hB'
          refine ⟨l', hhead', hlead'.congr fun b hb => ?_, hperm'⟩
          have hj : h.slotOf T.numBuckets b = j :=
            of_decide_eq_true (List.mem_filter.mp (hperm'.mem_iff.mp hb)).2
          rw [field, hre'.outside b, ← field]
          -- the chains that have gone are those of earlier buckets
          intro hin
          rcases List.mem_append.mp hin with hin | hin
          · have := (hmem hin).2
            omega
          · have hlt := (List.mem_filter.mp hin).2
            simp only [decide_eq_true_eq] at hlt
            omega
    · simp only [if_neg hi]
      refine yields_pure.mpr ⟨hlen, c'.perm ?_, hre, m, htbl⟩
      rw [List.filter_eq_self.mpr]
      intro b _
      have := s.slot_lt h b
      simp only [decide_eq_true_eq]
      omega
  · refine ⟨Nat.zero_add _, rfl, ?_, Rechained.refl, ?_, T.nonidealItems, r.tbl⟩
    · rwa [List.filter_eq_nil_iff.mpr]
      intro b _
      simp
    · intro j B _ hB
      obtain ⟨l, hhead, -, hl, hperm⟩ := c j B hB
      exact ⟨l, hhead, hl.leads, hperm⟩

/-! ## The expansion -/

/-- The ideal length of a chain is positive where there is an item. -/
theorem ideal_pos {n k : Nat} (hn : 0 < n) (hfew : n < 2 ^ 32) (hk : k < 32) :
    u32 ((n >>> k) + if n &&& u32Dec (2 ^ k) ≠ 0 then 1 else 0) ≠ 0 := by
  have hle : 2 ^ k ≤ 2 ^ 32 := Nat.pow_le_pow_right (by omega) hk.le
  have hpos : 0 < 2 ^ k := Nat.two_pow_pos k
  rw [u32Dec_of_pos hpos hle, Nat.and_two_pow_sub_one_eq_mod, Nat.shiftRight_eq_div_pow]
  have hadd := Nat.div_add_mod n (2 ^ k)
  have hmul : n / 2 ^ k ≤ 2 ^ k * (n / 2 ^ k) := Nat.le_mul_of_pos_left _ hpos
  by_cases hmod : n % 2 ^ k = 0
  · have hwhole : n / 2 ^ k ≠ 0 := by
      intro hz
      rw [hz, hmod] at hadd
      omega
    rw [if_neg (not_not_intro hmod), u32_of_lt (by omega)]
    exact hwhole
  · rw [if_pos hmod, u32_of_lt (by omega)]
    exact Nat.succ_ne_zero _

theorem hashMalloc_spec (size : Nat) :
    Unless .fatal (hashMalloc env size) h
      (fun _ h' => h' = { h with calls := h.calls + 1 } ∧ env.grants h.calls size = true) := by
  unfold hashMalloc
  by_cases hg : env.grants h.calls size = true
  · exact Yields.unless ⟨(), _, if_pos hg, rfl, hg⟩
  · exact .inl (if_neg hg)

/-- **The buckets are doubled**, or the memory is not there. -/
theorem hashExpandBuckets_spec (hbound : env.Bounded) (r : h.Rooted T) (s : T.Sized es.length)
    (c : Chained h (h.slotOf T.numBuckets) T.buckets es) (hnd : es.Nodup) (hne : es ≠ [])
    (hfew : es.length < 2 ^ 32) :
    Unless .fatal (hashExpandBuckets env) h (fun _ h' => ∃ T', h'.tbl = some T' ∧
      T'.Sized es.length ∧ T'.tail = T.tail ∧ Rechained es h h' ∧
      Chained h' (h'.slotOf T'.numBuckets) T'.buckets es) := by
  unfold hashExpandBuckets
  refine Unless.step r.getTbl_run ?_
  refine (hashMalloc_spec _).bind ?_
  rintro _ g ⟨rfl, hgrant⟩
  have hsize := hbound _ _ hgrant
  have hlog : T.log2NumBuckets + 1 < 32 := by
    by_contra hge
    have h31 : T.log2NumBuckets = 31 := by
      have := s.log
      omega
    rw [s.num, h31] at hsize
    omega
  have hdouble : u32 (T.numBuckets * 2) = 2 ^ (T.log2NumBuckets + 1) := by
    rw [s.num, ← Nat.pow_succ]
    exact u32_of_lt (Nat.pow_lt_pow_right (by omega) (by omega))
  have hinc : u32Inc T.log2NumBuckets = T.log2NumBuckets + 1 := u32_of_lt (by omega)
  have hlen : 2 * T.numBuckets = 2 ^ (T.log2NumBuckets + 1) := by
    rw [s.num, Nat.pow_succ, Nat.mul_comm]
  have hshr : u32Shr T.numItems (u32Inc T.log2NumBuckets) { h with calls := h.calls + 1 } =
      .ok (T.numItems >>> (T.log2NumBuckets + 1), { h with calls := h.calls + 1 }) := by
    rw [hinc, u32Shr, if_neg (by omega)]
    rfl
  have hideal := ideal_pos (List.length_pos_iff.mpr hne) hfew hlog
  rw [← s.items] at hideal
  have r' : HashHeap.Rooted { h with calls := h.calls + 1 } T := ⟨r.head, r.tbl⟩
  refine Unless.step hshr (Unless.step (r'.modifyTbl_run _) ?_)
  rw [hdouble]
  have hmove := hashMoveAll_spec (h := HashHeap.withTbl { h with calls := h.calls + 1 } { T with
      idealChainMaxlen := u32 ((T.numItems >>> (T.log2NumBuckets + 1)) +
        if T.numItems &&& u32Dec (2 ^ (T.log2NumBuckets + 1)) ≠ 0 then 1 else 0),
      nonidealItems := 0 })
    (r'.withTbl _) ⟨s.log, s.num, s.buckets, s.items⟩ c hnd ?_
    (chained_zero _ (2 * T.numBuckets)) hideal hfew
  · refine hmove.unless.bind ?_
    rintro new g ⟨hnew, c', hre, m, htbl⟩
    have r'' := hre.rooted (r'.withTbl _) htbl
    refine Yields.unless ⟨(), _, r''.modifyTbl_run _, _, rfl, ?_, rfl, ?_, ?_⟩
    · refine ⟨?_, ?_, ?_, s.items⟩
      · show u32Inc T.log2NumBuckets < 32
        omega
      · show u32 (T.numBuckets * 2) = 2 ^ u32Inc T.log2NumBuckets
        rw [hinc, hdouble]
      · show new.length = u32 (T.numBuckets * 2)
        rw [hnew, List.length_replicate, hdouble, hlen]
    · exact ⟨hre.head, hre.next, hre.prev, hre.key, hre.hashv, hre.outside⟩
    · have hslot : HashHeap.slotOf (g.withTbl T) (u32 (T.numBuckets * 2)) =
          h.slotOf (u32 (T.numBuckets * 2)) := hre.slotOf _
      exact fun i B hB => hslot ▸ c' i B hB
  · intro b _
    rw [List.length_replicate, hlen]
    show HashHeap.slotOf _ (u32 (T.numBuckets * 2)) b < _
    rw [hdouble]
    exact hashToBkt_lt hlog _

/-! ## An item that is added -/

/-- **The item that is added gets to the front of its chain.** -/
theorem hashPush_spec (r : h.Rooted T) (s : T.Sized (es.length + 1))
    (c : Chained h (h.slotOf T.numBuckets) T.buckets es) (he : e ∉ es) (hlive : h.Live e)
    (hfew : es.length + 1 < 2 ^ 32) :
    Yields (hashPush (h.slotOf T.numBuckets e) e) h (fun _ h' => ∃ T', h'.tbl = some T' ∧
      T'.Sized (es.length + 1) ∧ T'.tail = T.tail ∧ Rechained (e :: es) h h' ∧
      h.slotOf T.numBuckets e < T'.buckets.length ∧
      Chained h' (h'.slotOf T'.numBuckets) T'.buckets (e :: es)) := by
  have hlt : h.slotOf T.numBuckets e < T.buckets.length := by
    rw [s.buckets]
    exact s.slot_lt h e
  obtain ⟨B, hB⟩ : ∃ B, T.buckets[h.slotOf T.numBuckets e]? = some B :=
    ⟨_, List.getElem?_eq_getElem hlt⟩
  obtain ⟨l, hhead, hcount, hl, hperm⟩ := c _ B hB
  have hlen : B.count ≤ es.length := by
    rw [hcount, hperm.length_eq]
    exact List.length_filter_le _ _
  have hinc : u32Inc B.count = B.count + 1 := u32_of_lt (by omega)
  have hmem : ∀ b, B.hhHead = some b → b ∈ es := fun b hb =>
    List.mem_of_mem_filter (hperm.mem_iff.mp (List.mem_of_head? (hhead ▸ hb)))
  have hfront : ∀ b, B.hhHead = some b → h.Live b := fun b hb =>
    Linked.live hl (List.mem_of_head? (hhead ▸ hb))
  generalize hslot : h.slotOf T.numBuckets e = i at hB hlt ⊢
  have hget : ∀ B₁ : HashBucket, (T.buckets.set i B₁)[i]? = some B₁ :=
    fun B₁ => List.getElem?_set_self hlt
  have hset : ∀ B₁ B₂ : HashBucket, (T.buckets.set i B₁).set i B₂ = T.buckets.set i B₂ :=
    fun B₁ _ => List.set_set B₁
  have r₁ := r.withTbl { T with buckets := T.buckets.set i { B with count := u32Inc B.count } }
  -- with the item at its front the chain is longer by one
  have hre : Rechained (e :: es) h _ := ((Rechained.withTbl
    { T with buckets := T.buckets.set i { B with count := u32Inc B.count } }).trans
      (rechained_pushed (x := B.hhHead) List.mem_cons_self
        fun b hb => List.mem_cons_of_mem e (hmem b hb))).trans (Rechained.withTbl
    { T with buckets := T.buckets.set i ⟨some e, u32Inc B.count, B.expandMult⟩ })
  have c₁ : Chained (h.withTbl { T with
      buckets := T.buckets.set i { B with count := u32Inc B.count } }) (h.slotOf T.numBuckets)
      T.buckets es := c
  have hchain := c₁.push hlive he (by rwa [hslot]) B.expandMult
  rw [hslot, ← hinc, ← hre.slotOf] at hchain
  unfold hashPush
  refine Yields.step (r.modifyBucket_run hB _) ?_
  refine Yields.step (r₁.getBucket_run (hget _)) ?_
  refine Yields.step (modifyHandle_run hlive) ?_
  refine Yields.step (modifyHandle?_run fun b hb => live_write.mpr (hfront b hb)) ?_
  refine ⟨(), _, r₁.write.write?.modifyBucket_run (hget _) _, ?_⟩
  simp only [hset]
  exact ⟨_, rfl, ⟨s.log, s.num, by rw [List.length_set]; exact s.buckets, s.items⟩, rfl, hre,
    by rwa [List.length_set], hchain⟩

/-- **The item that is added gets into its bucket**, or the memory is not there. -/
theorem hashAddToBkt_spec (hbound : env.Bounded) (r : h.Rooted T) (s : T.Sized (es.length + 1))
    (c : Chained h (h.slotOf T.numBuckets) T.buckets es) (hnd : (e :: es).Nodup) (hlive : h.Live e)
    (hfew : es.length + 1 < 2 ^ 32) :
    Unless .fatal (hashAddToBkt env (h.slotOf T.numBuckets e) e) h (fun _ h' => ∃ T',
      h'.tbl = some T' ∧ T'.Sized (es.length + 1) ∧ T'.tail = T.tail ∧
      Rechained (e :: es) h h' ∧ Chained h' (h'.slotOf T'.numBuckets) T'.buckets (e :: es)) := by
  unfold hashAddToBkt
  refine (hashPush_spec r s c (List.nodup_cons.mp hnd).1 hlive hfew).unless.bind ?_
  rintro _ g ⟨T₁, htbl, s₁, htail, hre, hlt, c₁⟩
  have r₁ := hre.rooted r htbl
  refine Unless.step (r₁.getBucket_run (List.getElem?_eq_getElem hlt)) ?_
  refine Unless.step r₁.getTbl_run ?_
  unfold hashIf
  split
  · have s₁' : T₁.Sized (e :: es).length := s₁
    refine (hashExpandBuckets_spec hbound r₁ s₁' c₁ hnd (List.cons_ne_nil _ _) hfew).mono ?_
    rintro _ h' ⟨T', htbl', s', htail', hre', hc⟩
    exact ⟨T', htbl', s', htail'.trans htail, hre.trans hre', hc⟩
  · exact Yields.unless (yields_pure.mpr ⟨T₁, htbl, s₁, htail, hre, c₁⟩)

end HashHeap

end Pb
