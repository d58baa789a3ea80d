import PageBuf.Invariant.HashExpand

/-!
# HashOrder — a sound hash table

A table is sound when its items are linked in the order they were added, each
with its key and the hash of it, and chained in their buckets. What
`PB_HASH_FSCK` checks of such a table holds, and a search in it comes to the
items with the key it looks for.
-/

namespace Pb

open StateRun Function Chain

variable {κ : Type} {env : HashEnv κ} {h h' : HashHeap κ} {T : HashTable}
  {e i tail : Nat} {key : κ} {es l : List Nat} {items : List (Nat × κ)} {B : HashBucket}
  {H : HashHandle κ}

namespace HashHeap

/-- The objects from the head pointer to the tail. -/
structure InOrder (h : HashHeap κ) (tail : Nat) (es : List Nat) : Prop where
  head : h.head = es.head?
  tail : es.getLast? = some tail
  linked : Linked (h.field HashHandle.next) (h.field HashHandle.prev) es

/-- The table holds `items`, in this order. -/
structure Filled (env : HashEnv κ) (h : HashHeap κ) (T : HashTable) (items : List (Nat × κ)) :
    Prop where
  tbl : h.tbl = some T
  order : h.InOrder T.tail (items.map Prod.fst)
  keys : ∀ p ∈ items, h.field HashHandle.key p.1 = some p.2 ∧
    h.field HashHandle.hashv p.1 = some (env.fcn p.2).toNat
  few : items.length < 2 ^ 32
  sized : T.Sized items.length
  chained : Chained h (h.slotOf T.numBuckets) T.buckets (items.map Prod.fst)

/-- The table is sound: there is none, or it holds the items. -/
inductive Sound (env : HashEnv κ) (h : HashHeap κ) : List (Nat × κ) → Prop where
  | empty : h.head = none → h.tbl = none → Sound env h []
  | filled {T : HashTable} {items : List (Nat × κ)} : h.Filled env T items → Sound env h items

namespace Filled

variable (fl : h.Filled env T items)

include fl

theorem nodup : (items.map Prod.fst).Nodup := fl.order.linked.nodup

theorem ne_nil : items ≠ [] := by
  rintro rfl
  simpa using fl.order.tail

theorem live (he : e ∈ items.map Prod.fst) : h.Live e := by
  obtain ⟨p, hp, rfl⟩ := List.mem_map.mp he
  exact live_of_field (fl.keys p hp).1

theorem head_eq : ∃ e, h.head = some e ∧ e ∈ items.map Prod.fst := by
  cases hhead : (items.map Prod.fst).head? with
  | none => exact absurd (List.map_eq_nil_iff.mp (List.head?_eq_none_iff.mp hhead)) fl.ne_nil
  | some e => exact ⟨e, fl.order.head.trans hhead, List.mem_of_head? hhead⟩

theorem rooted : h.Rooted T := by
  obtain ⟨e, hhead, he⟩ := fl.head_eq
  exact ⟨⟨e, hhead, fl.live he⟩, fl.tbl⟩

/-- The chain of a bucket, as long as it is. -/
theorem bucket (hi : i < T.numBuckets) : ∃ (B : HashBucket) (l : List Nat),
    T.buckets[i]? = some B ∧ B.hhHead = l.head? ∧ B.count = l.length ∧
    Linked (h.field HashHandle.hhNext) (h.field HashHandle.hhPrev) l ∧
    l.Perm ((items.map Prod.fst).filter fun e => h.slotOf T.numBuckets e = i) ∧
    l.length ≤ T.numItems := by
  have hlt : i < T.buckets.length := by
    rw [fl.sized.buckets]
    exact hi
  obtain ⟨l, hhead, hcount, hl, hperm⟩ := fl.chained i _ (List.getElem?_eq_getElem hlt)
  refine ⟨_, l, List.getElem?_eq_getElem hlt, hhead, hcount, hl, hperm, ?_⟩
  have hle := List.length_filter_le (fun e => decide (h.slotOf T.numBuckets e = i))
    (items.map Prod.fst)
  rw [← hperm.length_eq, List.length_map] at hle
  rw [fl.sized.items]
  exact hle

/-- The hash of an item is that of its key. -/
theorem slotOf (he : (e, key) ∈ items) :
    h.slotOf T.numBuckets e = hashToBkt (env.fcn key).toNat T.numBuckets := by
  rw [HashHeap.slotOf, (fl.keys _ he).2, Option.getD_some]

end Filled

/-! ## The integrity check -/

/-- A program that returns one thing, and changes nothing. -/
theorem run_of_yields {α : Type} {m : HashM κ α} {a : α}
    (hy : Yields m h (fun b h' => b = a ∧ h' = h)) : m h = .ok (a, h) := by
  obtain ⟨b, h', hrun, rfl, rfl⟩ := hy
  exact hrun

theorem hashCheck_run {p : Prop} [Decidable p] (hp : p) : hashCheck p h = .ok ((), h) := by
  rw [hashCheck, if_pos hp]
  rfl

/-- A walk along a chain finds its links in order, and counts it. -/
theorem hashFsckWalk_run {next prev : HashHandle κ → Option Nat} (r : h.Rooted T)
    (hl : Linked (h.field next) (h.field prev) l) (hle : l.length ≤ T.numItems)
    (hfew : l.length < 2 ^ 32) : hashFsckWalk next prev l.head? h = .ok (l.length, h) := by
  refine run_of_yields ?_
  unfold hashFsckWalk
  refine Yields.step r.getTbl_run ?_
  refine Yields.loop (I := fun n b s => s = h ∧ ∃ l₁ l₂, l = l₁ ++ l₂ ∧
    b = (l₂.head?, l₁.getLast?, l₁.length) ∧ n = l₂.length) ?_ (T.numItems + 1) l.length
    (l.head?, none, 0) h ⟨rfl, [], l, rfl, rfl, rfl⟩ (by omega)
  rintro n b s ⟨rfl, l₁, l₂, rfl, rfl, rfl⟩
  cases l₂ with
  | nil => exact yields_pure.mpr ⟨by simp, rfl⟩
  | cons e l₂ =>
      obtain ⟨H, hH⟩ := Linked.live hl (e := e) (by simp)
      have hnext : next H = l₂.head? := by
        have := hl.next_mem
        rw [field, hH] at this
        exact Option.some.inj this
      have hprev : prev H = l₁.getLast? := by
        have := hl.prev_mem
        rw [field, hH] at this
        exact Option.some.inj this
      refine Yields.step (getHandle_run hH) (Yields.step (hashCheck_run hprev) ?_)
      refine yields_pure.mpr ⟨l₂.length, by simp, rfl, l₁ ++ [e], l₂, by simp, ?_, rfl⟩
      rw [hnext, List.getLast?_concat, List.length_append]
      have hinc : u32Inc l₁.length = l₁.length + 1 := by
        refine u32_of_lt ?_
        simp only [List.length_append, List.length_cons] at hfew
        omega
      rw [hinc]
      rfl

/-- The first part of the check: the buckets count the items that belong to them. -/
theorem Filled.hashFsckBuckets_run (fl : h.Filled env T items) :
    loopM .diverges (fun (b : Nat × Nat) => do
      if b.1 < T.numBuckets then do
        let B ← getBucket b.1
        let bktCount ← hashFsckWalk HashHandle.hhNext HashHandle.hhPrev B.hhHead
        hashCheck (B.count = bktCount)
        pure (.inl (b.1 + 1, u32 (b.2 + bktCount)))
      else pure (.inr b.2)) (T.numBuckets + 1) (0, 0) h = .ok (T.numItems, h) := by
  have hfew := fl.few
  have hitems := fl.sized.items
  refine run_of_yields (Yields.loop (I := fun n b s => s = h ∧ b.1 + n = T.numBuckets ∧
    b.2 = ((items.map Prod.fst).filter fun e => h.slotOf T.numBuckets e < b.1).length)
    ?_ (T.numBuckets + 1) T.numBuckets (0, 0) h ⟨rfl, Nat.zero_add _, ?_⟩ (by omega))
  · rintro n ⟨i, count⟩ s ⟨rfl, hn, hcount⟩
    dsimp only at hn hcount
    by_cases hi : i < T.numBuckets
    · obtain ⟨B, l, hB, hfront, hlen, hl, hperm, hle⟩ := fl.bucket hi
      have hwalk := hashFsckWalk_run fl.rooted hl hle (by omega)
      rw [← hfront] at hwalk
      simp only [if_pos hi]
      refine Yields.step (fl.rooted.getBucket_run hB) (Yields.step hwalk ?_)
      refine Yields.step (hashCheck_run hlen) ?_
      refine yields_pure.mpr ⟨n - 1, by omega, rfl, by omega, ?_⟩
      have hsplit := (perm_filter_lt_succ (s.slotOf T.numBuckets) i
        (items.map Prod.fst)).length_eq
      have hall := List.length_filter_le (fun e => decide (s.slotOf T.numBuckets e < i + 1))
        (items.map Prod.fst)
      rw [List.length_append, ← hperm.length_eq] at hsplit
      rw [List.length_map] at hall
      show u32 (count + l.length) =
        ((items.map Prod.fst).filter fun e => s.slotOf T.numBuckets e < i + 1).length
      rw [u32_of_lt (by omega)]
      omega
    · simp only [if_neg hi]
      refine yields_pure.mpr ⟨?_, rfl⟩
      rw [hcount, List.filter_eq_self.mpr, List.length_map, hitems]
      intro b _
      have := fl.sized.slot_lt s b
      simp only [decide_eq_true_eq]
      omega
  · rw [List.filter_eq_nil_iff.mpr]
    · rfl
    · intro b _
      simp

/-- **The integrity check passes**, and changes nothing. -/
theorem Sound.hashFsck_run (so : h.Sound env items) : hashFsck h = .ok ((), h) := by
  unfold hashFsck
  refine (bind_run (a := h) rfl).trans ?_
  cases so with
  | empty hhead _ =>
      simp only [hhead]
      rfl
  | @filled T _ fl =>
      obtain ⟨a, hhead, -⟩ := fl.head_eq
      have hfew := fl.few
      have hlen : (items.map Prod.fst).length = T.numItems := by
        rw [List.length_map, fl.sized.items]
      have hwalk := hashFsckWalk_run fl.rooted fl.order.linked hlen.le
        (by rw [List.length_map]; exact hfew)
      rw [← fl.order.head, hhead] at hwalk
      simp only [hhead]
      refine (bind_run fl.rooted.getTbl_run).trans ((bind_run fl.hashFsckBuckets_run).trans ?_)
      refine (bind_run (hashCheck_run rfl)).trans ((bind_run hwalk).trans ?_)
      exact hashCheck_run hlen

/-! ## Looking up and going through -/

/-- A search along a chain. -/
theorem hashFindInBkt_run [DecidableEq κ] (key : κ) (r : h.Rooted T)
    (hl : Linked (h.field HashHandle.hhNext) (h.field HashHandle.hhPrev) l)
    (hle : l.length ≤ T.numItems) : ∃ out, hashFindInBkt l.head? key h = .ok (out, h) ∧
      (∀ e, out = some e → e ∈ l ∧ h.field HashHandle.key e = some key) ∧
      (out = none → ∀ e ∈ l, h.field HashHandle.key e ≠ some key) := by
  suffices hy : Yields (hashFindInBkt l.head? key) h (fun out h' => h' = h ∧
      (∀ e, out = some e → e ∈ l ∧ h.field HashHandle.key e = some key) ∧
      (out = none → ∀ e ∈ l, h.field HashHandle.key e ≠ some key)) by
    obtain ⟨out, h', hrun, rfl, hout⟩ := hy
    exact ⟨out, hrun, hout⟩
  unfold hashFindInBkt
  refine Yields.step r.getTbl_run ?_
  -- no item that the search has passed has the key
  refine Yields.loop (I := fun n b s => s = h ∧ ∃ l₁ l₂, l = l₁ ++ l₂ ∧ b = l₂.head? ∧
    n = l₂.length ∧ ∀ e ∈ l₁, h.field HashHandle.key e ≠ some key) ?_ (T.numItems + 1) l.length
    l.head? h ⟨rfl, [], l, rfl, rfl, rfl, by simp⟩ (by omega)
  rintro n b s ⟨rfl, l₁, l₂, rfl, rfl, rfl, hpassed⟩
  cases l₂ with
  | nil =>
      refine yields_pure.mpr ⟨rfl, by simp, fun _ => ?_⟩
      rwa [List.append_nil]
  | cons e l₂ =>
      obtain ⟨H, hH⟩ := Linked.live hl (e := e) (by simp)
      have hkey : s.field HashHandle.key e = some H.key := by rw [field, hH]; rfl
      refine Yields.step (getHandle_run hH) ?_
      by_cases hk : H.key = key
      · rw [if_pos hk]
        refine yields_pure.mpr ⟨rfl, ?_, by simp⟩
        intro e' he'
        cases he'
        exact ⟨by simp, by rw [hkey, hk]⟩
      · rw [if_neg hk]
        have hnext : H.hhNext = l₂.head? := by
          have := hl.next_mem
          rw [field, hH] at this
          exact Option.some.inj this
        refine yields_pure.mpr ⟨l₂.length, by simp, rfl, l₁ ++ [e], l₂, by simp, hnext, rfl, ?_⟩
        intro e' he'
        rcases List.mem_append.mp he' with he' | he'
        · exact hpassed e' he'
        · rw [List.mem_singleton.mp he', hkey]
          exact fun heq => hk (Option.some.inj heq)

/-- **A search finds an item with the key, if there is one.** -/
theorem Sound.hashFind_run [DecidableEq κ] (so : h.Sound env items) (key : κ) :
    ∃ out, hashFind env key h = .ok (out, h) ∧ (∀ e, out = some e → (e, key) ∈ items) ∧
      (out = none → ∀ e, (e, key) ∉ items) := by
  have hrun : hashFind env key h = _ := bind_run (a := h) rfl
  rw [hrun]
  cases so with
  | empty hhead _ =>
      simp only [hhead]
      exact ⟨none, rfl, by simp, by simp⟩
  | @filled T _ fl =>
      obtain ⟨a, hhead, -⟩ := fl.head_eq
      have hlt : hashToBkt (env.fcn key).toNat T.numBuckets < T.numBuckets := by
        rw [fl.sized.num]
        exact hashToBkt_lt fl.sized.log _
      obtain ⟨B, l, hB, hfront, -, hl, hperm, hle⟩ := fl.bucket hlt
      obtain ⟨out, hfind, hsome, hnone⟩ := hashFindInBkt_run key fl.rooted hl hle
      simp only [hhead]
      refine ⟨out, ?_, ?_, ?_⟩
      · refine (bind_run fl.rooted.getTbl_run).trans ?_
        rw [← hfront] at hfind
        exact (bind_run (fl.rooted.getBucket_run hB)).trans hfind
      · intro e he
        obtain ⟨hel, hkey⟩ := hsome e he
        obtain ⟨⟨e', k⟩, hp, rfl⟩ := List.mem_map.mp (List.mem_of_mem_filter (hperm.mem_iff.mp hel))
        have hk := (fl.keys _ hp).1.symm.trans hkey
        rwa [← Option.some.inj hk]
      · intro hn e he
        refine hnone hn e (hperm.mem_iff.mpr (List.mem_filter.mpr ⟨?_, ?_⟩)) (fl.keys _ he).1
        · exact List.mem_map.mpr ⟨_, he, rfl⟩
        · exact decide_eq_true (fl.slotOf he)

/-- **The items come in the order they were added.** -/
theorem Sound.hashIter_run (so : h.Sound env items) : hashIter h = .ok (items, h) := by
  unfold hashIter
  refine (bind_run (a := h) rfl).trans ?_
  cases so with
  | empty hhead _ =>
      simp only [hhead]
      rfl
  | @filled T _ fl =>
      obtain ⟨a, hhead, -⟩ := fl.head_eq
      have hlen := fl.sized.items
      simp only [hhead]
      refine (bind_run fl.rooted.getTbl_run).trans (run_of_yields ?_)
      refine Yields.loop (I := fun n b s => s = h ∧ ∃ i₁ i₂, items = i₁ ++ i₂ ∧
        b = ((i₂.map Prod.fst).head?, i₁) ∧ n = i₂.length) ?_ (T.numItems + 1) items.length
        (some a, []) h ⟨rfl, [], items, rfl, ?_, rfl⟩ (by omega)
      · rintro n b s ⟨rfl, i₁, i₂, rfl, rfl, rfl⟩
        cases i₂ with
        | nil => exact yields_pure.mpr ⟨by simp, rfl⟩
        | cons p i₂ =>
            obtain ⟨e, k⟩ := p
            obtain ⟨H, hH⟩ := fl.live (e := e) (by simp)
            have hkey : H.key = k := by
              have := (fl.keys (e, k) (by simp)).1
              rw [field, hH] at this
              exact Option.some.inj this
            have hnext : H.next = (i₂.map Prod.fst).head? := by
              have hl := fl.order.linked
              rw [List.map_append, List.map_cons] at hl
              have := hl.next_mem
              rw [field, hH] at this
              exact Option.some.inj this
            refine Yields.step (getHandle_run hH) (yields_pure.mpr ?_)
            refine ⟨i₂.length, by simp, rfl, i₁ ++ [(e, k)], i₂, by simp, ?_, rfl⟩
            rw [hnext, hkey]
      · rw [← hhead, fl.order.head]

theorem Sound.hashCount_run (so : h.Sound env items) : hashCount h = .ok (items.length, h) := by
  unfold hashCount
  refine (bind_run (a := h) rfl).trans ?_
  cases so with
  | empty hhead _ =>
      simp only [hhead]
      rfl
  | @filled T _ fl =>
      obtain ⟨a, hhead, -⟩ := fl.head_eq
      simp only [hhead, ← fl.sized.items]
      exact bind_run fl.rooted.getTbl_run

end HashHeap

end Pb
