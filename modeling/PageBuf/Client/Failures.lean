import PageBuf.Client.Rings
import PageBuf.Client.Counts
import PageBuf.Client.Transfers

/-!
# Failures — what a refused request leaves behind

A call asks for up to three allocations a page, and for one more to split the
page it inserts at. Any of them may be refused, after any number of pages. The
count that is returned says exactly how much of the request is in the buffer;
what was taken for the rest has been given back.
-/

namespace Pb

open StateRun Sequence

variable {env : Env} {h h' : Heap} {R R' : Nat → List Nat} {b c k : Nat} {op : Op}

/-! ## What a state accounts for -/

/-- The rings and the sizes are right, everything that is allocated hangs on a
linked page, and the counts are those of the linked pages. -/
structure Accounted (h : Heap) : Prop where
  visits : ∀ {b}, (h.buffers b).isSome → ∀ k ≤ (h.pagesOf b).length + 1,
    Ring.follow h.nextOf b k = (b :: h.pagesOf b ++ [b])[k]?
  prevNext : ∀ {b}, (h.buffers b).isSome → ∀ p ∈ b :: h.pagesOf b,
    (h.nextOf p).bind h.prevOf = some p
  once : h.linkedPages.Nodup
  size : ∀ {b B}, h.buffers b = some B → B.dataSize = (h.content b).length
  page : ∀ p, (h.pages p).isSome ↔ (h.buffers p).isSome ∨ p ∈ h.linkedPages
  data : ∀ d, (h.datas d).isSome ↔ 0 < h.users d
  linked : ∀ p ∈ h.linkedPages, ∃ d, h.dataOf p = some d ∧ (h.datas d).isSome
  count : ∀ {d D}, h.datas d = some D → D.useCount = h.users d
  block : ∀ n, (h.blocks n).isSome →
    ∃ d D, h.datas d = some D ∧ D.dataVec.base.region = .heap n

/-- **The invariant accounts for everything.** -/
theorem Inv.accounted (hi : Inv h R) (hs : h.Small) : Accounted h where
  visits := fun {b} hb k hk => by
    have hl := hi.core.links
    rw [hl.pagesOf hb] at hk ⊢
    exact (hl.ring hb).follow_eq hk
  prevNext := fun {b} hb p hp => by
    have hl := hi.core.links
    rw [hl.pagesOf hb] at hp
    exact (hl.ring hb).prev_next hp
  once := hi.core.links.nodup_linkedPages
  size := fun {b B} hB => by
    have hb : (h.buffers b).isSome := by rw [hB]; rfl
    rw [hi.core.links.content hb, hi.totals.size hB]
  page := fun p => by
    rw [hi.core.links.live p, hi.core.links.mem_linkedPages]
    simp
  data := fun d => by
    have hlive := hi.core.objs.live d
    rw [hi.users_eq d]
    simpa [Heap.shapeOf, Heap.count] using hlive
  linked := fun p hp => by
    obtain ⟨b, hb⟩ := hi.core.links.mem_linkedPages.mp hp
    have hlive := (hi.core.links.live p).mpr (.inr (.inl ⟨b, hb⟩))
    obtain ⟨d, hd⟩ := Option.isSome_iff_exists.mp
      (hi.core.views.data hlive (hi.core.links.page hb))
    obtain ⟨sh, hsh⟩ := hi.core.data_live hd
    obtain ⟨D, hD⟩ := Heap.exists_data (h := h) (d := d) (by rw [hsh]; rfl)
    exact ⟨d, hd, by rw [hD]; rfl⟩
  count := fun {d D} hD => by
    have hcount := hi.core.objs.count hD
    have hle := hs d
    rw [hi.users_eq d]
    simp only [Heap.count, List.count_nil, Nat.add_zero] at hcount
    omega
  block := fun n hn => by
    obtain ⟨d, sh, hsh, -, hregion⟩ := hi.core.objs.owner hn
    obtain ⟨D, hD⟩ := Heap.exists_data (h := h) (d := d) (by rw [hsh]; rfl)
    rw [Heap.shapeOf_eq hD] at hsh
    cases hsh
    exact ⟨d, D, hD, hregion⟩

/-! ## What a call brings -/

/-- The buffer a call takes bytes from. -/
def Op.source : Op → Option Nat
  | .writeBuffer _ src _ | .insertBuffer _ _ _ src _ => some src
  | _ => none

/-- The calls that put bytes into a buffer, and from another one where they
come from a buffer. -/
def Op.Brings : Op → Prop
  | .writeData _ _ | .writeDataRef _ _ _ | .extend _ _ | .rewind _ _ | .insertData _ _ _ _
  | .insertDataRef _ _ _ _ _ | .overwriteData _ _ => True
  | .writeBuffer b src _ | .insertBuffer b _ _ src _ => src ≠ b
  | _ => False

/-- The content `s` is the one before the call with the first `k` bytes of the
request at their place. -/
def Op.Brought (h : Heap) (k : Nat) (s : List UInt8) : Op → Prop
  | .writeData b buf => k ≤ buf.length ∧ s = h.content b ++ buf.take k
  | .writeDataRef b buf len => k ≤ len ∧ s = h.content b ++ (h.bytes buf len).take k
  | .writeBuffer b src len =>
      k ≤ min len (h.content src).length ∧ s = h.content b ++ (h.content src).take k
  | .insertData b it offset buf =>
      k ≤ buf.length ∧ s = splice (h.content b) (h.positionOf b it offset) (buf.take k)
  | .insertDataRef b it offset buf len =>
      k ≤ len ∧ s = splice (h.content b) (h.positionOf b it offset) ((h.bytes buf len).take k)
  | .insertBuffer b it offset src len =>
      k ≤ min len (h.content src).length ∧
        s = splice (h.content b) (h.positionOf b it offset) ((h.content src).take k)
  | .extend b len => k ≤ len ∧ ∃ out : List UInt8, out.length = k ∧ s = h.content b ++ out
  | .rewind b len => k ≤ len ∧ ∃ out : List UInt8, out.length = k ∧ s = out ++ h.content b
  | .overwriteData b buf =>
      k ≤ min buf.length (h.content b).length ∧ s = overwrite (h.content b) 0 (buf.take k)
  | _ => False

/-- What a call that returned `k` has left: `k` bytes of its request, and of
what it took for the others nothing. -/
structure LeftPartial (op : Op) (b k : Nat) (h h' : Heap) : Prop where
  brought : op.Brought h k (h'.content b)
  others : ∀ c, c ≠ b → (h.buffers c).isSome → Unchanged c h h'
  accounted : Accounted h'
  full : h'.Full (h'.pagesOf b)

theorem Frame.unchanged (f : Frame b h h' R R') (hl : Links h R []) (hl' : Links h' R' [])
    (hne : c ≠ b) (hc : (h.buffers c).isSome) : Unchanged c h h' := by
  have hc' : (h'.buffers c).isSome := by rwa [Heap.buffers_isSome_congr f.kind]
  have hsame : ∀ p ∈ R c, Same h h' p := fun p hp => f.same hne hp
  refine ⟨f.buffer hne, ?_, ?_⟩
  · rw [hl'.pagesOf hc', hl.pagesOf hc, f.ring hne]
  · rw [hl'.content hc', hl.content hc, f.ring hne, flat_of_same hsame]

section Left

variable {pre out post : List UInt8} {Inside AtEnd : Prop}

theorem Grown.leftPartial (g : Grown b h h' R R' [] [] pre out post Inside AtEnd)
    (hl : Links h R []) (hb : (h.buffers b).isSome) (hs : h'.Small) (hin : Inside)
    (hfull : h.Full (R b)) (hbrought : op.Brought h k (pre ++ out ++ post)) :
    LeftPartial op b k h h' := by
  have hb' : (h'.buffers b).isSome := by rwa [Heap.buffers_isSome_congr g.frame.kind]
  have hl' := g.core.links
  refine ⟨?_, fun c hne hc => g.frame.unchanged hl hl' hne hc,
    Inv.accounted ⟨g.core, g.totals⟩ hs, ?_⟩
  · rw [hl'.content hb', g.content]
    exact hbrought
  · rw [hl'.pagesOf hb']
    exact g.full hfull hin

theorem Inserts.leftPartial {len : Nat} {Fails : Prop} {P : Nat → List UInt8 → Prop}
    (hk : Inserts b h R len Fails P pre post Inside AtEnd k h') (hl : Links h R [])
    (hb : (h.buffers b).isSome) (hin : Inside) (hfull : h.Full (R b))
    (hbrought : ∀ out, k ≤ len → P k out → op.Brought h k (pre ++ out ++ post))
    (hs : h'.Small) : LeftPartial op b k h h' := by
  obtain ⟨hle, -, R', out, hP, g⟩ := hk
  exact g.leftPartial hl hb hs hin hfull (hbrought out hle hP)

theorem Transfers.leftPartial {src len : Nat} {Fails : Prop}
    (hk : Transfers env b src h R len Fails pre post Inside AtEnd k h') (hl : Links h R [])
    (hb : (h.buffers b).isSome) (hsrc : (h.buffers src).isSome) (hne : src ≠ b) (hin : Inside)
    (hfull : h.Full (R b))
    (hbrought : k ≤ min len (h.content src).length →
      op.Brought h k (pre ++ (h.content src).take k ++ post))
    (hs : h'.Small) : LeftPartial op b k h h' := by
  obtain ⟨hle, hrest⟩ := hk
  obtain ⟨-, R', out, hlen, hout, g⟩ := hrest (.inl hs)
  have hsize : k ≤ (h.content src).length := by
    rw [hl.content hsrc, ← hlen, hout hne]
    exact List.length_take_le' _ _
  refine g.leftPartial hl hb hs hin hfull ?_
  rw [hout hne, ← hl.content hsrc]
  exact hbrought (by omega)

end Left

/-- Two buffers whose pages have at most two bytes. -/
def Heap.twoSmallPaged : Heap :=
  .twoBuffers { trivialBufferStrategy with pageSize := 2 } trivialBufferStrategy

example : Heap.twoSmallPaged.answer .frugal (.writeData 1 [1, 2, 3, 4]) = some (.count 2) := by
  decide

end Pb
