import PageBuf.Lib.Ring

/-!
# Chain — doubly linked lists that end in null

The link fields of a heap of nodes are two partial functions `nx` and `pv`
again, but here a link may be null. A chain is a ring whose sentinel is null:
what null leads to is the head pointer in one direction and the tail pointer,
which need not exist, in the other. Insertion and removal are those of rings.
-/

namespace Chain

open Ring

variable {ν : Type} {nx pv nx' pv' : ν → Option (Option ν)} {a b : ν} {l l₁ l₂ : List ν}

/-- A link field of the nodes, and where null leads. -/
def links (f : ν → Option (Option ν)) (x : Option ν) : Option ν → Option (Option ν)
  | none => some x
  | some a => f a

/-- The links lead through exactly the nodes of `l`, in both directions. -/
def Linked (nx pv : ν → Option (Option ν)) (l : List ν) : Prop :=
  IsRing (links nx l.head?) (links pv l.getLast?) none (l.map some)

@[simp] theorem headD_map_some (l : List ν) : (l.map some).headD none = l.head? := by
  cases l <;> rfl

@[simp] theorem getLastD_map_some (l : List ν) : (l.map some).getLastD none = l.getLast? := by
  cases l using List.reverseRecOn <;> simp

theorem mem_none_cons_map {y : Option ν} :
    y ∈ none :: l.map some ↔ y = none ∨ ∃ a ∈ l, y = some a := by
  simp only [List.mem_cons, List.mem_map]
  exact or_congr_right ⟨fun ⟨a, ha, he⟩ => ⟨a, ha, he.symm⟩, fun ⟨a, ha, he⟩ => ⟨a, ha, he.symm⟩⟩

theorem Linked.nodup (h : Linked nx pv l) : l.Nodup :=
  List.Nodup.of_map some (List.nodup_cons.mp (IsRing.nodup h)).2

theorem Linked.next_mem (h : Linked nx pv (l₁ ++ a :: l₂)) : nx a = some l₂.head? := by
  have hring : IsRing (links nx (l₁ ++ a :: l₂).head?) (links pv (l₁ ++ a :: l₂).getLast?) none
      (l₁.map some ++ some a :: l₂.map some) := by
    simpa [Linked] using h
  have hnext := hring.next_mem
  rwa [headD_map_some] at hnext

theorem Linked.prev_mem (h : Linked nx pv (l₁ ++ a :: l₂)) : pv a = some l₁.getLast? := by
  have hring : IsRing (links nx (l₁ ++ a :: l₂).head?) (links pv (l₁ ++ a :: l₂).getLast?) none
      (l₁.map some ++ some a :: l₂.map some) := by
    simpa [Linked] using h
  have hprev := hring.prev_mem
  rwa [getLastD_map_some] at hprev

/-- A chain none of whose nodes is touched is still a chain. -/
theorem Linked.congr (h : Linked nx pv l) (hn : ∀ b ∈ l, nx' b = nx b)
    (hp : ∀ b ∈ l, pv' b = pv b) : Linked nx' pv' l := by
  refine IsRing.congr h ?_ ?_
  · intro y hy
    rcases mem_none_cons_map.mp hy with rfl | ⟨b, hb, rfl⟩
    · rfl
    · exact hn b hb
  · intro y hy
    rcases mem_none_cons_map.mp hy with rfl | ⟨b, hb, rfl⟩
    · rfl
    · exact hp b hb

theorem linked_nil : Linked nx pv [] := isRing_nil rfl rfl

/-! ## Surgery -/

theorem head?_append_of_getLast? (h : l₁.getLast? ≠ none) : (l₁ ++ l₂).head? = l₁.head? := by
  cases l₁ with
  | nil => exact absurd rfl h
  | cons c l₁ => rfl

theorem getLast?_append_of_head? (h : l₂.head? ≠ none) : (l₁ ++ l₂).getLast? = l₂.getLast? := by
  cases l₂ with
  | nil => exact absurd rfl h
  | cons c l₂ => simp [List.getLast?_append, List.getLast?_cons]

section Cut

variable (hn : ∀ b ∈ l₁ ++ l₂, l₁.getLast? ≠ some b → nx' b = nx b)
  (hp : ∀ b ∈ l₁ ++ l₂, l₂.head? ≠ some b → pv' b = pv b)

include hn in
/-- Away from a cut the links forward stay, also the head pointer. -/
theorem links_next_cut {x x' : Option ν} (hx : l₁.getLast? ≠ none → x' = x) :
    ∀ y ∈ none :: (l₁.map some ++ l₂.map some), y ≠ (l₁.map some).getLastD none →
      links nx' x' y = links nx x y := by
  intro y hy hne
  rw [← List.map_append] at hy
  rw [getLastD_map_some] at hne
  rcases mem_none_cons_map.mp hy with rfl | ⟨b, hb, rfl⟩
  · exact congrArg some (hx hne.symm)
  · exact hn b hb hne.symm

include hp in
/-- Away from a cut the links back stay, also the tail pointer. -/
theorem links_prev_cut {x x' : Option ν} (hx : l₂.head? ≠ none → x' = x) :
    ∀ y ∈ none :: (l₁.map some ++ l₂.map some), y ≠ (l₂.map some).headD none →
      links pv' x' y = links pv x y := by
  intro y hy hne
  rw [← List.map_append] at hy
  rw [headD_map_some] at hne
  rcases mem_none_cons_map.mp hy with rfl | ⟨b, hb, rfl⟩
  · exact congrArg some (hx hne.symm)
  · exact hp b hb hne.symm

include hn hp

/-- **Insertion** of a new node at a cut. -/
theorem Linked.insert (h : Linked nx pv (l₁ ++ l₂)) (ha : a ∉ l₁ ++ l₂)
    (hna : nx' a = some l₂.head?) (hpa : pv' a = some l₁.getLast?)
    (hbefore : ∀ b, l₁.getLast? = some b → nx' b = some (some a))
    (hafter : ∀ b, l₂.head? = some b → pv' b = some (some a)) :
    Linked nx' pv' (l₁ ++ a :: l₂) := by
  have hring : IsRing (links nx (l₁ ++ l₂).head?) (links pv (l₁ ++ l₂).getLast?) none
      (l₁.map some ++ l₂.map some) := by
    simpa [Linked] using h
  have hnew : Linked nx' pv' (l₁ ++ a :: l₂) ↔
      IsRing (links nx' (l₁ ++ a :: l₂).head?) (links pv' (l₁ ++ a :: l₂).getLast?) none
        (l₁.map some ++ some a :: l₂.map some) := by
    simp [Linked]
  rw [hnew]
  refine hring.insert (links_next_cut hn fun hne => ?_) (links_prev_cut hp fun hne => ?_) ?_
    ?_ ?_ ?_ ?_
  · rw [head?_append_of_getLast? hne, head?_append_of_getLast? hne]
  · rw [getLast?_append_of_head? hne, List.append_cons, getLast?_append_of_head? hne]
  · simpa using ha
  · rw [headD_map_some]
    exact hna
  · rw [getLastD_map_some]
    exact hpa
  · rw [getLastD_map_some]
    cases hlast : l₁.getLast? with
    | none => rw [List.getLast?_eq_none_iff.mp hlast]; rfl
    | some b => exact hbefore b hlast
  · rw [headD_map_some]
    cases hhead : l₂.head? with
    | none =>
        rw [List.head?_eq_none_iff.mp hhead, List.getLast?_concat]
        rfl
    | some b => exact hafter b hhead

/-- **Removal** of the node after a cut. -/
theorem Linked.remove (h : Linked nx pv (l₁ ++ a :: l₂))
    (hbefore : ∀ b, l₁.getLast? = some b → nx' b = some l₂.head?)
    (hafter : ∀ b, l₂.head? = some b → pv' b = some l₁.getLast?) :
    Linked nx' pv' (l₁ ++ l₂) := by
  have hring : IsRing (links nx (l₁ ++ a :: l₂).head?) (links pv (l₁ ++ a :: l₂).getLast?) none
      (l₁.map some ++ some a :: l₂.map some) := by
    simpa [Linked] using h
  have hnew : Linked nx' pv' (l₁ ++ l₂) ↔
      IsRing (links nx' (l₁ ++ l₂).head?) (links pv' (l₁ ++ l₂).getLast?) none
        (l₁.map some ++ l₂.map some) := by
    simp [Linked]
  rw [hnew]
  refine hring.remove (links_next_cut hn fun hne => ?_) (links_prev_cut hp fun hne => ?_) ?_ ?_
  · rw [head?_append_of_getLast? hne, head?_append_of_getLast? hne]
  · rw [getLast?_append_of_head? hne, List.append_cons, getLast?_append_of_head? hne]
  · rw [getLastD_map_some, headD_map_some]
    cases hlast : l₁.getLast? with
    | none => rw [List.getLast?_eq_none_iff.mp hlast]; rfl
    | some b => exact hbefore b hlast
  · rw [headD_map_some, getLastD_map_some]
    cases hhead : l₂.head? with
    | none => rw [List.head?_eq_none_iff.mp hhead, List.append_nil]; rfl
    | some b => exact hafter b hhead

end Cut

/-- A new node at the front. -/
theorem Linked.push (h : Linked nx pv l) (ha : a ∉ l) (hn : ∀ b ∈ l, nx' b = nx b)
    (hp : ∀ b ∈ l, l.head? ≠ some b → pv' b = pv b)
    (hna : nx' a = some l.head?) (hpa : pv' a = some none)
    (hafter : ∀ b, l.head? = some b → pv' b = some (some a)) : Linked nx' pv' (a :: l) := by
  have hcut : Linked nx pv ([] ++ l) := h
  refine hcut.insert (fun b hb _ => hn b hb) hp ha hna hpa ?_ hafter
  intro b hb
  cases hb

/-- A new node at the end. -/
theorem Linked.concat (h : Linked nx pv l) (ha : a ∉ l)
    (hn : ∀ b ∈ l, l.getLast? ≠ some b → nx' b = nx b) (hp : ∀ b ∈ l, pv' b = pv b)
    (hna : nx' a = some none) (hpa : pv' a = some l.getLast?)
    (hbefore : ∀ b, l.getLast? = some b → nx' b = some (some a)) :
    Linked nx' pv' (l ++ [a]) := by
  have hcut : Linked nx pv (l ++ []) := by rwa [List.append_nil]
  rw [← List.append_nil l] at ha
  refine hcut.insert ?_ ?_ ha hna hpa hbefore ?_
  · intro b hb
    rw [List.append_nil] at hb
    exact hn b hb
  · intro b hb _
    rw [List.append_nil] at hb
    exact hp b hb
  · intro b hb
    cases hb

/-! ## One direction only -/

/-- The links lead through the nodes of `l`, as far as they lead forward. -/
def Leads (nx : ν → Option (Option ν)) (l : List ν) : Prop :=
  ∀ l₁ a l₂, l = l₁ ++ a :: l₂ → nx a = some l₂.head?

theorem Linked.leads (h : Linked nx pv l) : Leads nx l := by
  intro l₁ a l₂ he
  rw [he] at h
  exact h.next_mem

theorem Leads.cons (h : Leads nx (a :: l)) : nx a = some l.head? := h [] a l rfl

theorem Leads.tail (h : Leads nx (a :: l)) : Leads nx l := by
  intro l₁ b l₂ he
  exact h (a :: l₁) b l₂ (by rw [he]; rfl)

theorem Leads.congr (h : Leads nx l) (hn : ∀ b ∈ l, nx' b = nx b) : Leads nx' l := by
  intro l₁ b l₂ he
  rw [hn b (by simp [he])]
  exact h l₁ b l₂ he

end Chain
