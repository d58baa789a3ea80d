import Mathlib.Logic.Function.Basic
import Mathlib.Logic.Relation
import Mathlib.Tactic.Common

/-!
# Yields — total correctness for stateful programs that may fault

A program is a `StateT σ (Except ε)` computation. `Yields m s Q` says that
from state `s` the program returns (no fault) and that the value and the
state it returns satisfy `Q`. The rules follow the program text: one for
each way of putting programs together, and one for loops.

Loops are `loopM`: the body answers either the next loop state or the
result, and the fuel bounds the rounds. The loop rule asks for a family of
invariants indexed by the rounds that may still come, so no measure on the
state has to be named.
-/

namespace StateRun

universe u

variable {σ ε α β ρ : Type}

/-- From `s` the program returns, and what it returns satisfies `Q`. -/
def Yields (m : StateT σ (Except ε) α) (s : σ) (Q : α → σ → Prop) : Prop :=
  ∃ a s', m s = .ok (a, s') ∧ Q a s'

theorem Yields.intro {m : StateT σ (Except ε) α} {s s' : σ} {a : α}
    {Q : α → σ → Prop} (h : m s = .ok (a, s')) (hq : Q a s') : Yields m s Q :=
  ⟨a, s', h, hq⟩

theorem Yields.mono {m : StateT σ (Except ε) α} {s : σ} {P Q : α → σ → Prop}
    (h : Yields m s P) (hpq : ∀ a s', P a s' → Q a s') : Yields m s Q := by
  obtain ⟨a, s', hr, hp⟩ := h
  exact ⟨a, s', hr, hpq a s' hp⟩

/-- A program that runs as another one does, perhaps from another state. -/
theorem Yields.of_eq {m m' : StateT σ (Except ε) α} {s t : σ} {Q : α → σ → Prop}
    (he : m s = m' t) (h : Yields m' t Q) : Yields m s Q := by
  obtain ⟨a, s', hr, hq⟩ := h
  exact ⟨a, s', he.trans hr, hq⟩

/-- Two facts about one run are facts about the same result. -/
theorem Yields.and {m : StateT σ (Except ε) α} {s : σ} {P Q : α → σ → Prop}
    (hp : Yields m s P) (hq : Yields m s Q) :
    Yields m s (fun a s' => P a s' ∧ Q a s') := by
  obtain ⟨a, s', hr, ha⟩ := hp
  obtain ⟨b, t', hr', hb⟩ := hq
  rw [hr] at hr'
  cases hr'
  exact ⟨a, s', hr, ha, hb⟩

theorem Yields.of_run {m : StateT σ (Except ε) α} {s s' : σ} {a : α}
    {Q : α → σ → Prop} (h : Yields m s Q) (hr : m s = .ok (a, s')) : Q a s' := by
  obtain ⟨b, t, hb, hq⟩ := h
  rw [hr] at hb
  cases hb
  exact hq

/-! ## Straight-line programs -/

@[simp] theorem yields_pure {a : α} {s : σ} {Q : α → σ → Prop} :
    Yields (pure a : StateT σ (Except ε) α) s Q ↔ Q a s := by
  constructor
  · rintro ⟨b, t, h, hq⟩
    cases h
    exact hq
  · exact fun h => ⟨a, s, rfl, h⟩

theorem bind_run {m : StateT σ (Except ε) α} {f : α → StateT σ (Except ε) β}
    {s s' : σ} {a : α} (h : m s = .ok (a, s')) : (m >>= f) s = f a s' := by
  show (do let (a, s) ← m s; f a s) = f a s'
  rw [h]
  rfl

theorem bind_fails {m : StateT σ (Except ε) α} {f : α → StateT σ (Except ε) β} {s : σ} {e : ε}
    (h : m s = .error e) : (m >>= f) s = .error e := by
  show (do let (a, s) ← m s; f a s) = .error e
  rw [h]
  rfl

/-- A program that faults does not yield. -/
theorem not_yields_of_fails {m : StateT σ (Except ε) α} {s : σ} {e : ε} {Q : α → σ → Prop}
    (h : m s = .error e) : ¬Yields m s Q := by
  intro hy
  obtain ⟨a, s', hr, -⟩ := hy
  rw [h] at hr
  cases hr

theorem Yields.bind {m : StateT σ (Except ε) α} {f : α → StateT σ (Except ε) β}
    {s : σ} {P : α → σ → Prop} {Q : β → σ → Prop} (hm : Yields m s P)
    (hf : ∀ a s', P a s' → Yields (f a) s' Q) : Yields (m >>= f) s Q := by
  obtain ⟨a, s', hr, hp⟩ := hm
  obtain ⟨b, t, hb, hq⟩ := hf a s' hp
  exact ⟨b, t, (bind_run hr).trans hb, hq⟩

/-- The bind rule where the first program's run is known exactly. -/
theorem Yields.step {m : StateT σ (Except ε) α} {f : α → StateT σ (Except ε) β}
    {s s' : σ} {a : α} {Q : β → σ → Prop} (h : m s = .ok (a, s'))
    (hf : Yields (f a) s' Q) : Yields (m >>= f) s Q :=
  Yields.bind (P := fun b t => b = a ∧ t = s') ⟨a, s', h, rfl, rfl⟩
    (by rintro _ _ ⟨rfl, rfl⟩; exact hf)

theorem Yields.pure_bind {f : α → StateT σ (Except ε) β} {s : σ} {a : α} {Q : β → σ → Prop}
    (hf : Yields (f a) s Q) : Yields (pure a >>= f) s Q :=
  Yields.step rfl hf

/-! ## Loops -/

/-- `while`, one call of `body` a round: `inl` goes on with the next loop
state, `inr` leaves the loop. Running out of fuel is the fault `out`. -/
def loopM (out : ε) (body : β → StateT σ (Except ε) (β ⊕ ρ)) :
    Nat → β → StateT σ (Except ε) ρ
  | 0, _ => throw out
  | fuel + 1, b => do
      match ← body b with
      | .inl b' => loopM out body fuel b'
      | .inr r => pure r

/-- **The loop rule.** `I n` is the invariant while at most `n` more rounds
can follow; a round re-establishes it with a smaller bound or leaves. -/
theorem Yields.loop {out : ε} {body : β → StateT σ (Except ε) (β ⊕ ρ)}
    {I : Nat → β → σ → Prop} {Q : ρ → σ → Prop}
    (step : ∀ n b s, I n b s → Yields (body b) s (fun r s' =>
      match r with
      | .inl b' => ∃ m, m < n ∧ I m b' s'
      | .inr r => Q r s')) :
    ∀ (fuel n : Nat) (b : β) (s : σ), I n b s → n < fuel →
      Yields (loopM out body fuel b) s Q := by
  intro fuel
  induction fuel with
  | zero => intro n b s _ hn; omega
  | succ fuel ih =>
      intro n b s hI hn
      refine Yields.bind (step n b s hI) ?_
      intro r s' hr
      cases r with
      | inl b' =>
          obtain ⟨m, hm, hI'⟩ := hr
          exact ih m b' s' hI' (by omega)
      | inr r => exact yields_pure.mpr hr

/-! ## The states a loop comes to -/

section Reaches

variable {out : ε} {body : β → StateT σ (Except ε) (β ⊕ ρ)} {x y : β × σ}

/-- One round after which the loop goes on, on its variables and the state. -/
def LoopStep (body : β → StateT σ (Except ε) (β ⊕ ρ)) (x y : β × σ) : Prop :=
  body x.1 x.2 = .ok (.inl y.1, y.2)

/-- The loop comes from the one to the other. -/
def LoopReaches (body : β → StateT σ (Except ε) (β ⊕ ρ)) : β × σ → β × σ → Prop :=
  Relation.ReflTransGen (LoopStep body)

/-- What a round keeps holds wherever the loop comes. -/
theorem LoopReaches.invariant {I : β → σ → Prop} (hr : LoopReaches body x y) (hx : I x.1 x.2)
    (hstep : ∀ b s b' s', I b s → body b s = .ok (.inl b', s') → I b' s') : I y.1 y.2 := by
  induction hr with
  | refl => exact hx
  | tail _ hrun ih => exact hstep _ _ _ _ ih hrun

/-- The loop rule, where a round may use that the loop has come to it. -/
theorem Yields.loop_from {I : Nat → β → σ → Prop} {Q : ρ → σ → Prop} {n fuel : Nat} {b : β}
    {s : σ}
    (step : ∀ n b' s', LoopReaches body (b, s) (b', s') → I n b' s' →
      Yields (body b') s' (fun r s'' =>
        match r with
        | .inl b'' => ∃ m, m < n ∧ I m b'' s''
        | .inr r => Q r s'')) (hI : I n b s) (hn : n < fuel) :
    Yields (loopM out body fuel b) s Q := by
  refine Yields.loop (I := fun n b' s' => LoopReaches body (b, s) (b', s') ∧ I n b' s')
    ?_ fuel n b s ⟨.refl, hI⟩ hn
  intro n b' s' hI'
  obtain ⟨hreach, hI'⟩ := hI'
  obtain ⟨r, s'', hrun, hpost⟩ := step n b' s' hreach hI'
  refine Yields.intro hrun ?_
  cases r with
  | inl b'' =>
      obtain ⟨m, hm, hI''⟩ := hpost
      exact ⟨m, hm, hreach.tail hrun, hI''⟩
  | inr r => exact hpost

end Reaches

end StateRun
