import PageBuf.Lib.Returns

/-!
# Within — programs that stay within a relation

`Within rel m` says of every state the program may start from that, if it
returns, the state it leaves is related to the one it was given. Nothing is
asked of the states, so the proof for a program follows its text: one rule for
each way of putting programs together, and one lemma for each program that is
called. The relation is reflexive and transitive.
-/

namespace StateRun

variable {σ ε α β ρ : Type} {m : StateT σ (Except ε) α} {f : α → StateT σ (Except ε) β}
  {rel rel' : σ → σ → Prop}

/-- Wherever it starts, the program, if it returns, stays within `rel`. -/
def Within (rel : σ → σ → Prop) (m : StateT σ (Except ε) α) : Prop :=
  ∀ s, Returns m s (fun _ s' => rel s s')

theorem Within.returns (h : Within rel m) (s : σ) : Returns m s (fun _ s' => rel s s') := h s

theorem Within.mono (h : Within rel m) (hr : ∀ s s', rel s s' → rel' s s') : Within rel' m :=
  fun s => (h s).mono fun _ s' => hr s s'

/-- A program that runs as another one does. -/
theorem Within.of_eq {m' : StateT σ (Except ε) α} (he : ∀ s, m s = m' s) (h : Within rel m') :
    Within rel m :=
  fun s => (h s).of_eq (he s)

theorem Within.throw {e : ε} :
    Within rel (MonadExcept.throw e : StateT σ (Except ε) α) :=
  fun _ => Returns.throw

theorem Within.modify {g : σ → σ} (h : ∀ s, rel s (g s)) :
    Within rel (modify g : StateT σ (Except ε) PUnit) :=
  fun s => Returns.of_run rfl (h s)

/-- One of two programs. -/
theorem Within.ite {c : Prop} [Decidable c] {m' : StateT σ (Except ε) α} (h : Within rel m)
    (h' : Within rel m') : Within rel (if c then m else m') := by
  split
  · exact h
  · exact h'

section Refl

variable [Std.Refl rel]

theorem Within.pure {a : α} : Within rel (Pure.pure a : StateT σ (Except ε) α) :=
  fun s => Returns.pure (Std.Refl.refl s)

/-- A program that changes nothing, whether it faults or not. -/
theorem Within.of_same (h : ∀ s a s', m s = .ok (a, s') → s' = s) : Within rel m := by
  intro s a s' hrun
  rw [h s a s' hrun]
  exact Std.Refl.refl s

end Refl

section Trans

variable [IsTrans σ rel]

theorem Within.bind (hm : Within rel m) (hf : ∀ a, Within rel (f a)) : Within rel (m >>= f) :=
  fun s => (hm s).bind fun a s' h => (hf a s').mono fun _ s'' h' => IsTrans.trans s s' s'' h h'

/-- **The loop rule.** -/
theorem Within.loop [Std.Refl rel] {out : ε} {body : β → StateT σ (Except ε) (β ⊕ ρ)}
    (step : ∀ b, Within rel (body b)) (fuel : Nat) (b : β) :
    Within rel (loopM out body fuel b) := by
  induction fuel generalizing b with
  | zero => exact Within.throw
  | succ fuel ih =>
      refine (step b).bind fun r => ?_
      cases r with
      | inl b' => exact ih b'
      | inr r => exact Within.pure

end Trans

end StateRun
