/-
Computations over a state that may fail. `Ends E x s Q`: from `s` the computation `x` either returns, with a value and a state
that satisfy `Q`, or fails with an error that `E` allows. It is about both outcomes: with an `E` that allows nothing it says
that `x` returns.

`Ends.bind` chains two computations, `Ends.mono` weakens what is said of either outcome.
-/
import Mathlib.Tactic

namespace YouPipe

variable {σ ε α β : Type} {E E' : ε → Prop} {x : StateT σ (Except ε) α} {s : σ} {Q Q' : α → σ → Prop}

def Ends (E : ε → Prop) (x : StateT σ (Except ε) α) (s : σ) (Q : α → σ → Prop) : Prop :=
  (∃ a s', x s = .ok (a, s') ∧ Q a s') ∨ ∃ e, x s = .error e ∧ E e

theorem Ends.pure {a : α} (h : Q a s) : Ends E (Pure.pure a) s Q := .inl ⟨a, s, rfl, h⟩

theorem Ends.throw {e : ε} (h : E e) : Ends E (MonadExcept.throw e : StateT σ (Except ε) α) s Q := .inr ⟨e, rfl, h⟩

theorem Ends.modify {f : σ → σ} {Q : PUnit → σ → Prop} (h : Q ⟨⟩ (f s)) :
    Ends E (modify f : StateT σ (Except ε) PUnit) s Q := .inl ⟨⟨⟩, f s, rfl, h⟩

theorem Ends.modifyGet {f : σ → α × σ} (h : Q (f s).1 (f s).2) : Ends E (modifyGet f : StateT σ (Except ε) α) s Q :=
  .inl ⟨(f s).1, (f s).2, rfl, h⟩

/-- one computation after another: a failure of either is a failure of the whole -/
theorem Ends.bind {f : α → StateT σ (Except ε) β} {R : β → σ → Prop} (hx : Ends E x s Q)
    (hf : ∀ a s', Q a s' → Ends E (f a) s' R) : Ends E (x >>= f) s R := by
  have hbind : (x >>= f) s = x s >>= fun r => f r.1 r.2 := rfl
  unfold Ends
  rw [hbind]
  obtain ⟨a, s', hok, hQ⟩ | ⟨e, herr, hE⟩ := hx
  · rw [hok]
    exact hf a s' hQ
  · rw [herr]
    exact .inr ⟨e, rfl, hE⟩

theorem Ends.mono (hx : Ends E x s Q) (hE : ∀ e, E e → E' e) (hQ : ∀ a s', Q a s' → Q' a s') : Ends E' x s Q' := by
  obtain ⟨a, s', hok, h⟩ | ⟨e, herr, h⟩ := hx
  · exact .inl ⟨a, s', hok, hQ a s' h⟩
  · exact .inr ⟨e, herr, hE e h⟩

end YouPipe
