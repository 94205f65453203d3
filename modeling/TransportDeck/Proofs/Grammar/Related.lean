import TransportDeck.Proofs.Grammar.Progress
import TransportDeck.Proofs.Node.LetterCase

/-!
# Productions side by side

Two productions are followed step by step, from places that correspond.  Which places and which
errors correspond is up to the comparison: the rules for putting productions together are the same
for all of them.
-/

namespace TransportDeck.Production

variable {α β γ δ σ τ : Type}

/-- From places that correspond, both fail with errors that correspond or give related results, and
they leave off in places that correspond. -/
def Related (C : Cursor → Cursor → Prop) (E : SyntaxError → SyntaxError → Prop) (V : α → β → Prop)
    (p : Production α) (q : Production β) : Prop :=
  ∀ ⦃c d : Cursor⦄, C c d → Except.Agree E V (p.run c).1 (q.run d).1 ∧ C (p.run c).2 (q.run d).2

namespace Related

variable {C : Cursor → Cursor → Prop} {E : SyntaxError → SyntaxError → Prop} {V V' : α → β → Prop}
  {W : γ → δ → Prop} {p : Production α} {q : Production β}

theorem mono (h : Related C E V p q) (hV : ∀ a b, V a b → V' a b) : Related C E V' p q :=
  fun c d hcd ↦ by
  obtain ⟨hresult, hplaces⟩ := h hcd
  exact ⟨hresult.mono hV, hplaces⟩

theorem pure {a : α} {b : β} (h : V a b) : Related C E V (pure a) (pure b) :=
  fun _ _ hcd ↦ ⟨.ok h, hcd⟩

theorem throw {e e' : SyntaxError} (h : E e e') : Related C E V (throw e) (throw e') :=
  fun _ _ hcd ↦ ⟨.error h, hcd⟩

theorem bind {f : α → Production γ} {g : β → Production δ} (hp : Related C E V p q)
    (hf : ∀ a b, V a b → Related C E W (f a) (g b)) : Related C E W (p >>= f) (q >>= g) := by
  intro c d hcd
  obtain ⟨hresult, hplaces⟩ := hp hcd
  rcases hc : p.run c with ⟨r, c'⟩
  rcases hd : q.run d with ⟨r', d'⟩
  rw [hc, hd] at hresult hplaces
  cases hresult with
  | ok h =>
    rw [run_bind_of_ok hc, run_bind_of_ok hd]
    exact hf _ _ h hplaces
  | error h =>
    rw [run_bind_of_error hc, run_bind_of_error hd]
    exact ⟨.error h, hplaces⟩

/-- The first parts give the same result. -/
theorem bind_eq {p q : Production α} {f : α → Production γ} {g : α → Production δ}
    (hp : Related C E Eq p q) (hf : ∀ a, Related C E W (f a) (g a)) :
    Related C E W (p >>= f) (q >>= g) :=
  hp.bind fun a _ h ↦ h ▸ hf a

theorem map {f : α → γ} {g : β → δ} (hp : Related C E (fun a b ↦ W (f a) (g b)) p q) :
    Related C E W (do return f (← p)) (do return g (← q)) := hp.bind fun _ _ h ↦ .pure h

theorem get : Related C E C get get := fun _ _ hcd ↦ ⟨.ok hcd, hcd⟩

theorem modify {k k' : Cursor → Cursor} (h : ∀ c d, C c d → C (k c) (k' d)) :
    Related C E (fun _ _ ↦ True) (modify k) (modify k') := fun c d hcd ↦ ⟨.ok trivial, h c d hcd⟩

section

variable {R : σ → τ → Prop} {round : σ → Production (Option σ)} {round' : τ → Production (Option τ)}
  (hround : ∀ x y, R x y → Related C E (Option.Rel R) (round x) (round' y))
include hround

/-- Both rounds give nothing, or they give related results. -/
theorem rounds (n : Nat) {x : σ} {y : τ} (hxy : R x y) :
    Related C E R (rounds round n x) (rounds round' n y) := by
  induction n generalizing x y with
  | zero => exact .pure hxy
  | succ n ih =>
    refine (hround x y hxy).bind fun o o' h ↦ ?_
    cases h with
    | some h => exact ih h
    | none => exact .pure hxy

/-- A loop does as many rounds as there are tokens left. -/
theorem loop (hlength : ∀ c d, C c d → c.rest.length = d.rest.length) {x : σ} {y : τ}
    (hxy : R x y) : Related C E R (loop round x) (loop round' y) := by
  refine get.bind fun c d hcd ↦ ?_
  have hleft : c.rest.length = c.stream.size - c.stream.position := c.stream.rest_length
  have hright : d.rest.length = d.stream.size - d.stream.position := d.stream.rest_length
  dsimp only
  rw [← hleft, ← hright, hlength c d hcd]
  exact rounds hround _ hxy

end

end Related

end TransportDeck.Production
