import ScriptImage.Proofs.Outcome

/-!
Two computations that go together. Both fail with the same error or both succeed with results that
are related, and when it is allowed the first may also fail on its own. The rules below walk two
computations of one shape side by side, so a relation between their parts carries over to the whole.
-/

namespace ScriptImage

/-- Two computations of which each does what the other does; if `lax` the first may fail alone. -/
inductive Alike {ε α β : Type} (lax : Prop) (R : α → β → Prop) :
    Except ε α → Except ε β → Prop
  | ok {a : α} {b : β} : R a b → Alike lax R (.ok a) (.ok b)
  | error (e : ε) : Alike lax R (.error e) (.error e)
  | alone {e : ε} {y : Except ε β} : lax → Alike lax R (.error e) y

namespace Alike

variable {ε ε' α β γ δ : Type} {lax : Prop} {R : α → β → Prop} {S : γ → δ → Prop}
  {x : Except ε α} {y : Except ε β}

theorem refl {R : α → α → Prop} (hR : ∀ a, R a a) (x : Except ε α) : Alike lax R x x := by
  cases x with
  | error e => exact .error e
  | ok a => exact .ok (hR a)

theorem mono (h : Alike lax R x y) {R' : α → β → Prop} (hR : ∀ a b, R a b → R' a b) :
    Alike lax R' x y := by
  cases h with
  | ok hab => exact .ok (hR _ _ hab)
  | error e => exact .error e
  | alone hlax => exact .alone hlax

theorem bind (h : Alike lax R x y) {f : α → Except ε γ} {g : β → Except ε δ}
    (hfg : ∀ a b, R a b → Alike lax S (f a) (g b)) : Alike lax S (x >>= f) (y >>= g) := by
  cases h with
  | ok hab => exact hfg _ _ hab
  | error e => exact .error e
  | alone hlax => exact .alone hlax

/-- A computation that both sides begin with. -/
theorem bind_same {x : Except ε α} {f : α → Except ε γ} {g : α → Except ε δ}
    (hfg : ∀ a, x = .ok a → Alike lax S (f a) (g a)) : Alike lax S (x >>= f) (x >>= g) := by
  cases x with
  | error e => exact .error e
  | ok a => exact hfg a rfl

theorem map (h : Alike lax R x y) {f : α → γ} {g : β → δ} (hfg : ∀ a b, R a b → S (f a) (g b)) :
    Alike lax S (f <$> x) (g <$> y) := by
  cases h with
  | ok hab => exact .ok (hfg _ _ hab)
  | error e => exact .error e
  | alone hlax => exact .alone hlax

theorem mapError (h : Alike lax R x y) (f : ε → ε') :
    Alike lax R (x.mapError f) (y.mapError f) := by
  cases h with
  | ok hab => exact .ok hab
  | error e => exact .error (f e)
  | alone hlax => exact .alone hlax

/-- Walks over one list, step by step. -/
theorem mapM {xs : List γ} {f : γ → Except ε α} {g : γ → Except ε β}
    (hfg : ∀ x ∈ xs, Alike lax R (f x) (g x)) :
    Alike lax (List.Forall₂ R) (xs.mapM f) (xs.mapM g) := by
  induction xs with
  | nil => exact .ok .nil
  | cons x xs ih =>
      rw [List.mapM_cons, List.mapM_cons]
      refine (hfg x List.mem_cons_self).bind fun a b hab => ?_
      refine (ih fun z hz => hfg z (List.mem_cons_of_mem _ hz)).bind fun as bs habs => ?_
      exact .ok (.cons hab habs)

theorem foldlM {xs : List γ} {f : α → γ → Except ε α} {g : β → γ → Except ε β} {a : α} {b : β}
    (hab : R a b) (hfg : ∀ x ∈ xs, ∀ a b, R a b → Alike lax R (f a x) (g b x)) :
    Alike lax R (xs.foldlM f a) (xs.foldlM g b) := by
  induction xs generalizing a b with
  | nil => exact .ok hab
  | cons x xs ih =>
      rw [List.foldlM_cons, List.foldlM_cons]
      refine (hfg x List.mem_cons_self a b hab).bind fun a b hab => ?_
      exact ih hab fun z hz => hfg z (List.mem_cons_of_mem _ hz)

/-- Computations with the same outcome up to a function. -/
theorem of_map_eq {p : α → γ} {x y : Except ε α} (h : p <$> x = p <$> y) :
    Alike lax (fun a b => p a = p b) x y := by
  cases x with
  | error e =>
      cases y with
      | error e' =>
          cases h
          exact .error e
      | ok b => cases h
  | ok a =>
      cases y with
      | error e => cases h
      | ok b => exact .ok (Except.ok.inj h)

theorem exists_ok (h : Alike lax R x y) {a : α} (hx : x = .ok a) : ∃ b, y = .ok b ∧ R a b := by
  cases h with
  | ok hab =>
      cases hx
      exact ⟨_, rfl, hab⟩
  | error e => cases hx
  | alone hlax => cases hx

theorem error_iff (h : Alike False R x y) {e : ε} : x = .error e ↔ y = .error e := by
  cases h with
  | ok hab => simp
  | error e => simp
  | alone hlax => exact hlax.elim

end Alike

end ScriptImage
