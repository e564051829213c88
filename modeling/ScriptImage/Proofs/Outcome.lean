import Mathlib

/-!
Computations that succeed. A computation in `Except` that ends well has passed each of its steps;
the lemmas below take a success apart, and a success of a walk over a list into the successes of
its steps. A lookup that succeeds has found a pair of its list.
-/

namespace ScriptImage

universe u v

section Except

variable {ε ε' : Type u} {α β : Type v}

@[simp] theorem bind_eq_ok {x : Except ε α} {f : α → Except ε β} {b : β} :
    (x >>= f) = .ok b ↔ ∃ a, x = .ok a ∧ f a = .ok b := by
  cases x with
  | error e => simp [bind, Except.bind]
  | ok a => simp [bind, Except.bind]

theorem ok_bind {a : α} {f : α → Except ε β} : ((.ok a : Except ε α) >>= f) = f a := rfl

/-- Computations that begin alike and go on alike from each result are the same. -/
theorem bind_congr_ok {x : Except ε α} {f g : α → Except ε β} (h : ∀ a, x = .ok a → f a = g a) :
    (x >>= f) = (x >>= g) := by
  cases x with
  | error e => rfl
  | ok a => exact h a rfl

/-- A computation fails in its first step, or after it. -/
theorem bind_eq_error {x : Except ε α} {f : α → Except ε β} {e : ε} :
    (x >>= f) = .error e ↔ x = .error e ∨ ∃ a, x = .ok a ∧ f a = .error e := by
  cases x with
  | error e' => simp [bind, Except.bind]
  | ok a => simp [bind, Except.bind]

/-- A computation ends well when its first step does and the rest does after any result of it. -/
theorem exists_bind_eq_ok {x : Except ε α} {f : α → Except ε β} (hx : ∃ a, x = .ok a)
    (hf : ∀ a, ∃ b, f a = .ok b) : ∃ b, (x >>= f) = .ok b := by
  obtain ⟨a, rfl⟩ := hx
  exact hf a

@[simp] theorem pure_eq_ok {a b : α} : (pure a : Except ε α) = .ok b ↔ a = b := by
  simp [pure, Except.pure]

@[simp] theorem map_eq_ok {x : Except ε α} {f : α → β} {b : β} :
    (f <$> x) = .ok b ↔ ∃ a, x = .ok a ∧ f a = b := by
  cases x with
  | error e => simp [Functor.map, Except.map]
  | ok a => simp [Functor.map, Except.map]

@[simp] theorem mapError_eq_ok {x : Except ε α} {f : ε → ε'} {a : α} :
    x.mapError f = .ok a ↔ x = .ok a := by
  cases x with
  | error e => simp [Except.mapError]
  | ok b => simp [Except.mapError]

theorem toOption_eq_some {x : Except ε α} {a : α} : x.toOption = some a ↔ x = .ok a := by
  cases x with
  | error e => simp [Except.toOption]
  | ok b => simp [Except.toOption]

/-- A success with a property that can be decided. -/
theorem exists_ok {x : Except ε α} {p : α → Prop} [DecidablePred p]
    (h : x.toOption.any (fun a => p a) = true) : ∃ a, x = .ok a ∧ p a := by
  cases x with
  | error e => cases h
  | ok a => exact ⟨a, rfl, of_decide_eq_true h⟩

end Except

/-- A walk over a list succeeds exactly when each of its steps does. -/
theorem mapM_eq_ok_iff {ε α β : Type} {f : α → Except ε β} {xs : List α} {ys : List β} :
    xs.mapM f = .ok ys ↔ List.Forall₂ (fun x y => f x = .ok y) xs ys := by
  induction xs generalizing ys with
  | nil => cases ys <;> simp
  | cons x xs ih =>
    rw [List.mapM_cons]
    simp only [bind_eq_ok, pure_eq_ok, ih]
    constructor
    · rintro ⟨y, hy, ys, hys, rfl⟩
      exact .cons hy hys
    · intro h
      cases h with
      | cons hy hys => exact ⟨_, hy, _, hys, rfl⟩

theorem mapM_length {ε α β : Type} {f : α → Except ε β} {xs : List α} {ys : List β}
    (h : xs.mapM f = .ok ys) : ys.length = xs.length :=
  (mapM_eq_ok_iff.mp h).length_eq.symm

/-- The result at a position comes from the element there. -/
theorem mapM_getElem? {ε α β : Type} {f : α → Except ε β} {xs : List α} {ys : List β}
    (h : xs.mapM f = .ok ys) {i : Nat} {x : α} (hx : xs[i]? = some x) :
    ∃ y, ys[i]? = some y ∧ f x = .ok y := by
  induction mapM_eq_ok_iff.mp h generalizing i with
  | nil => simp at hx
  | cons hy _ ih =>
    cases i with
    | zero =>
      simp only [List.getElem?_cons_zero, Option.some.injEq] at hx
      subst hx
      exact ⟨_, rfl, hy⟩
    | succ i =>
      exact ih (mapM_eq_ok_iff.mpr ‹_›) hx

/-- Every result comes from the element at its position. -/
theorem mapM_source {ε α β : Type} {f : α → Except ε β} {xs : List α} {ys : List β}
    (h : xs.mapM f = .ok ys) {i : Nat} {y : β} (hy : ys[i]? = some y) :
    ∃ x, xs[i]? = some x ∧ f x = .ok y := by
  have hlt := (List.getElem?_eq_some_iff.mp hy).1
  rw [mapM_length h] at hlt
  have hx := List.getElem?_eq_getElem hlt
  obtain ⟨z, hz, hstep⟩ := mapM_getElem? h hx
  rw [hy, Option.some.injEq] at hz
  exact ⟨_, hx, hz ▸ hstep⟩

theorem mapM_congr {ε α β : Type} {f g : α → Except ε β} {xs : List α}
    (h : ∀ x ∈ xs, f x = g x) : xs.mapM f = xs.mapM g := by
  induction xs with
  | nil => rfl
  | cons x xs ih =>
      rw [List.mapM_cons, List.mapM_cons, h x List.mem_cons_self,
        ih fun z hz => h z (List.mem_cons_of_mem _ hz)]

/-- Results that a function tells are those of a map. -/
theorem mapM_eq_map {ε α β : Type} {f : α → Except ε β} {g : α → β} {xs : List α} {ys : List β}
    (h : xs.mapM f = .ok ys) (hg : ∀ x ∈ xs, ∀ y, f x = .ok y → y = g x) : ys = xs.map g := by
  induction mapM_eq_ok_iff.mp h with
  | nil => rfl
  | cons hy hys ih =>
      rw [List.map_cons, hg _ List.mem_cons_self _ hy,
        ih (mapM_eq_ok_iff.mpr hys) fun x hx => hg x (List.mem_cons_of_mem _ hx)]

/-- What the results have in common with the elements they come from. -/
theorem map_eq_of_mapM {ε α β γ : Type} {f : α → Except ε β} {p : β → γ} {q : α → γ}
    {xs : List α} {ys : List β} (h : xs.mapM f = .ok ys)
    (hpq : ∀ x y, f x = .ok y → p y = q x) : ys.map p = xs.map q := by
  induction mapM_eq_ok_iff.mp h with
  | nil => rfl
  | cons hy hys ih => rw [List.map_cons, List.map_cons, hpq _ _ hy, ih (mapM_eq_ok_iff.mpr hys)]

/-- A walk whose steps succeed succeeds. -/
theorem exists_mapM {ε α β : Type} {f : α → Except ε β} {xs : List α}
    (h : ∀ x ∈ xs, ∃ y, f x = .ok y) : ∃ ys, xs.mapM f = .ok ys := by
  induction xs with
  | nil => exact ⟨[], rfl⟩
  | cons x xs ih =>
      obtain ⟨y, hy⟩ := h x List.mem_cons_self
      obtain ⟨ys, hys⟩ := ih fun z hz => h z (List.mem_cons_of_mem _ hz)
      exact ⟨y :: ys, mapM_eq_ok_iff.mpr (.cons hy (mapM_eq_ok_iff.mp hys))⟩

/-- A walk fails in one of its steps. -/
theorem mapM_eq_error {ε α β : Type} {f : α → Except ε β} {xs : List α} {e : ε}
    (h : xs.mapM f = .error e) : ∃ x ∈ xs, f x = .error e := by
  induction xs with
  | nil => cases h
  | cons x xs ih =>
      rw [List.mapM_cons] at h
      rcases bind_eq_error.mp h with hx | ⟨y, -, h⟩
      · exact ⟨x, List.mem_cons_self, hx⟩
      · rcases bind_eq_error.mp h with hxs | ⟨ys, -, h⟩
        · obtain ⟨z, hz, hfz⟩ := ih hxs
          exact ⟨z, List.mem_cons_of_mem _ hz, hfz⟩
        · cases h

/-- What one step of a fold preserves, a fold that succeeds preserves. -/
theorem foldlM_invariant {ε α β : Type} {f : β → α → Except ε β} (P : β → Prop) {xs : List α}
    {b c : β} (step : ∀ b x c, x ∈ xs → P b → f b x = .ok c → P c) (hb : P b)
    (h : xs.foldlM f b = .ok c) : P c := by
  induction xs generalizing b with
  | nil =>
    simp only [List.foldlM_nil, pure_eq_ok] at h
    exact h ▸ hb
  | cons x xs ih =>
    simp only [List.foldlM_cons, bind_eq_ok] at h
    obtain ⟨d, hd, h⟩ := h
    exact ih (fun b y c hy => step b y c (List.mem_cons_of_mem _ hy))
      (step b x d List.mem_cons_self hb hd) h

section Lookup

variable {α β : Type} [BEq α] [LawfulBEq α] {l : List (α × β)} {a : α} {b : β}

theorem mem_of_lookup (h : l.lookup a = some b) : (a, b) ∈ l := by
  obtain ⟨before, behind, rfl, -⟩ := List.lookup_eq_some_iff.mp h
  simp

theorem exists_lookup (h : (a, b) ∈ l) : ∃ c, l.lookup a = some c := by
  rw [← Option.isSome_iff_exists, List.lookup_isSome_iff]
  exact ⟨(a, b), h, beq_self_eq_true a⟩

/-- What can be looked up is decided by the keys. -/
theorem lookup_isSome_iff : (l.lookup a).isSome = true ↔ a ∈ l.map Prod.fst := by
  rw [List.lookup_isSome_iff, List.mem_map]
  refine exists_congr fun p => and_congr_right fun _ => ?_
  rw [beq_iff_eq, eq_comm]

end Lookup

end ScriptImage
