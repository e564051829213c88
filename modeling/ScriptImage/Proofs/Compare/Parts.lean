import ScriptImage.Proofs.Compare.Verdict
import ScriptImage.Proofs.Link.Resolution

/-!
The parts of a comparison beside the scripts. Each of them finds nothing exactly when the images
agree on what it looks at: in strict mode on the stored lists, position by position, and otherwise
on what can be found under a name.
-/

namespace ScriptImage

/-! ### Lists -/

/-- Lists that are related have related elements at equal positions. -/
theorem forall₂_iff_getElem? {α β : Type} {R : α → β → Prop} {xs : List α} {ys : List β} :
    List.Forall₂ R xs ys ↔ xs.length = ys.length ∧
      ∀ (n : Nat) (x : α), xs[n]? = some x → ∃ y, ys[n]? = some y ∧ R x y := by
  rw [List.forall₂_iff_get]
  refine and_congr_right fun hlength => ⟨?_, ?_⟩
  · intro h n x hx
    obtain ⟨hlt, rfl⟩ := List.getElem?_eq_some_iff.mp hx
    exact ⟨_, List.getElem?_eq_getElem (hlength ▸ hlt), h n hlt (hlength ▸ hlt)⟩
  · intro h n hx hy
    obtain ⟨y, hget, hR⟩ := h n _ (List.getElem?_eq_getElem hx)
    cases (List.getElem?_eq_getElem hy).symm.trans hget
    exact hR

/-- What is found under a key has it. -/
theorem of_find?_key {α : Type} {f : α → String} {xs : List α} {key : String} {x : α}
    (h : xs.find? (fun y => f y == key) = some x) : x ∈ xs ∧ f x = key :=
  ⟨List.mem_of_find?_eq_some h, beq_iff_eq.mp (List.find?_some (p := fun y => f y == key) h)⟩

/-- The element itself is the first one that has its key. -/
theorem find?_of_nodup {α : Type} {f : α → String} {xs : List α} (h : (xs.map f).Nodup) {x : α}
    (hx : x ∈ xs) : xs.find? (fun y => f y == f x) = some x := by
  obtain ⟨y, hy⟩ : ∃ y, xs.find? (fun y => f y == f x) = some y :=
    Option.isSome_iff_exists.mp (List.find?_isSome.mpr ⟨x, hx, beq_self_eq_true _⟩)
  obtain ⟨hmem, hkey⟩ := of_find?_key hy
  rw [hy, List.inj_on_of_nodup_map h hmem hx hkey]

/-! ### Walks that find something for each element -/

theorem exists_mapM_some_iff {α β : Type} {f : α → Option β} {xs : List α} :
    (∃ ys, xs.mapM f = some ys) ↔ ∀ x ∈ xs, ∃ y, f x = some y := by
  induction xs with
  | nil => simp
  | cons x xs ih =>
      rw [List.forall_mem_cons, ← ih, List.mapM_cons]
      cases f x <;> cases xs.mapM f <;> simp

theorem mem_of_mapM_some {α β : Type} {f : α → Option β} {xs : List α} {ys : List β}
    (h : xs.mapM f = some ys) {y : β} : y ∈ ys ↔ ∃ x ∈ xs, f x = some y := by
  induction xs generalizing ys with
  | nil =>
      cases h
      simp
  | cons x xs ih =>
      simp only [List.mapM_cons, Option.bind_eq_bind, Option.bind_eq_some_iff, Option.pure_def,
        Option.some.injEq] at h
      obtain ⟨z, hz, zs, hzs, rfl⟩ := h
      rw [List.mem_cons, ih hzs, List.exists_mem_cons_iff, hz, Option.some.injEq, eq_comm]

/-- What a filter has kept stays at the end of its result. -/
theorem suffix_of_filterAuxM {α : Type} {f : α → Except Fault Bool} {xs acc ys : List α}
    (h : List.filterAuxM f xs acc = .ok ys) : acc <:+ ys := by
  induction xs generalizing acc with
  | nil =>
      cases h
      exact List.suffix_refl _
  | cons x xs ih =>
      rw [List.filterAuxM] at h
      obtain ⟨kept, -, h⟩ := bind_eq_ok.mp h
      cases kept with
      | false => exact ih h
      | true => exact (List.suffix_cons x acc).trans (ih h)

theorem filterAuxM_eq_nil_iff {α : Type} {f : α → Except Fault Bool} {xs : List α} :
    List.filterAuxM f xs [] = .ok [] ↔ ∀ x ∈ xs, f x = .ok false := by
  induction xs with
  | nil => exact iff_of_true rfl (by simp)
  | cons x xs ih =>
      rw [List.filterAuxM, bind_eq_ok, List.forall_mem_cons]
      constructor
      · rintro ⟨kept, hx, h⟩
        cases kept with
        | false => exact ⟨hx, ih.mp h⟩
        | true => simpa using suffix_of_filterAuxM h
      · rintro ⟨hx, hrest⟩
        exact ⟨false, hx, ih.mpr hrest⟩

theorem filterM_eq_nil_iff {α : Type} {f : α → Except Fault Bool} {xs : List α} :
    xs.filterM f = .ok [] ↔ ∀ x ∈ xs, f x = .ok false := by
  rw [← filterAuxM_eq_nil_iff, List.filterM, bind_eq_ok]
  simp

/-! ### Names of scripts started at load time -/

/-- A script of this name is started at load time. -/
def Image.Starts (m : Image) (name : String) : Prop :=
  ∃ r ∈ m.autostart, m.scriptName? r = some name

namespace CompareOptions

variable {o : CompareOptions} {a b : Image}

theorem exists_autostartNames?_iff {m : Image} :
    (∃ names, autostartNames? m = some names) ↔
      ∀ r ∈ m.autostart, ∃ name, m.scriptName? r = some name := by
  rw [← exists_mapM_some_iff, autostartNames?]
  cases m.autostart.mapM m.scriptName? <;> simp

theorem mem_autostartNames? {m : Image} {names : List String} (h : autostartNames? m = some names)
    {name : String} : name ∈ names ↔ m.Starts name := by
  obtain ⟨found, hfound, rfl⟩ := Option.map_eq_some_iff.mp h
  rw [mem_ascending, mem_of_mapM_some hfound, Image.Starts]

/-! ### The parts in strict mode -/

theorem globalFindings_strict_iff (hmode : o.mode = .strict) :
    o.globalFindings a b = .ok [] ↔ a.globals.vars = b.globals.vars := by
  rw [globalFindings, if_pos hmode]
  simp only
  split
  · rename_i hlength
    refine iff_of_false (by simp) fun h => hlength (by rw [h])
  · rename_i hlength
    rw [not_not] at hlength
    rw [← List.forall₂_eq_eq_eq, List.forall₂_iff_zip, and_iff_right hlength]
    split
    · rename_i x y i hfound
      have hdiffer : x ≠ y := by simpa using List.find?_some hfound
      have hmem := List.mem_of_find?_eq_some hfound
      exact iff_of_false (by simp) fun h => hdiffer (h (List.fst_mem_of_mem_zipIdx hmem))
    · rename_i hnone
      refine iff_of_true rfl fun {x y} hxy => ?_
      obtain ⟨i, hi⟩ := List.mem_iff_getElem?.mp hxy
      simpa using List.find?_eq_none.mp hnone ((x, y), i) (List.mem_zipIdx_iff_getElem?.mpr hi)

theorem autostartFindings_strict_iff (hmode : o.mode = .strict) :
    o.autostartFindings a b = [] ↔ a.autostart = b.autostart := by
  simp [autostartFindings, hmode]

theorem dataFindings_strict_iff (hmode : o.mode = .strict) :
    o.dataFindings a b = [] ↔ a.data.bytes = b.data.bytes := by
  simp [dataFindings, hmode]

theorem initFindings_strict_iff (hmode : o.mode = .strict) :
    (∀ k ∈ o.initFindings a b, k.refutes = false) ↔
      List.Forall₂ (fun x y => x.valueEq y = true) a.inits b.inits := by
  rw [List.forall₂_iff_zip, initFindings, if_pos hmode]
  split
  · rename_i hlength
    exact iff_of_false (by simp [FindingKind.refutes, FindingKind.counts, FindingKind.severity])
      fun h => hlength h.1
  · rename_i hlength
    rw [not_not] at hlength
    split
    · rename_i x y hfound
      have hdiffer : x.valueEq y ≠ true := by simpa using List.find?_some hfound
      refine iff_of_false (by simp [FindingKind.refutes, FindingKind.counts,
        FindingKind.severity]) fun h => hdiffer (h.2 (List.mem_of_find?_eq_some hfound))
    · rename_i hnone
      refine iff_of_true (by simp) ⟨hlength, fun {x y} hxy => ?_⟩
      simpa using List.find?_eq_none.mp hnone (x, y) hxy

/-! ### The parts by name -/

theorem globalFindings_iff (hmode : o.mode ≠ .strict) : o.globalFindings a b = .ok [] ↔
    ∀ name ∈ a.globals.names, ∃ found, b.globals.find? name = .ok (some found) := by
  rw [globalFindings, if_neg hmode]
  simp only [bind_eq_ok, pure_eq_ok, List.map_eq_nil_iff, exists_eq_right, filterM_eq_nil_iff,
    Option.isNone_eq_false_iff, Option.isSome_iff_exists]
  refine forall₂_congr fun name _ => ⟨?_, ?_⟩
  · rintro ⟨_, hfound, found, rfl⟩
    exact ⟨found, hfound⟩
  · rintro ⟨found, hfound⟩
    exact ⟨_, hfound, found, rfl⟩

/-- By name no global is missing when the second image has all variables of the first. -/
theorem globalFindings_eq_nil (hmode : o.mode ≠ .strict) (ha : a.globals.Consistent)
    (hb : b.globals.Consistent) (hvars : a.globals.vars ⊆ b.globals.vars) :
    o.globalFindings a b = .ok [] := by
  refine (globalFindings_iff hmode).mpr fun n hn => ?_
  rw [GlobalTable.names_eq ha] at hn
  obtain ⟨v, hv, rfl⟩ := List.mem_map.mp hn
  obtain ⟨id, hid⟩ := GlobalTable.exists_find? hb (hvars hv)
  exact ⟨_, hid⟩

theorem autostartFindings_iff (hmode : o.mode ≠ .strict) : o.autostartFindings a b = [] ↔
    (∀ r ∈ a.autostart, ∃ name, a.scriptName? r = some name) ∧
      (∀ r ∈ b.autostart, ∃ name, b.scriptName? r = some name) ∧
        ∀ name, a.Starts name ↔ b.Starts name := by
  rw [← exists_autostartNames?_iff, ← exists_autostartNames?_iff, autostartFindings, if_neg hmode]
  split
  · rename_i na nb hna hnb
    simp only [List.append_eq_nil_iff, List.map_eq_nil_iff, List.filter_eq_nil_iff,
      Bool.not_eq_true', Bool.not_eq_false, List.contains_iff_mem, mem_autostartNames? hna,
      mem_autostartNames? hnb]
    constructor
    · rintro ⟨hab, hba⟩
      exact ⟨⟨na, hna⟩, ⟨nb, hnb⟩, fun name => ⟨hab name, hba name⟩⟩
    · rintro ⟨-, -, hsame⟩
      exact ⟨fun name => (hsame name).mp, fun name => (hsame name).mpr⟩
  · rename_i hnone
    refine iff_of_false (by simp) ?_
    rintro ⟨⟨na, hna⟩, ⟨nb, hnb⟩, -⟩
    exact hnone na nb hna hnb

theorem dataFindings_eq_nil (hmode : o.mode ≠ .strict) : o.dataFindings a b = [] :=
  if_pos (.inl hmode)

theorem initFindings_iff (hmode : o.mode ≠ .strict) :
    (∀ k ∈ o.initFindings a b, k.refutes = false) ↔ ∀ x ∈ a.inits, ∀ y,
      b.inits.find? (fun y => y.name == x.name) = some y → y.value.valueEq x.value = true := by
  simp only [initFindings, if_neg hmode, List.mem_filterMap]
  constructor
  · intro h x hx y hy
    by_contra hdiffer
    have hrefutes := h (.initValue x.name x.value y.value) ⟨x, hx, by simp [hy, hdiffer]⟩
    cases hrefutes
  · rintro h k ⟨x, hx, hk⟩
    split at hk
    · cases hk
      rfl
    · rename_i y hy
      rw [if_pos (h x hx y hy)] at hk
      cases hk

end CompareOptions

end ScriptImage
