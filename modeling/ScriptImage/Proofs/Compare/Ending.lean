import ScriptImage.Proofs.Compare.Parts
import ScriptImage.Proofs.Sections

/-!
Comparisons that end. A comparison looks up names in the second table of variables and, below strict
mode, texts in both data sections, so it ends when these are consistent. Strict mode looks nothing
up and always ends.
-/

namespace ScriptImage

/-- In a consistent section a search for a text ends, whether there is one or not. -/
theorem DataSection.Consistent.exists_textAt? {d : DataSection} (h : d.Consistent)
    (offset : UInt32) : ∃ text, d.textAt? offset = .ok text := by
  unfold textAt?
  split
  · exact ⟨_, rfl⟩
  · rename_i e he
    obtain ⟨bs, hbs⟩ := h.exists_bytesOf (h.entryAt?_eq_some_iff.mp he).1
    refine ⟨some (Utf8.decodeLossy bs), ?_⟩
    rw [textOf, hbs]
    rfl

/-- In a consistent table each name is found. -/
theorem GlobalTable.Consistent.exists_of_mem_names {t : GlobalTable} (h : t.Consistent)
    {name : String} (hname : name ∈ t.names) : ∃ found, t.find? name = .ok (some found) := by
  rw [names_eq h] at hname
  obtain ⟨v, hv, rfl⟩ := List.mem_map.mp hname
  obtain ⟨id, hid⟩ := exists_find? h hv
  exact ⟨_, hid⟩

/-- In a consistent table a search for a name ends, whether it is declared or not. -/
theorem GlobalTable.Consistent.exists_search {t : GlobalTable} (h : t.Consistent) (name : String) :
    ∃ found, t.find? name = .ok found := by
  by_cases hname : name ∈ t.names
  · obtain ⟨found, hfound⟩ := h.exists_of_mem_names hname
    exact ⟨_, hfound⟩
  · have hnone : t.entries.findIdx? (fun e => e.1 == name) = none := by
      rw [List.findIdx?_eq_none_iff]
      intro e he
      apply beq_eq_false_iff_ne.mpr
      rintro rfl
      exact hname (List.mem_map.mpr ⟨e, he, rfl⟩)
    refine ⟨none, ?_⟩
    rw [find?, hnone]

theorem exists_filterAuxM {α : Type} {f : α → Except Fault Bool} {xs acc : List α}
    (h : ∀ x ∈ xs, ∃ kept, f x = .ok kept) : ∃ ys, List.filterAuxM f xs acc = .ok ys := by
  induction xs generalizing acc with
  | nil => exact ⟨acc, rfl⟩
  | cons x xs ih =>
      rw [List.forall_mem_cons] at h
      rw [List.filterAuxM]
      exact exists_bind_eq_ok h.1 fun kept => ih h.2

theorem exists_filterM {α : Type} {f : α → Except Fault Bool} {xs : List α}
    (h : ∀ x ∈ xs, ∃ kept, f x = .ok kept) : ∃ ys, xs.filterM f = .ok ys := by
  rw [List.filterM]
  exact exists_bind_eq_ok (exists_filterAuxM h) fun ys => ⟨_, rfl⟩

namespace ScriptPair

variable {p : ScriptPair} {mode : CompareMode} {ta tb : List Instruction} {ia ib : Instruction}

/-! ### Two scripts -/

/-- Any two instructions can be compared. -/
def Ends (p : ScriptPair) (mode : CompareMode) : Prop :=
  ∀ ta tb ia ib, ∃ s, p.step mode ta tb ia ib = .ok s

theorem ends_strict : p.Ends .strict := by
  intro ta tb ia ib
  unfold step
  simp only [reduceCtorEq, if_false, if_true]
  split <;> exact ⟨_, rfl⟩

theorem exists_sameText (ha : p.imageA.data.Consistent) (hb : p.imageB.data.Consistent)
    (x y : Int32) : ∃ same, p.sameText x y = .ok same := by
  unfold sameText
  split
  · refine exists_bind_eq_ok (ha.exists_textAt? _) fun s =>
      exists_bind_eq_ok (hb.exists_textAt? _) fun t => ?_
    cases s <;> cases t <;> exact ⟨_, rfl⟩
  · exact ⟨_, rfl⟩

/-- Only numbers are looked up, as offsets of texts. -/
theorem exists_matchOperands (ha : p.imageA.data.Consistent) (hb : p.imageB.data.Consistent) :
    ∃ m, p.matchOperands ta tb ia ib = .ok m := by
  unfold matchOperands
  split
  · exact ⟨_, rfl⟩
  · exact ⟨_, rfl⟩
  · exact ⟨_, rfl⟩
  · rename_i x y _ _
    split
    · exact ⟨_, rfl⟩
    · obtain ⟨same, hsame⟩ := exists_sameText ha hb x y
      exact ⟨.ofBool same, map_eq_ok.mpr ⟨same, hsame, rfl⟩⟩
  · split
    · split <;> exact ⟨_, rfl⟩
    · exact ⟨_, rfl⟩
  · exact ⟨_, rfl⟩

theorem ends_of_consistent (ha : p.imageA.data.Consistent) (hb : p.imageB.data.Consistent) :
    p.Ends mode := by
  intro ta tb ia ib
  unfold step
  simp only
  split
  · exact ⟨_, rfl⟩
  · split
    · exact ⟨_, rfl⟩
    · split
      · exact ⟨_, rfl⟩
      · refine exists_bind_eq_ok (exists_matchOperands ha hb) fun m => ?_
        cases m <;> exact ⟨_, rfl⟩

theorem Ends.exists_compareTails (h : p.Ends mode) {pa pb : Nat} :
    ∃ es, p.compareTails mode pa pb ta tb = .ok es := by
  fun_induction compareTails p mode pa pb ta tb with
  | case1 | case2 | case4 => exact ⟨_, rfl⟩
  | case3 pa pb ia ra ib rb visited hboth hone ih =>
      -- two instructions, neither of which is END
      simp only [dite_eq_ite] at ih
      refine exists_bind_eq_ok (h _ _ _ _) fun s => ?_
      split
      · exact ⟨_, rfl⟩
      · exact exists_bind_eq_ok (ih s) fun rest => ⟨_, rfl⟩

theorem Ends.exists_compare (h : p.Ends mode) : ∃ es, p.compare mode = .ok es := by
  unfold compare
  split
  · exact h.exists_compareTails
  · exact ⟨_, rfl⟩

end ScriptPair

namespace CompareOptions

variable {o : CompareOptions} {a b : Image}

/-! ### Two images -/

theorem exists_scriptEntries (h : ∀ s t, ScriptPair.Ends ⟨a, b, s, t⟩ o.mode) (s : Script) :
    ∃ es, o.scriptEntries a b s = .ok es := by
  unfold scriptEntries
  split
  · exact ⟨_, rfl⟩
  · exact (h s _).exists_compare

theorem exists_scriptsEntries (h : ∀ s t, ScriptPair.Ends ⟨a, b, s, t⟩ o.mode) (found : Nat)
    (ss : List Script) : ∃ es, o.scriptsEntries a b found ss = .ok es := by
  induction ss generalizing found with
  | nil => exact ⟨[], rfl⟩
  | cons s rest ih =>
      unfold scriptsEntries
      split
      · exact ih found
      · split
        · exact ⟨_, rfl⟩
        · exact exists_bind_eq_ok (exists_scriptEntries h s) fun es =>
            exists_bind_eq_ok (ih _) fun more => ⟨_, rfl⟩

theorem exists_globalFindings_strict (hmode : o.mode = .strict) :
    ∃ ks, o.globalFindings a b = .ok ks := by
  rw [globalFindings, if_pos hmode]
  simp only
  split
  · exact ⟨_, rfl⟩
  · split <;> exact ⟨_, rfl⟩

theorem exists_globalFindings (hb : b.globals.Consistent) :
    ∃ ks, o.globalFindings a b = .ok ks := by
  by_cases hmode : o.mode = .strict
  · exact exists_globalFindings_strict hmode
  · rw [globalFindings, if_neg hmode]
    refine exists_bind_eq_ok (exists_filterM fun name _ => ?_) fun missing => ⟨_, rfl⟩
    exact exists_bind_eq_ok (hb.exists_search name) fun found => ⟨_, rfl⟩

/-- A comparison ends when the globals and each pair of instructions can be compared. -/
theorem exists_compareImages_of_ends (hglobals : ∃ ks, o.globalFindings a b = .ok ks)
    (h : ∀ s t, ScriptPair.Ends ⟨a, b, s, t⟩ o.mode) : ∃ c, compareImages o a b = .ok c := by
  refine exists_bind_eq_ok ?_ fun es => ⟨_, rfl⟩
  unfold entries
  split
  · exact ⟨_, rfl⟩
  · exact exists_bind_eq_ok hglobals fun globals =>
      exists_bind_eq_ok (exists_scriptsEntries h _ _) fun scripts => ⟨_, rfl⟩

/-- Strict mode looks nothing up in a table that might contradict itself, so it always ends. -/
theorem exists_compareImages_strict (hmode : o.mode = .strict) :
    ∃ c, compareImages o a b = .ok c :=
  exists_compareImages_of_ends (exists_globalFindings_strict hmode) fun _ _ =>
    hmode ▸ ScriptPair.ends_strict

theorem exists_compareImages (ha : a.data.Consistent) (hb : b.data.Consistent)
    (hglobals : b.globals.Consistent) : ∃ c, compareImages o a b = .ok c :=
  exists_compareImages_of_ends (exists_globalFindings hglobals) fun _ _ =>
    ScriptPair.ends_of_consistent ha hb

end CompareOptions

end ScriptImage
