import ScriptImage.Proofs.Compare.Ending
import ScriptImage.Proofs.Compare.NormalVerdict

/-!
Comparisons of some scripts only. Whether a script is found equal depends on that script alone, not
on the scripts compared before it, and all that is compared besides the scripts is compared under
each filter. So a filter accepts two images when the empty filter does and each script that passes
it is found equal.
-/

namespace ScriptImage

namespace CompareOptions

variable {o : CompareOptions} {a b : Image}

/-- The limit lets a script be compared, and nothing is found in it. -/
def Clears (o : CompareOptions) (a b : Image) (s : Script) : Prop :=
  0 < o.maxMismatches ∧ FindsNothing (o.scriptEntries a b s)

theorem accepts_filter_iff (filter : Option (List String)) :
    ({ o with scripts := filter }).Accepts a b ↔ ({ o with scripts := some [] }).Accepts a b ∧
      ∀ s ∈ a.scripts, ({ o with scripts := filter }).includes s.name = true →
        o.Clears a b s := by
  constructor
  · intro h
    refine ⟨h.of_scripts rfl fun s _ hincluded => ?_, h.scripts⟩
    simp [includes] at hincluded
  · rintro ⟨h, hscripts⟩
    exact h.of_scripts rfl hscripts

theorem accepts_some_iff (names : List String) :
    ({ o with scripts := some names }).Accepts a b ↔ ({ o with scripts := some [] }).Accepts a b ∧
      ∀ s ∈ a.scripts, s.name ∈ names → o.Clears a b s := by
  rw [accepts_filter_iff]
  simp only [includes, List.contains_iff_mem]

theorem accepts_none_iff :
    ({ o with scripts := none }).Accepts a b ↔ ({ o with scripts := some [] }).Accepts a b ∧
      ∀ s ∈ a.scripts, o.Clears a b s := by
  rw [accepts_filter_iff]
  simp only [includes, forall_const]

/-- A filter accepts what two filters accept that let the same scripts through between them. -/
theorem accepts_union_iff {F G H : List String} (hunion : ∀ name, name ∈ H ↔ name ∈ F ∨ name ∈ G) :
    ({ o with scripts := some H }).Accepts a b ↔
      ({ o with scripts := some F }).Accepts a b ∧ ({ o with scripts := some G }).Accepts a b := by
  rw [accepts_some_iff F, accepts_some_iff G, accepts_some_iff H]
  simp only [hunion, or_imp]
  constructor
  · rintro ⟨hrest, hscripts⟩
    exact ⟨⟨hrest, fun s hs => (hscripts s hs).1⟩, hrest, fun s hs => (hscripts s hs).2⟩
  · rintro ⟨⟨hrest, hF⟩, -, hG⟩
    exact ⟨hrest, fun s hs => ⟨hF s hs, hG s hs⟩⟩

/-- Without filter all is accepted that each script alone and the empty filter accept. -/
theorem accepts_all_iff :
    ({ o with scripts := none }).Accepts a b ↔ ({ o with scripts := some [] }).Accepts a b ∧
      ∀ s ∈ a.scripts, ({ o with scripts := some [s.name] }).Accepts a b := by
  rw [accepts_none_iff]
  constructor
  · rintro ⟨hrest, hscripts⟩
    exact ⟨hrest, fun s _ => (accepts_some_iff _).mpr ⟨hrest, fun t ht _ => hscripts t ht⟩⟩
  · rintro ⟨hrest, hsingle⟩
    exact ⟨hrest, fun s hs => ((accepts_some_iff _).mp (hsingle s hs)).2 s hs List.mem_cons_self⟩

end CompareOptions

/-- The verdict under a filter is put together from those under its parts, and the verdict without
filter from those of single scripts, whatever the limit of mismatches. -/
theorem compare_filters {o : CompareOptions} {a b : Image} (ha : a.data.Consistent)
    (hb : b.data.Consistent) (hglobals : b.globals.Declared) :
    (∀ F G H : List String, (∀ name, name ∈ H ↔ name ∈ F ∨ name ∈ G) → ∃ f g h,
      compareImages { o with scripts := some F } a b = .ok f ∧
      compareImages { o with scripts := some G } a b = .ok g ∧
      compareImages { o with scripts := some H } a b = .ok h ∧
        (h.equal = true ↔ f.equal = true ∧ g.equal = true)) ∧
    ∃ c e, compareImages { o with scripts := none } a b = .ok c ∧
      compareImages { o with scripts := some [] } a b = .ok e ∧
        (c.equal = true ↔ e.equal = true ∧ ∀ s ∈ a.scripts, ∃ d,
          compareImages { o with scripts := some [s.name] } a b = .ok d ∧ d.equal = true) := by
  have hends (filter : Option (List String)) :
      ∃ c, compareImages { o with scripts := filter } a b = .ok c :=
    CompareOptions.exists_compareImages ha hb hglobals.consistent
  constructor
  · intro F G H hunion
    obtain ⟨f, hf⟩ := hends (some F)
    obtain ⟨g, hg⟩ := hends (some G)
    obtain ⟨h, hh⟩ := hends (some H)
    refine ⟨f, g, h, hf, hg, hh, ?_⟩
    rw [CompareOptions.equal_iff_accepts hf, CompareOptions.equal_iff_accepts hg,
      CompareOptions.equal_iff_accepts hh]
    exact CompareOptions.accepts_union_iff hunion
  · obtain ⟨c, hc⟩ := hends none
    obtain ⟨e, he⟩ := hends (some [])
    refine ⟨c, e, hc, he, ?_⟩
    rw [CompareOptions.equal_iff_accepts hc, CompareOptions.equal_iff_accepts he]
    simp only [CompareOptions.exists_equal_iff]
    exact CompareOptions.accepts_all_iff

namespace Sample

/-- The asker's image with a parameter more in the other script. -/
def answererMore : Image :=
  { askerFirst with scripts := [asker, { answerer with params := 1 }] }

/-- One of two scripts differs, so they are not equal together. -/
theorem asker_alone_equal : ∃ f g h,
    compareImages { scripts := some ["asker"] } askerFirst answererMore = .ok f ∧
    compareImages { scripts := some ["answerer"] } askerFirst answererMore = .ok g ∧
    compareImages { scripts := some ["answerer", "asker"] } askerFirst answererMore = .ok h ∧
      f.equal = true ∧ g.equal = false ∧ h.equal = false := by
  obtain ⟨hparts, -⟩ := compare_filters (o := {}) (a := askerFirst) (b := answererMore)
    DataSection.consistent_empty DataSection.consistent_empty askerFirst_declared
  obtain ⟨f, g, h, hf, hg, hh, hequal⟩ := hparts ["asker"] ["answerer"] ["answerer", "asker"]
    (by simp [or_comm])
  obtain ⟨f', hf', hyes⟩ : ∃ c,
      compareImages { scripts := some ["asker"] } askerFirst answererMore = .ok c ∧
        c.equal = true := exists_ok (by decide +kernel)
  obtain ⟨g', hg', hno⟩ : ∃ c,
      compareImages { scripts := some ["answerer"] } askerFirst answererMore = .ok c ∧
        c.equal = false := exists_ok (by decide +kernel)
  cases hf.symm.trans hf'
  cases hg.symm.trans hg'
  refine ⟨f, g, h, hf, hg, hh, hyes, hno, Bool.eq_false_iff.mpr fun htrue => ?_⟩
  rw [(hequal.mp htrue).2] at hno
  cases hno

end Sample

end ScriptImage
