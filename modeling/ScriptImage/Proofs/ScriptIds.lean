import ScriptImage.Image.Codec
import ScriptImage.Proofs.Checks
import ScriptImage.Proofs.Compare.Parts

/-!
Scripts looked up by id. The search begins at the position that an id has where ids count the
scripts, and goes through all scripts when another one stands there. An id past the number of
scripts has no such position, nor has 0, so a script with such an id is not found.
-/

namespace ScriptImage

namespace Image

variable {m : Image} {id : UInt32} {s : Script}

/-- Where a script stands at the position of an id, the others are asked when it has another id. -/
theorem scriptById?_of_getElem? {n : Nat} (hid : id.toNat = n + 1) {t : Script}
    (ht : m.scripts[n]? = some t) :
    m.scriptById? id = if t.id = id then some t else m.scripts.find? fun s => s.id == id := by
  unfold scriptById?
  rw [hid]
  simp only [ht, Option.bind_eq_bind, Option.bind_some]

/-- An id that counts a script leads to a position. -/
theorem exists_position (h : m.isScriptId id = true) :
    ∃ n t, id.toNat = n + 1 ∧ m.scripts[n]? = some t := by
  obtain ⟨hpos, hle⟩ := isScriptId_iff.mp h
  obtain ⟨n, hn⟩ := Nat.exists_eq_succ_of_ne_zero hpos.ne'
  exact ⟨n, _, hn, List.getElem?_eq_getElem (by omega)⟩

theorem scriptById?_of_not_isScriptId (h : ¬ m.isScriptId id = true) : m.scriptById? id = none := by
  rw [isScriptId_iff] at h
  unfold scriptById?
  cases hid : id.toNat with
  | zero => rfl
  | succ n =>
      have hnone : m.scripts[n]? = none := List.getElem?_eq_none (by omega)
      simp only [hnone, Option.bind_eq_bind, Option.bind_none]

theorem mem_of_scriptById? (h : m.scriptById? id = some s) : s ∈ m.scripts ∧ s.id = id := by
  by_cases hid : m.isScriptId id = true
  · obtain ⟨n, t, hn, ht⟩ := exists_position hid
    rw [scriptById?_of_getElem? hn ht] at h
    split at h
    · rename_i hfirst
      cases h
      exact ⟨List.mem_of_getElem? ht, hfirst⟩
    · have hsid := List.find?_some h
      exact ⟨List.mem_of_find?_eq_some h, beq_iff_eq.mp hsid⟩
  · rw [scriptById?_of_not_isScriptId hid] at h
    cases h

theorem exists_scriptById? (hid : m.isScriptId id = true) (hs : s ∈ m.scripts) (hsid : s.id = id) :
    ∃ t, m.scriptById? id = some t := by
  obtain ⟨n, t, hn, ht⟩ := exists_position hid
  rw [scriptById?_of_getElem? hn ht]
  split
  · exact ⟨_, rfl⟩
  · rw [← Option.isSome_iff_exists, List.find?_isSome]
    exact ⟨s, hs, beq_iff_eq.mpr hsid⟩

theorem exists_scriptById?_iff :
    (∃ t, m.scriptById? id = some t) ↔
      m.isScriptId id = true ∧ ∃ s ∈ m.scripts, s.id = id := by
  constructor
  · rintro ⟨t, ht⟩
    refine ⟨?_, t, mem_of_scriptById? ht⟩
    by_contra hid
    rw [scriptById?_of_not_isScriptId hid] at ht
    cases ht
  · rintro ⟨hid, s, hs, hsid⟩
    exact exists_scriptById? hid hs hsid

/-- The ids of an image are those that count its scripts, in any order and any number of times. -/
def IdsInRange (m : Image) : Prop := ∀ s ∈ m.scripts, m.isScriptId s.id = true

instance (m : Image) : Decidable m.IdsInRange := List.decidableBAll _ _

/-- A reference gives the name of a script when one has its id and the id is in range. -/
theorem exists_scriptName?_iff {r : SymbolRef} :
    (∃ name, m.scriptName? r = some name) ↔
      ∃ s ∈ m.scripts, r = .internal s.id ∧ m.isScriptId s.id = true := by
  cases r with
  | internal id =>
      have hname : (∃ name, m.scriptName? (.internal id) = some name) ↔
          ∃ t, m.scriptById? id = some t := by
        simp only [scriptName?, SymbolRef.internal?, Option.bind_eq_bind, Option.bind_some,
          Option.pure_def, Option.bind_eq_some_iff, Option.some.injEq]
        constructor
        · rintro ⟨_, t, ht, -⟩
          exact ⟨t, ht⟩
        · rintro ⟨t, ht⟩
          exact ⟨_, t, ht, rfl⟩
      rw [hname, exists_scriptById?_iff]
      constructor
      · rintro ⟨hid, s, hs, rfl⟩
        exact ⟨s, hs, rfl, hid⟩
      · rintro ⟨s, hs, heq, hid⟩
        cases heq
        exact ⟨hid, s, hs, rfl⟩
  | external p => simp [scriptName?, SymbolRef.internal?]

/-- The script found by an id has that id, and one is found exactly when a script has the id and
the id is one of those that count the scripts. So every id that a script has finds one exactly when
the ids of all scripts are in that range. Then the scripts started at load time resolve exactly when
each of them is there, in whatever order the ids are. -/
theorem scriptById?_finds (m : Image) :
    (∀ id s, m.scriptById? id = some s → s ∈ m.scripts ∧ s.id = id) ∧
    (∀ id, (∃ s, m.scriptById? id = some s) ↔
      m.isScriptId id = true ∧ ∃ s ∈ m.scripts, s.id = id) ∧
    ((∀ id, (∃ s, m.scriptById? id = some s) ↔ ∃ s ∈ m.scripts, s.id = id) ↔ m.IdsInRange) ∧
    (m.IdsInRange → ((∃ names, CompareOptions.autostartNames? m = some names) ↔
      ∀ r ∈ m.autostart, ∃ s ∈ m.scripts, r = .internal s.id)) := by
  refine ⟨fun id s => mem_of_scriptById?, fun id => exists_scriptById?_iff, ⟨?_, ?_⟩, ?_⟩
  · intro hfinds s hs
    exact (exists_scriptById?_iff.mp ((hfinds s.id).mpr ⟨s, hs, rfl⟩)).1
  · intro hrange id
    rw [exists_scriptById?_iff, and_iff_right_iff_imp]
    rintro ⟨s, hs, rfl⟩
    exact hrange s hs
  · intro hrange
    rw [CompareOptions.exists_autostartNames?_iff]
    refine forall₂_congr fun r _ => exists_scriptName?_iff.trans ?_
    exact exists_congr fun s => and_congr_right fun hs => and_iff_left (hrange s hs)

end Image

namespace Sample

/-- One script, which has the id 7 and is started at load time. -/
def sparse : Image where
  scripts := [⟨7, "main", 0, 0, [], 0, "main.txt"⟩]
  code := [.endRun]
  autostart := [.internal 7]

/-- A file holds the image. Its script is not found by its id, so the image is reported as corrupt
when it is compared with itself. -/
theorem id_past_the_scripts :
    ¬ ((∃ s, sparse.scriptById? 7 = some s) ↔ ∃ s ∈ sparse.scripts, s.id = 7) ∧
      Image.decode sparse.encode = .ok sparse ∧
        ∃ c, compareImages {} sparse sparse = .ok c ∧
          c.report = [⟨none, .autostartUnknown⟩] := by
  refine ⟨?_, ?_, ?_⟩
  · rw [Image.exists_scriptById?_iff]
    decide
  · exact toOption_eq_some.mp (by decide +kernel)
  · exact exists_ok (by decide +kernel)

end Sample

end ScriptImage
