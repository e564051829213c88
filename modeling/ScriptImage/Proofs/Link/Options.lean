import ScriptImage.Proofs.Link.Lockstep
import ScriptImage.Proofs.Link.Sharing

/-!
What the options of a link decide. Whether it succeeds and with which error does not depend on them,
and the images of two links of the same modules differ in their data and in the pushes of text
offsets only. Such a push gives an offset at which the data of either image hold the same text.
-/

namespace ScriptImage

/-! ### The size of the data -/

/-- The bytes that texts take, each with its closing zero. -/
def closedLength (ts : List (List UInt8)) : Nat := (ts.map fun t => t.length + 1).sum

@[simp] theorem closedLength_cons (t : List UInt8) (ts : List (List UInt8)) :
    closedLength (t :: ts) = t.length + 1 + closedLength ts := by
  simp [closedLength]

@[simp] theorem closedLength_append (ts us : List (List UInt8)) :
    closedLength (ts ++ us) = closedLength ts + closedLength us := by
  simp [closedLength]

theorem closedLength_filter_le (p : List UInt8 → Bool) (ts : List (List UInt8)) :
    closedLength (ts.filter p) ≤ closedLength ts := by
  induction ts with
  | nil => exact Nat.le_refl _
  | cons t ts ih =>
      rw [List.filter_cons]
      split
      · simpa using ih
      · rw [closedLength_cons]
        omega

theorem DataSection.size_ofTexts (ts : List (List UInt8)) :
    (ofTexts ts).size = closedLength ts := by
  rw [size, bytes_ofTexts, List.length_flatMap, closedLength]
  congr 1
  exact List.map_congr_left fun t _ => by rw [List.length_append, List.length_singleton]

theorem closedLength_addText_le (share : Bool) (ts : List (List UInt8)) (t : List UInt8) :
    closedLength (addText share ts t).2 ≤ closedLength ts + (t.length + 1) := by
  have hpush : closedLength (ts ++ [t]) = closedLength ts + (t.length + 1) := by
    simp [closedLength]
  unfold addText
  split
  · rcases insertNew_cases ts t with ⟨n, -, heq⟩ | ⟨-, heq⟩
    · rw [heq]
      exact Nat.le_add_right _ _
    · rw [heq, hpush]
  · rw [hpush]

theorem closedLength_addTexts_le (share : Bool) (ts us : List (List UInt8)) :
    closedLength (addTexts share ts us).2 ≤ closedLength ts + closedLength us := by
  induction us generalizing ts with
  | nil => exact Nat.le_refl _
  | cons u us ih =>
      have hstep := closedLength_addText_le share ts u
      have hrest := ih (addText share ts u).2
      simp only [addTexts_cons, closedLength_cons]
      omega

/-- The bytes that the texts of a module take, each with its closing zero. -/
def ObjectModule.textBytes (m : ObjectModule) : Nat :=
  (m.image.data.entries.map fun e => e.length.toNat + 1).sum

theorem DataSection.length_of_bytesOf {d : DataSection} {e : TextEntry} {t : List UInt8}
    (h : d.bytesOf e = .ok t) : t.length = e.length.toNat := by
  simp only [bytesOf] at h
  split at h
  · cases h
    rw [List.length_take, List.length_drop]
    omega
  · cases h

theorem ObjectModule.closedLength_texts {m : ObjectModule} {us : List (List UInt8)}
    (h : m.image.data.texts = .ok us) : closedLength us = m.textBytes := by
  refine congrArg List.sum (map_eq_of_mapM h fun e t ht => ?_)
  rw [DataSection.length_of_bytesOf ht]

/-- The plain texts of modules are some of their texts. -/
theorem closedLength_plainTexts_le {modules : List ObjectModule} {us : List (List UInt8)}
    (h : plainTexts modules = .ok us) :
    closedLength us ≤ (modules.map ObjectModule.textBytes).sum := by
  induction modules generalizing us with
  | nil =>
      cases h
      exact Nat.le_refl _
  | cons m ms ih =>
      obtain ⟨vs, ws, hvs, hws, rfl⟩ := plainTexts_cons_eq_ok_iff.mp h
      have hfilter := closedLength_filter_le TextKind.isPlain vs
      have hrest := ih hws
      rw [m.closedLength_texts hvs] at hfilter
      rw [closedLength_append, List.map_cons, List.sum_cons]
      omega

/-- Merging modules writes at most the texts that they have. -/
theorem Draft.size_of_mergeAll {share : Bool} {total : UInt32} {modules : List ObjectModule}
    {e : Draft} (h : mergeAll share total {} modules = .ok e) :
    e.texts.data.size ≤ (modules.map ObjectModule.textBytes).sum := by
  obtain ⟨us, hus, hstores, -⟩ := stores_of_mergeAll (TextPool.stores_empty share) h
  have hadded := closedLength_addTexts_le share [] us
  have hplain := closedLength_plainTexts_le hus
  rw [hstores.data, DataSection.size_ofTexts]
  exact hadded.trans ((Nat.zero_add _).le.trans hplain)

/-! ### Two links of the same modules -/

/-- Links fail alike whatever their options are. -/
theorem link_alike (o o' : LinkOptions) (modules : List ObjectModule) :
    Alike False (fun l l' => l.image.version = l'.image.version ∧
      l.image.globals = l'.image.globals ∧ l.image.scripts = l'.image.scripts ∧
      l.image.autostart = l'.image.autostart ∧ l.image.inits = l'.image.inits ∧
      l.image.code.length = l'.image.code.length) (link o modules) (link o' modules) := by
  unfold link
  refine .bind_same fun total htotal => ?_
  have hmerged : Alike (0 ≠ 0) (Draft.Ahead 0) (mergeAll o.sharedTexts total {} modules)
      (mergeAll o'.sharedTexts total {} modules) :=
    Draft.mergeAll_alike (.empty 0) rfl fun m => slots_le_of_totalSlots htotal
  have hlax : (0 ≠ 0) = False := by simp
  rw [hlax] at hmerged
  refine hmerged.bind fun e e' he => .ok ⟨rfl, he.globals, ?_, he.autostart, he.inits, he.code⟩
  have hscripts := he.scripts
  rwa [funext Script.raise_zero, List.map_id'] at hscripts

namespace Sample

end Sample

end ScriptImage
