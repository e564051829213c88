import ScriptImage.Link.Merge
import ScriptImage.Proofs.Agreement
import ScriptImage.Proofs.Compare.Sources
import ScriptImage.Proofs.Link.Sharing

/-!
Links do not depend on sources. Every stage of a link, run on modules without sources, does what it
does on the modules and gives the result without sources. So modules that differ in source lines
and files only are refused with the same error, or linked into images that differ in those only.
-/

namespace ScriptImage

/-! ### Moving instructions -/

namespace Moved

/-- The moved instruction without its source line. -/
def bare (m : Moved) : Moved := { m with before := m.before.bare, after := m.after.bare }

theorem settled_bare (m : Moved) (id : Option UInt32) :
    m.bare.settled id = (m.settled id).bare := by
  cases id <;> rfl

theorem settle_map_bare (ms : List Moved) :
    settle (ms.map bare) = (settle ms).map Instruction.bare := by
  induction ms with
  | nil => rfl
  | cons m r ih =>
      rw [List.map_cons, settle, settle, List.map_cons, ih, List.getElem?_map, ← settled_bare]
      cases r[1]? <;> rfl

end Moved

namespace Relocation

variable (r : Relocation) (textPushes : List UInt32) (s : Script) (newStart : UInt32)

theorem pairedVariable_map_bare (paired : Option Instruction) (scope : Scope) (address : UInt32) :
    r.pairedVariable (paired.map Instruction.bare) scope address =
      r.pairedVariable paired scope address := by
  cases paired <;> rfl

theorem move_bare (run : List Instruction) (k : Nat) (i : Instruction) :
    r.move textPushes s.bare newStart (run.map Instruction.bare) k i.bare =
      Moved.bare <$> r.move textPushes s newStart run k i := by
  have hpaired : (if 2 ≤ k then (run.map Instruction.bare)[k - 2]? else none) =
      (if 2 ≤ k then run[k - 2]? else none).map Instruction.bare := by
    rw [List.getElem?_map]
    split <;> rfl
  unfold move
  rw [hpaired]
  refine bind_same_comm fun oldAddress _ => ?_
  refine bind_same_comm fun newAddress _ => ?_
  refine bind_same_comm fun operand _ => ?_
  rw [pairedVariable_map_bare, Instruction.isReference_bare]
  split
  · exact bind_same_comm fun pairedId _ => rfl
  · rfl

theorem moveRun_bare (run : List Instruction) :
    r.moveRun textPushes s.bare newStart (run.map Instruction.bare) =
      List.map Moved.bare <$> r.moveRun textPushes s newStart run := by
  rw [moveRun, List.zipIdx_map]
  exact mapM_map_comm (fun (i, k) => r.move_bare textPushes s newStart run k i) run.zipIdx

end Relocation

/-! ### Merging modules -/

def CopiedScript.bare (c : CopiedScript) : CopiedScript :=
  ⟨c.script.bare, c.moved.map Moved.bare⟩

namespace Draft

/-- The draft without source lines and source files. -/
def bare (d : Draft) : Draft :=
  { d with scripts := d.scripts.map Script.bare, code := d.code.map Instruction.bare }

theorem copyScript_bare (r : Relocation) (m : ObjectModule) (id newStart : UInt32) (s : Script) :
    copyScript r m.bare id newStart s.bare =
      CopiedScript.bare <$> copyScript r m id newStart s := by
  unfold copyScript
  rw [ObjectModule.image_bare, Image.scriptCode?_bare]
  cases m.image.scriptCode? s with
  | none => rfl
  | some run =>
      exact bind_map_comm (r.moveRun_bare m.textPushes s newStart run) fun moved => rfl

theorem copyScripts_bare (r : Relocation) (m : ObjectModule) (firstId : UInt32) (i length : Nat)
    (scripts : List Script) :
    copyScripts r m.bare firstId i length (scripts.map Script.bare) =
      List.map CopiedScript.bare <$> copyScripts r m firstId i length scripts := by
  induction scripts generalizing i length with
  | nil => rfl
  | cons s rest ih =>
      rw [List.map_cons, copyScripts, copyScripts]
      refine bind_same_comm fun id _ => ?_
      refine bind_map_comm (copyScript_bare r m id _ s) fun c => ?_
      have hlength : c.bare.moved.length = c.moved.length := List.length_map _
      rw [hlength]
      exact bind_map_comm (ih _ _) fun cs => rfl

theorem resolveScript_map_bare (scripts : List Script) (s : ImportedScript) :
    resolveScript (scripts.map Script.bare) s = resolveScript scripts s := by
  unfold resolveScript
  rw [Image.find?_map_bare _ fun _ => rfl]
  cases scripts.find? fun t => t.name == s.name <;> rfl

theorem prepare_bare (share : Bool) (total : UInt32) (d : Draft) (m : ObjectModule) :
    d.bare.prepare share total m.bare =
      (fun p => { p with draft := p.draft.bare }) <$> d.prepare share total m := by
  have hlength : d.bare.scripts.length = d.scripts.length := List.length_map _
  have himported : resolveScript d.bare.scripts = resolveScript d.scripts :=
    funext (resolveScript_map_bare d.scripts)
  unfold prepare
  rw [hlength, himported, ObjectModule.image_bare, Image.scripts_bare]
  refine bind_same_comm fun first _ => ?_
  rw [List.zipIdx_map, List.mapM_map]
  refine bind_same_comm fun _ _ => ?_
  refine bind_same_comm fun importedVars _ => ?_
  refine bind_same_comm fun globals _ => ?_
  refine bind_same_comm fun importedScripts _ => ?_
  refine bind_same_comm fun ids _ => ?_
  exact bind_same_comm fun localShift _ => rfl

theorem moved_map_bare (copied : List CopiedScript) :
    (copied.map CopiedScript.bare).flatMap CopiedScript.moved =
      (copied.flatMap CopiedScript.moved).map Moved.bare := by
  rw [List.flatMap_map, List.map_flatMap]
  rfl

theorem settled_map_bare (copied : List CopiedScript) :
    (copied.map CopiedScript.bare).flatMap (fun c => Moved.settle c.moved) =
      (copied.flatMap fun c => Moved.settle c.moved).map Instruction.bare := by
  rw [List.flatMap_map, List.map_flatMap]
  exact List.flatMap_congr fun c _ => Moved.settle_map_bare c.moved

/-- A module without sources is merged the same way, and its jumps lead to the same places. -/
theorem merge_bare (share : Bool) (total : UInt32) (d : Draft) (m : ObjectModule) :
    d.bare.merge share total m.bare = bare <$> d.merge share total m := by
  unfold merge
  refine bind_map_comm (d.prepare_bare share total m) fun p => ?_
  have hlength : d.bare.code.length = d.code.length := List.length_map _
  have hnext : d.bare.nextAddress = d.nextAddress := congrArg Word.saturate hlength
  rw [hlength, hnext, ObjectModule.image_bare, Image.scripts_bare, Image.autostart_bare]
  refine bind_map_comm (copyScripts_bare p.relocation m p.firstScriptId 0 d.code.length
    m.image.scripts) fun copied => ?_
  have hcode : d.bare.code ++
        (copied.map CopiedScript.bare).flatMap (fun c => Moved.settle c.moved) =
      (d.code ++ copied.flatMap fun c => Moved.settle c.moved).map Instruction.bare := by
    rw [settled_map_bare]
    exact List.map_append.symm
  have hscripts : d.bare.scripts ++ (copied.map CopiedScript.bare).map CopiedScript.script =
      (d.scripts ++ copied.map CopiedScript.script).map Script.bare := by
    rw [List.map_append, List.map_map, List.map_map]
    rfl
  dsimp only
  rw [moved_map_bare, hcode, hscripts, List.length_map, List.length_map, List.length_map,
    List.filterMap_map, List.filterMap_map]
  refine bind_same_comm fun _ _ => ?_
  exact bind_same_comm fun autostart _ => rfl

theorem mergeAll_bare (share : Bool) (total : UInt32) (d : Draft) (modules : List ObjectModule) :
    mergeAll share total d.bare (modules.map ObjectModule.bare) =
      bare <$> mergeAll share total d modules := by
  refine foldlM_map_comm (fun d m => ?_) modules d
  rw [merge_bare]
  cases d.merge share total m <;> rfl

end Draft

/-! ### Whole links -/

/-- The linked image without source lines and source files, and its manifest. -/
def Linked.bare (l : Linked) : Linked := { l with image := l.image.bare }

theorem totalSlots_map_bare (modules : List ObjectModule) :
    totalSlots (modules.map ObjectModule.bare) = totalSlots modules := by
  rw [totalSlots, List.foldlM_map]
  rfl

theorem Draft.finish_bare (debug : Bool) (modules : List ObjectModule) (d : Draft) :
    d.bare.finish debug (modules.map ObjectModule.bare) = (d.finish debug modules).bare := by
  have hscripts : (d.bare.toImage debug).scripts.length = (d.toImage debug).scripts.length :=
    List.length_map _
  have hcode : (d.bare.toImage debug).code.length = (d.toImage debug).code.length :=
    List.length_map _
  unfold finish
  dsimp only
  rw [hscripts, hcode, List.foldl_map]
  rfl

/-- Modules without sources are linked into the image without sources. -/
theorem link_map_bare (options : LinkOptions) (modules : List ObjectModule) :
    link options (modules.map ObjectModule.bare) = Linked.bare <$> link options modules := by
  unfold link
  rw [totalSlots_map_bare]
  refine bind_same_comm fun total _ => ?_
  exact bind_map_comm (Draft.mergeAll_bare options.sharedTexts total {} modules) fun d =>
    congrArg Except.ok (d.finish_bare options.debugMetadata modules)

/-! ### Programs that differ in their sources only -/

/-- Findings that are the same but for their places are of the same severity in the same script. -/
theorem Finding.forall₂_of_map_bare {fs fs' : List Finding}
    (h : fs.map bare = fs'.map bare) :
    List.Forall₂ (fun f f' => f.severity = f'.severity ∧ f.script = f'.script) fs fs' := by
  have hequal : List.Forall₂ Eq (fs.map bare) (fs'.map bare) := by
    rwa [List.forall₂_eq_eq_eq]
  have hbare : List.Forall₂ (fun f f' => f.bare = f'.bare) fs fs' :=
    List.forall₂_map_right_iff.mp (List.forall₂_map_left_iff.mp hequal)
  refine hbare.imp fun {f f'} hf => ?_
  have hscript : f.bare.script = f'.bare.script := congrArg Finding.script hf
  have hkind : f.kind.bare.severity = f'.kind.bare.severity :=
    congrArg (fun f : Finding => f.kind.severity) hf
  rw [FindingKind.severity_bare, FindingKind.severity_bare] at hkind
  exact ⟨hkind, hscript⟩

theorem compareImages_alike (o : CompareOptions) {a a' b b' : Image} (ha : a.bare = a'.bare)
    (hb : b.bare = b'.bare) :
    Alike False (fun c c' => c.bare = c'.bare) (compareImages o a b) (compareImages o a' b') := by
  refine .of_map_eq ?_
  rw [← compareImages_bare, ← compareImages_bare, ha, hb]

theorem link_alike_of_bare (o : LinkOptions) {ms ms' : List ObjectModule}
    (h : ms.map ObjectModule.bare = ms'.map ObjectModule.bare) :
    Alike False (fun l l' => l.bare = l'.bare) (link o ms) (link o ms') := by
  refine .of_map_eq ?_
  rw [← link_map_bare, ← link_map_bare, h]

/-- Sources never decide. Comparing two images and comparing two others that differ from them in
source lines and files only fail alike or give the same verdict, the same summary and as many
findings, of the same severities in the same scripts. And modules that differ in source lines and
files only are refused with the same error, or linked into images that differ in those only. -/
theorem sources_never_decide :
    (∀ (o : CompareOptions) (a a' b b' : Image), a.bare = a'.bare → b.bare = b'.bare →
      Alike False (fun c c' => c.equal = c'.equal ∧ c.summary = c'.summary ∧
          List.Forall₂ (fun f f' => f.severity = f'.severity ∧ f.script = f'.script)
            c.report c'.report)
        (compareImages o a b) (compareImages o a' b')) ∧
    ∀ (o : LinkOptions) (ms ms' : List ObjectModule),
      ms.map ObjectModule.bare = ms'.map ObjectModule.bare →
      Alike False (fun l l' => l.image.bare = l'.image.bare ∧ l.manifest = l'.manifest)
        (link o ms) (link o ms') := by
  constructor
  · intro o a a' b b' ha hb
    refine (compareImages_alike o ha hb).mono fun c c' hc => ⟨?_, ?_, ?_⟩
    · rw [← c.equal_bare, hc, c'.equal_bare]
    · rw [← c.summary_bare, hc, c'.summary_bare]
    · refine Finding.forall₂_of_map_bare ?_
      rw [← c.report_bare, hc, c'.report_bare]
  · intro o ms ms' h
    refine (link_alike_of_bare o h).mono fun l l' hl => ?_
    have hmanifest : l.bare.manifest = l'.bare.manifest := congrArg Linked.manifest hl
    exact ⟨congrArg Linked.image hl, hmanifest⟩

namespace Sample

/-- The module as if its sources had been moved. -/
def retold (m : ObjectModule) : ObjectModule :=
  { m with
    image := { m.image with
      scripts := m.image.scripts.map fun s => { s with source := "moved" }
      code := m.image.code.map fun i => { i with line := i.line + 7 } } }

/-- Two modules with other sources are linked into an image with other sources. A strict comparison
of the two modules finds its differences in other places. -/
theorem sources_retold : ∃ l l' c c', link {} [speaker, echo] = .ok l ∧
    link {} [retold speaker, retold echo] = .ok l' ∧ l.image.code ≠ l'.image.code ∧
      l.image.bare = l'.image.bare ∧
    compareImages { mode := .strict } speaker.image echo.image = .ok c ∧
    compareImages { mode := .strict } (retold speaker).image (retold echo).image = .ok c' ∧
      c.report ≠ c'.report ∧ c.equal = c'.equal ∧ c.summary = c'.summary := by
  obtain ⟨hcompare, hlink⟩ := sources_never_decide
  obtain ⟨l, hl, hline⟩ : ∃ l, link {} [speaker, echo] = .ok l ∧
      l.image.code.map Instruction.line = [0, 0, 0, 0, 0, 0] := exists_ok (by decide +kernel)
  obtain ⟨l', hl', hline'⟩ : ∃ l', link {} [retold speaker, retold echo] = .ok l' ∧
      l'.image.code.map Instruction.line = [7, 7, 7, 7, 7, 7] := exists_ok (by decide +kernel)
  obtain ⟨c, hc, hplace⟩ : ∃ c, compareImages { mode := .strict } speaker.image echo.image = .ok c ∧
      c.report.head?.map Finding.display =
        some "mismatch: [main] main.txt:0 / main.txt:0: PUSH int 3 vs PUSH int 0" :=
    exists_ok (by decide +kernel)
  obtain ⟨c', hc', hplace'⟩ :
      ∃ c', compareImages { mode := .strict } (retold speaker).image (retold echo).image = .ok c' ∧
        c'.report.head?.map Finding.display =
          some "mismatch: [main] moved:7 / moved:7: PUSH int 3 vs PUSH int 0" :=
    exists_ok (by decide +kernel)
  obtain ⟨l'', hl'', hbare, -⟩ :=
    (hlink {} [speaker, echo] [retold speaker, retold echo] (by decide +kernel)).exists_ok hl
  cases hl''.symm.trans hl'
  obtain ⟨c'', hc'', hequal, hsummary, -⟩ := (hcompare { mode := .strict } speaker.image
    (retold speaker).image echo.image (retold echo).image (by decide +kernel)
    (by decide +kernel)).exists_ok hc
  cases hc''.symm.trans hc'
  refine ⟨l, l', c, c', hl, hl', ?_, hbare, hc, hc', ?_, hequal, hsummary⟩
  · intro hcode
    rw [hcode, hline'] at hline
    exact absurd hline (by decide)
  · intro hreport
    rw [hreport, hplace'] at hplace
    exact absurd hplace (by decide)

end Sample

end ScriptImage
