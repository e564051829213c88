import ScriptImage.Proofs.Link.Copies

/-!
Where the code of modules comes to stand. The runs of scripts are copied one after the other, so a
copy begins where the runs before it end, and every instruction keeps its position in its run. What
an instruction names by an address or a script id is found again in the image.
-/

namespace ScriptImage

namespace Image

/-- Scripts whose runs follow one another from a position to the end of the code. -/
inductive TiledFrom (m : Image) : Nat → List Script → Prop
  | done : TiledFrom m m.code.length []
  | next {start : Nat} {s : Script} {run : List Instruction} {rest : List Script} :
      s.address.toNat = start → m.scriptCode? s = some run →
        TiledFrom m (start + run.length) rest → TiledFrom m start (s :: rest)

variable {m : Image} {start : Nat} {s : Script} {ss : List Script}

theorem tiledFrom_nil_iff : m.TiledFrom start [] ↔ start = m.code.length := by
  constructor
  · rintro ⟨⟩
    rfl
  · rintro rfl
    exact .done

theorem tiledFrom_cons_iff : m.TiledFrom start (s :: ss) ↔ ∃ run, m.code.drop start =
    run ++ m.code.drop (start + run.length) ∧ s.address.toNat = start ∧
      m.scriptCode? s = some run ∧ m.TiledFrom (start + run.length) ss := by
  constructor
  · rintro (_ | ⟨rfl, hrun, hrest⟩)
    refine ⟨_, ?_, rfl, hrun, hrest⟩
    rw [← List.drop_drop, List.prefix_iff_eq_append.mp (prefix_of_closedRun? hrun)]
  · rintro ⟨run, -, haddress, hrun, hrest⟩
    exact .next haddress hrun hrest

/-- Scripts that stand for the pieces of the code in order tile it. -/
theorem tiledFrom_drop (rs : List (List Instruction)) (hcode : rs.flatten = m.code)
    (hlength : rs.length = m.scripts.length)
    (hrun : ∀ n s, m.scripts[n]? = some s → s.address.toNat = pieceStart id rs n ∧
      ∃ run, rs[n]? = some run ∧ m.scriptCode? s = some run)
    {n : Nat} (hn : n ≤ m.scripts.length) :
    m.TiledFrom (pieceStart id rs n) (m.scripts.drop n) := by
  obtain ⟨k, hk⟩ := Nat.exists_eq_add_of_le hn
  -- on the number of scripts from here to the end
  induction k generalizing n with
  | zero =>
      rw [Nat.add_zero] at hk
      rw [← hk, List.drop_length, ← hlength, pieceStart_length, List.flatMap_id, hcode]
      exact .done
  | succ k ih =>
      have hlt : n < m.scripts.length := by omega
      obtain ⟨haddress, run, hpiece, hcode'⟩ := hrun n _ (List.getElem?_eq_getElem hlt)
      rw [List.drop_eq_getElem_cons hlt]
      refine .next haddress hcode' ?_
      have hrest := ih hlt (by omega)
      rwa [pieceStart_succ hpiece] at hrest

theorem Sound.code_at {image : Image} (h : image.Sound) {n k : Nat} {run : List Instruction}
    (hn : (runs image.code)[n]? = some run) (hk : k < run.length) :
    image.code[pieceStart id (runs image.code) n + k]? = run[k]? := by
  have hget := getElem?_pieceStart_add (f := id) hn hk
  rwa [List.flatMap_id, h.tiled] at hget

end Image

theorem allRuns_length (modules : List ObjectModule) :
    (allRuns modules).length = (allScripts modules).length := by
  induction modules with
  | nil => rfl
  | cons m ms ih =>
      rw [allRuns_cons, allScripts_cons, List.length_append, List.length_append, List.length_map,
        ih]

/-- The number of instructions that modules have in an image. -/
def copiedLength (modules : List ObjectModule) : Nat := (allRuns modules).flatten.length

/-- Lists of scripts with the same heads have the same first script of a name. -/
theorem findIdx?_name_eq {ss ts : List Script} (h : ss.map Script.head = ts.map Script.head)
    (name : String) :
    ss.findIdx? (fun t => t.name == name) = ts.findIdx? fun t => t.name == name := by
  have hmap := congrArg (List.findIdx? fun x : ScriptHead => x.name == name) h
  rwa [List.findIdx?_map, List.findIdx?_map] at hmap

namespace Draft

variable {share : Bool} {total : UInt32} {d d' : Draft} {m : ObjectModule} {p : Prepared}
  {cs : List CopiedScript}

/-- A script id of the module itself becomes that of the copy of the last script that has it. -/
theorem Merges.scriptId_internal (h : Merges share total d m d' p cs) {id new : UInt32}
    (hid : p.relocation.scriptId (.internal id) = .ok new) :
    ∃ j t, m.image.scripts[j]? = some t ∧ t.id = id ∧
      m.image.scripts.reverse.find? (fun t => t.id == id) = some t ∧
      new.toNat = d.scripts.length + j + 1 := by
  rw [Relocation.scriptId_internal_eq_ok_iff, h.prepares.scriptIds] at hid
  obtain ⟨j, t, ht, hlast, rfl⟩ := lookup_newIds hid
  obtain ⟨c, run, -, hc, -⟩ := h.copy ht
  have hlt := c.script.id.toNat_lt
  have htid := List.find?_some (p := fun t : Script => t.id == id) hlast
  exact ⟨j, t, ht, beq_iff_eq.mp htid, hlast, Word.toNat_ofNat (by omega)⟩

/-- The code of a draft is made of the runs of its modules. -/
theorem Merged.code_length {modules : List ObjectModule} {e : Draft} (h : Merged {} modules e) :
    e.code.length = copiedLength modules := by
  rw [← h.sound.tiled, List.length_flatten, h.lengths, copiedLength, List.length_flatten]
  rfl

namespace Step

variable {modules : List ObjectModule} {e b a : Draft} {i : Nat}

/-- An imported script is the first one of its name in the modules before. -/
theorem scriptId_external (h : Step share total modules e i m b a p cs) {q new : UInt32}
    (hid : p.relocation.scriptId (.external q) = .ok new) :
    ∃ v n t, m.importedScripts[q.toNat]? = some v ∧
      (allScripts (modules.take i)).findIdx? (fun t => t.name == v.name) = some n ∧
      (allScripts (modules.take i))[n]? = some t ∧ t.params = v.params ∧ new.toNat = n + 1 := by
  rw [Relocation.scriptId_external_eq_ok_iff] at hid
  obtain ⟨v, hv, hresolve⟩ := mapM_source h.merges.prepares.importedScripts hid
  obtain ⟨found, hfound, hparams, rfl⟩ := resolveScript_eq_ok_iff.mp hresolve
  rw [List.find?_eq_bind_findIdx?_getElem?, Option.bind_eq_some_iff] at hfound
  obtain ⟨n, hn, hfound⟩ := hfound
  have hheads : b.scripts.map Script.head = (allScripts (modules.take i)).map Script.head :=
    h.before.heads
  have hhead : ((allScripts (modules.take i)).map Script.head)[n]? = some found.head := by
    rw [← hheads, List.getElem?_map, hfound]
    rfl
  rw [List.getElem?_map, Option.map_eq_some_iff] at hhead
  obtain ⟨t, ht, hhead⟩ := hhead
  refine ⟨v, n, t, hv, ?_, ht, ?_, h.before.sound.numbered n found hfound⟩
  · rw [← findIdx?_name_eq hheads, hn]
  · rw [← hparams]
    exact congrArg ScriptHead.params hhead

/-- Copies begin where the runs of all scripts before them end. -/
theorem start_eq (h : Step share total modules e i m b a p cs) {j : Nat} (hj : j ≤ cs.length) :
    b.code.length + pieceStart CopiedScript.code cs j = copyStart modules i j := by
  have hruns : allRuns modules = allRuns (modules.take i) ++
      (m.image.scripts.map m.runOf ++ allRuns (modules.drop (i + 1))) := flatMap_eq_append h.module
  rw [copyStart, copyIndex, ← allRuns_length, hruns, pieceStart_append_right,
    pieceStart_append_left _ _ (by rw [List.length_map, ← h.merges.length]; exact hj),
    List.flatMap_id, pieceStart_map, h.before.code_length, pieceStart_congr h.merges.lengths]
  rfl

/-- The copy of a script of a module. -/
theorem copy (h : Step share total modules e i m b a p cs) (debug : Bool) {j : Nat} {s : Script}
    (hs : m.image.scripts[j]? = some s) :
    ∃ c run, cs[j]? = some c ∧ Copied p.relocation m s (copyStart modules i j) run c ∧
      (e.toImage debug).StandsFor (copyIndex modules i j) c.script c.code := by
  obtain ⟨c, run, hc, -, hcopied⟩ := h.merges.copy hs
  have hj := (List.getElem?_eq_some_iff.mp hc).1
  have haddress : c.script.address =
      Word.saturate (b.code.length + pieceStart CopiedScript.code cs j) := by
    rw [hcopied.script]
  refine ⟨c, run, hc, h.start_eq hj.le ▸ hcopied, ?_⟩
  rw [copyIndex, ← h.scripts_length]
  exact h.merges.standsFor h.before.sound h.after debug hc haddress

end Step

end Draft

/-! ### What an instruction has become -/

namespace Operand

/-- An operand that is a value of its own and names nothing in the module. -/
def IsValue : Operand → Prop
  | .address _ | .script _ | .variable _ => False
  | _ => True

end Operand

/-- What is left of an instruction at position `k` of a run of module `i`. It keeps its fields, and
its operand leads to the same place: a jump keeps its distance from the start of the script, a call
names the copy of the script, and a value stays as it is unless it is the offset of a text or the
float of a reference. -/
structure CodeKept (modules : List ObjectModule) (i : Nat) (m : ObjectModule) (s s' : Script)
    (run : List Instruction) (k : Nat) (ins ins' : Instruction) : Prop where
  fields : ins' = { ins with operand := ins'.operand }
  jump : ∀ a, ins.operand = .address a → ∃ a', ins'.operand = .address a' ∧
    (a'.toNat : Int) - s'.address.toNat = a.toNat - s.address.toNat
  call : ∀ id, ins.operand = .script (.internal id) → ∃ j t id',
    m.image.scripts[j]? = some t ∧ t.id = id ∧ ins'.operand = .script (.internal id') ∧
      id'.toNat = copyIndex modules i j + 1
  importedCall : ∀ q, ins.operand = .script (.external q) → ∃ v n t id',
    m.importedScripts[q.toNat]? = some v ∧
      (allScripts (modules.take i)).findIdx? (fun t => t.name == v.name) = some n ∧
        (allScripts (modules.take i))[n]? = some t ∧ t.params = v.params ∧
          ins'.operand = .script (.internal id') ∧ id'.toNat = n + 1
  value : ins.operand.IsValue → ¬ m.PushesText s k ins → ¬ FeedsReference run k → ins' = ins

namespace Draft

variable {share : Bool} {total : UInt32} {modules : List ObjectModule} {e b a : Draft} {i : Nat}
  {m : ObjectModule} {p : Prepared} {cs : List CopiedScript}

theorem Step.codeKept (h : Step share total modules e i m b a p cs) {s : Script} {start : Nat}
    {run : List Instruction} {c : CopiedScript} (hc : Copied p.relocation m s start run c)
    {k : Nat} (hk : k < 0x100000000) {ins : Instruction} (hins : run[k]? = some ins) :
    ∃ ins', c.code[k]? = some ins' ∧ CodeKept modules i m s c.script run k ins ins' := by
  obtain ⟨ins', hins', hbecomes⟩ := Relocation.becomes_of_moveRun hc.moved hins
  refine ⟨ins', hins', hbecomes.eq, ?_, ?_, ?_, ?_⟩
  · intro t ht
    obtain ⟨isText, hoperand⟩ := hbecomes.newOperand (by simp [ht])
    rw [ht] at hoperand
    generalize ins'.operand = o at hoperand
    cases hoperand with
    | address ht' =>
        refine ⟨_, rfl, ?_⟩
        rw [hc.address]
        omega
  · intro id hid
    obtain ⟨isText, hoperand⟩ := hbecomes.newOperand (by simp [hid])
    rw [hid] at hoperand
    generalize ins'.operand = o at hoperand
    cases hoperand with
    | script hnew =>
        obtain ⟨j, t, ht, htid, -, hnumber⟩ := h.merges.scriptId_internal hnew
        refine ⟨j, t, _, ht, htid, rfl, ?_⟩
        rw [hnumber, copyIndex, h.scripts_length]
  · intro q hq
    obtain ⟨isText, hoperand⟩ := hbecomes.newOperand (by simp [hq])
    rw [hq] at hoperand
    generalize ins'.operand = o at hoperand
    cases hoperand with
    | script hnew =>
        obtain ⟨v, n, t, hv, hn, ht, hparams, hnumber⟩ := h.scriptId_external hnew
        exact ⟨v, n, t, _, hv, hn, ht, hparams, rfl, hnumber⟩
  · intro hvalue htext hfeeds
    obtain ⟨moved, hmoves, hsettle⟩ := Relocation.settle_of_moveRun hc.moved hins hfeeds
    change (Moved.settle c.moved)[k]? = some ins' at hins'
    rw [hsettle, Option.some.injEq] at hins'
    subst hins'
    have hmarked := hmoves.isText_iff hk
    have hoperand := hmoves.operand
    have hsame : moved.after.operand = ins.operand := by
      generalize hi : ins.operand = o at hoperand hvalue
      generalize moved.after.operand = o' at hoperand
      cases hoperand with
      | text hisText => exact absurd ⟨(hmarked.mp hisText).1, ⟨_, hi⟩, (hmarked.mp hisText).2⟩ htext
      | address => exact hvalue.elim
      | script => exact hvalue.elim
      | «variable» => exact hvalue.elim
      | _ => rfl
    rw [hmoves.after, hsame]

/-- Runs of the image are as long as those they are copies of. -/
theorem Merged.pieceStart_runs (h : Merged {} modules e) (n : Nat) :
    pieceStart id (runs e.code) n = pieceStart id (allRuns modules) n :=
  pieceStart_congr h.lengths n

/-- While the code fits words, the address of a copy is where it begins. -/
theorem Merged.address_toNat (h : Merged {} modules e) (hsmall : e.code.length < 0x100000000)
    {r : Relocation} {j : Nat} {s : Script} {run : List Instruction} {c : CopiedScript}
    {debug : Bool} (hc : Copied r m s (copyStart modules i j) run c)
    (hstands : (e.toImage debug).StandsFor (copyIndex modules i j) c.script c.code) :
    c.script.address.toNat = copyStart modules i j ∧
      copyStart modules i j + run.length ≤ e.code.length := by
  have hpiece : pieceStart id (runs e.code) (copyIndex modules i j) + c.code.length ≤
      ((runs e.code).flatMap id).length := pieceStart_add_length_le (f := id) hstands.runAt
  rw [List.flatMap_id, h.sound.tiled, h.pieceStart_runs, CopiedScript.code_length,
    Relocation.moveRun_length hc.moved] at hpiece
  change copyStart modules i j + run.length ≤ e.code.length at hpiece
  refine ⟨?_, hpiece⟩
  rw [hc.script]
  exact Word.toNat_saturate (by omega)

/-- Every script of a draft is a copy, and stands for a run of the code. -/
theorem exists_copied (h : mergeAll share total {} modules = .ok e) (debug : Bool) {n : Nat}
    {s : Script} (hs : e.scripts[n]? = some s) :
    ∃ i j m t r run c, n = copyIndex modules i j ∧ s = c.script ∧
      Copied r m t (copyStart modules i j) run c ∧ (e.toImage debug).StandsFor n s c.code := by
  have hlt : n < (allScripts modules).length := by
    have hn := (List.getElem?_eq_some_iff.mp hs).1
    rw [(merged_of_mergeAll sound_empty h).scripts] at hn
    exact Nat.zero_add (allScripts modules).length ▸ hn
  obtain ⟨i, m, j, t, hm, ht, rfl⟩ := exists_copyIndex hlt
  obtain ⟨b, a, p, cs, hstep⟩ := exists_step h hm
  obtain ⟨c, run, -, hcopied, hstands⟩ := hstep.copy debug ht
  have hat : e.scripts[copyIndex modules i j]? = some c.script := hstands.scriptAt
  rw [hs, Option.some.injEq] at hat
  subst hat
  exact ⟨i, j, m, t, p.relocation, run, c, rfl, rfl, hcopied, hstands⟩

/-- The address of a script is where its run begins, or the last word when that is past it. -/
theorem script_address (h : mergeAll share total {} modules = .ok e) {n : Nat} {s : Script}
    (hs : e.scripts[n]? = some s) :
    s.address = Word.saturate (pieceStart id (runs e.code) n) := by
  obtain ⟨i, j, m, t, r, run, c, rfl, rfl, hcopied, -⟩ := exists_copied h false hs
  rw [(merged_of_mergeAll sound_empty h).pieceStart_runs]
  exact hcopied.address

/-- While the code fits words, a script begins where its run does. -/
theorem script_run (h : mergeAll share total {} modules = .ok e)
    (hsmall : e.code.length < 0x100000000) (debug : Bool) {n : Nat} {s : Script}
    (hs : e.scripts[n]? = some s) :
    s.address.toNat = pieceStart id (runs e.code) n ∧
      ∃ run, (runs e.code)[n]? = some run ∧ (e.toImage debug).scriptCode? s = some run := by
  have hmerged := merged_of_mergeAll sound_empty h
  obtain ⟨i, j, m, t, r, run, c, rfl, rfl, hcopied, hstands⟩ := exists_copied h debug hs
  refine ⟨?_, c.code, hstands.runAt, hstands.scriptCode hsmall⟩
  rw [hmerged.pieceStart_runs]
  exact (hmerged.address_toNat hsmall hcopied hstands).1

end Draft

/-! ### Where an instruction comes from -/

/-- An instruction of a script of a module. -/
structure Origin where
  module : ObjectModule
  script : Script
  run : List Instruction
  position : Nat
  instruction : Instruction

/-- The instruction is marked as the push of a text offset; positions count up to the last word. -/
def Origin.Marked (o : Origin) : Prop :=
  o.module.PushesText o.script (Word.saturate o.position).toNat o.instruction

/-- The instruction is one of script `j` of module `i`, and its copy stands at `pc`. -/
structure Origin.At (o : Origin) (modules : List ObjectModule) (i j pc : Nat) : Prop where
  module : modules[i]? = some o.module
  script : o.module.image.scripts[j]? = some o.script
  closed : o.module.image.scriptCode? o.script = some o.run
  instruction : o.run[o.position]? = some o.instruction
  pc : pc = copyStart modules i j + o.position

theorem copyIndex_lt {modules : List ObjectModule} {i j : Nat} {m : ObjectModule}
    (hm : modules[i]? = some m) (hj : j < m.image.scripts.length) :
    copyIndex modules i j < (allScripts modules).length := by
  have hpiece := pieceStart_add_length_le (f := fun m : ObjectModule => m.image.scripts) hm
  change (allScripts (modules.take i)).length + _ ≤ (allScripts modules).length at hpiece
  rw [copyIndex]
  omega

/-- Modules behind others leave the start of a copy. -/
theorem copyStart_append {modules : List ObjectModule} {i j : Nat} {m : ObjectModule}
    (hm : modules[i]? = some m) (hj : j < m.image.scripts.length) (rest : List ObjectModule) :
    copyStart (modules ++ rest) i j = copyStart modules i j := by
  have hi := (List.getElem?_eq_some_iff.mp hm).1
  have hindex : copyIndex (modules ++ rest) i j = copyIndex modules i j := by
    rw [copyIndex, copyIndex, List.take_append_of_le_length hi.le]
  have hlt := copyIndex_lt hm hj
  have hruns : allRuns (modules ++ rest) = allRuns modules ++ allRuns rest := List.flatMap_append
  rw [copyStart, hindex, hruns, pieceStart_append_left _ _ (by rw [allRuns_length]; exact hlt.le)]
  rfl

theorem Origin.At.append {o : Origin} {modules : List ObjectModule} {i j pc : Nat}
    (h : o.At modules i j pc) (rest : List ObjectModule) : o.At (modules ++ rest) i j pc := by
  have hi := (List.getElem?_eq_some_iff.mp h.module).1
  have hj := (List.getElem?_eq_some_iff.mp h.script).1
  refine ⟨by rw [List.getElem?_append_left hi, h.module], h.script, h.closed, h.instruction, ?_⟩
  rw [copyStart_append h.module hj]
  exact h.pc

theorem Origin.At.of_append {o : Origin} {modules rest : List ObjectModule} {i j pc : Nat}
    (h : o.At (modules ++ rest) i j pc) (hi : i < modules.length) : o.At modules i j pc := by
  have hm := h.module
  rw [List.getElem?_append_left hi] at hm
  have hj := (List.getElem?_eq_some_iff.mp h.script).1
  refine ⟨hm, h.script, h.closed, h.instruction, ?_⟩
  rw [← copyStart_append hm hj rest]
  exact h.pc

namespace Draft

/-- The copy that stands at a position. -/
theorem copy_of_origin (h : mergeAll share total {} modules = .ok e) {o : Origin} {j pc : Nat}
    (ho : o.At modules i j pc) :
    ∃ b a p cs c, Step share total modules e i o.module b a p cs ∧
      Copied p.relocation o.module o.script (copyStart modules i j) o.run c ∧
        e.code[pc]? = c.code[o.position]? := by
  have hmerged := merged_of_mergeAll sound_empty h
  obtain ⟨b, a, p, cs, hstep⟩ := exists_step h ho.module
  obtain ⟨c, run, -, hcopied, hstands⟩ := hstep.copy false ho.script
  have hclosed := hcopied.closed
  rw [ho.closed, Option.some.injEq] at hclosed
  subst hclosed
  have hlt := (List.getElem?_eq_some_iff.mp ho.instruction).1
  rw [← Relocation.moveRun_length hcopied.moved, ← CopiedScript.code_length] at hlt
  have hat := (hmerged.sound.toImage false).code_at hstands.runAt hlt
  change e.code[pieceStart id (runs e.code) _ + _]? = _ at hat
  rw [hmerged.pieceStart_runs] at hat
  exact ⟨b, a, p, cs, c, hstep, hcopied, ho.pc ▸ hat⟩

/-- Every run of the code is the copy of a script. -/
theorem exists_copy_of_run (h : mergeAll share total {} modules = .ok e) {n : Nat}
    {run' : List Instruction} (hn : (runs e.code)[n]? = some run') :
    ∃ i j m b a p cs s run c, Step share total modules e i m b a p cs ∧
      m.image.scripts[j]? = some s ∧ Copied p.relocation m s (copyStart modules i j) run c ∧
      n = copyIndex modules i j ∧ run' = c.code := by
  have hmerged := merged_of_mergeAll sound_empty h
  have hlt : n < (allScripts modules).length := by
    have hcount := (List.getElem?_eq_some_iff.mp hn).1
    rw [hmerged.sound.count, hmerged.scripts] at hcount
    exact Nat.zero_add (allScripts modules).length ▸ hcount
  obtain ⟨i, m, j, s, hm, hs, rfl⟩ := exists_copyIndex hlt
  obtain ⟨b, a, p, cs, hstep⟩ := exists_step h hm
  obtain ⟨c, run, -, hcopied, hstands⟩ := hstep.copy false hs
  have hrun : some run' = some c.code := hn.symm.trans hstands.runAt
  exact ⟨i, j, m, b, a, p, cs, s, run, c, hstep, hs, hcopied, rfl, Option.some.inj hrun⟩

/-- Every position of the code is that of a copy. -/
theorem exists_origin (h : mergeAll share total {} modules = .ok e) {pc : Nat}
    (hpc : pc < e.code.length) : ∃ (o : Origin) (i j : Nat), o.At modules i j pc := by
  have hmerged := merged_of_mergeAll sound_empty h
  have htiled : (runs e.code).flatMap id = e.code := by
    rw [List.flatMap_id, hmerged.sound.tiled]
  have hat : ((runs e.code).flatMap id)[pc]? = some e.code[pc] := by
    rw [htiled, List.getElem?_eq_getElem hpc]
  obtain ⟨n, run', k, hn, hk, rfl⟩ := exists_piece hat
  obtain ⟨i, j, m, b, a, p, cs, s, run, c, hstep, hs, hcopied, rfl, rfl⟩ :=
    exists_copy_of_run h hn
  have hk := (List.getElem?_eq_some_iff.mp hk).1
  rw [id, CopiedScript.code_length, Relocation.moveRun_length hcopied.moved] at hk
  exact ⟨⟨m, s, run, k, run[k]⟩, i, j, hstep.module, hs, hcopied.closed,
    List.getElem?_eq_getElem hk, by rw [hmerged.pieceStart_runs]; rfl⟩

end Draft

/-- The code of a link is laid out script after script. The scripts of the image are those of the
modules in order, numbered from 1, and their runs tile the code. Each run is copied instruction by
instruction, and each instruction keeps what it is and where it leads. -/
theorem link_code_layout {options : LinkOptions} {modules : List ObjectModule} {linked : Linked}
    (h : link options modules = .ok linked) (hsmall : linked.image.code.length < 0x100000000) :
    linked.image.scripts.map Script.head = (allScripts modules).map Script.head ∧
    (∀ n s', linked.image.scripts[n]? = some s' → s'.id.toNat = n + 1) ∧
    linked.image.TiledFrom 0 linked.image.scripts ∧
    ∀ (i : Nat) (m : ObjectModule) (j : Nat) (s : Script), modules[i]? = some m →
      m.image.scripts[j]? = some s → ∃ (run : List Instruction) (s' : Script)
        (run' : List Instruction), m.image.scriptCode? s = some run ∧
          linked.image.scripts[copyIndex modules i j]? = some s' ∧
          linked.image.scriptCode? s' = some run' ∧ run'.length = run.length ∧
          ∀ (k : Nat) (ins : Instruction), run[k]? = some ins →
            ∃ ins', run'[k]? = some ins' ∧ CodeKept modules i m s s' run k ins ins' := by
  obtain ⟨total, e, -, he, rfl⟩ := link_eq_ok_iff.mp h
  have hmerged := Draft.merged_of_mergeAll Draft.sound_empty he
  have hsound := hmerged.sound
  change e.code.length < _ at hsmall
  refine ⟨hmerged.heads, hsound.numbered, ?_, ?_⟩
  · exact Image.tiledFrom_drop (n := 0) (runs e.code) hsound.tiled hsound.count
      (fun n s hs => Draft.script_run he hsmall options.debugMetadata hs) (Nat.zero_le _)
  · intro i m j s hm hs
    obtain ⟨b, a, p, cs, hstep⟩ := Draft.exists_step he hm
    obtain ⟨c, run, -, hcopied, hstands⟩ := hstep.copy options.debugMetadata hs
    have hinside := (hmerged.address_toNat hsmall hcopied hstands).2
    have hlength : c.code.length = run.length := by
      rw [CopiedScript.code_length, Relocation.moveRun_length hcopied.moved]
    refine ⟨run, c.script, c.code, hcopied.closed, hstands.scriptAt, hstands.scriptCode hsmall,
      hlength, ?_⟩
    intro k ins hins
    have hk := (List.getElem?_eq_some_iff.mp hins).1
    exact hstep.codeKept hcopied (by omega) hins

namespace Sample

/-- Waits a moment. -/
def pauser : ObjectModule where
  name := "pauser"
  image := {
    scripts := [{ main with name := "pause", boundary := 0, locals := [] }]
    code := [.sys 5, .endRun] }

/-- Calls a script of its own and an imported one over and over. -/
def caller : ObjectModule where
  name := "caller"
  image := {
    scripts := [{ main with boundary := 0, locals := [] },
      { main with id := 2, name := "step", boundary := 0, locals := [], address := 4 }]
    code := [.call (.internal 2), .call (.external 0), .jump .jmp 0, .endRun, .sys 7, .endRun] }
  importedScripts := [⟨"pause", 0⟩]

theorem exists_linked_calls :
    ∃ linked, link {} [pauser, caller] = .ok linked ∧ linked.image.code.length = 8 :=
  exists_ok (by decide +kernel)

/-- Behind another script the calls and the jump lead to the copies. -/
theorem code_layout : ∃ linked, link {} [pauser, caller] = .ok linked ∧
    linked.image.TiledFrom 0 linked.image.scripts ∧
      ∃ (s' : Script) (run' : List Instruction), linked.image.scripts[1]? = some s' ∧
        linked.image.scriptCode? s' = some run' ∧ run'.length = 4 ∧
        (∃ ins id, run'[0]? = some ins ∧ ins.operand = .script (.internal id) ∧ id.toNat = 3) ∧
        (∃ ins id, run'[1]? = some ins ∧ ins.operand = .script (.internal id) ∧ id.toNat = 1) ∧
        ∃ ins a, run'[2]? = some ins ∧ ins.operand = .address a ∧
          a.toNat = s'.address.toNat := by
  obtain ⟨linked, h, hlength⟩ := exists_linked_calls
  obtain ⟨-, -, htiled, hall⟩ := link_code_layout h (by rw [hlength]; decide)
  obtain ⟨run, s', run', hrun, hs', hrun', hlength', hkept⟩ := hall 1 caller 0 _ rfl rfl
  have hclosed : caller.image.scriptCode? { main with boundary := 0, locals := [] } =
      some (caller.image.code.take 4) := rfl
  rw [hclosed, Option.some.injEq] at hrun
  subst hrun
  refine ⟨linked, h, htiled, s', run', hs', hrun', hlength', ?_, ?_, ?_⟩
  · obtain ⟨ins, hins, kept⟩ := hkept 0 _ rfl
    obtain ⟨j, t, id, ht, htid, hoperand, hid⟩ := kept.call 2 rfl
    refine ⟨ins, id, hins, hoperand, ?_⟩
    have hj : j = 1 := by
      have hlt := (List.getElem?_eq_some_iff.mp ht).1
      change j < 2 at hlt
      interval_cases j
      · cases ht
        cases htid
      · rfl
    subst hj
    exact hid
  · obtain ⟨ins, hins, kept⟩ := hkept 1 _ rfl
    obtain ⟨v, n, t, id, hv, hn, -, -, hoperand, hid⟩ := kept.importedCall 0 rfl
    cases hv
    cases hn
    exact ⟨ins, id, hins, hoperand, hid⟩
  · obtain ⟨ins, hins, kept⟩ := hkept 2 _ rfl
    obtain ⟨a, hoperand, ha⟩ := kept.jump 0 rfl
    refine ⟨ins, a, hins, hoperand, ?_⟩
    simp only [main, UInt32.toNat_zero] at ha
    omega

end Sample

end ScriptImage
