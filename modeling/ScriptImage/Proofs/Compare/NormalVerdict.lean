import ScriptImage.Proofs.Compare.Operands
import ScriptImage.Proofs.Compare.Parts

/-!
What normal mode finds equal. Nothing is assumed of the images: ids may lead nowhere, runs may be
open and names may be taken twice. Whenever the verdict is that two images are equal, what the first
has under a name the second has too, and scripts of one name do the same instruction by instruction.
-/

namespace ScriptImage

theorem GlobalTable.mem_names_of_find? {t : GlobalTable} {name : String}
    {found : UInt32 × GlobalVar} (h : t.find? name = .ok (some found)) : name ∈ t.names := by
  unfold find? at h
  split at h
  · cases h
  · rename_i i hi
    obtain ⟨hlt, hname, -⟩ := List.findIdx?_eq_some_iff_getElem.mp hi
    exact List.mem_map.mpr ⟨_, List.getElem_mem hlt, beq_iff_eq.mp hname⟩

/-- Scripts of one signature whose runs end after the same number of instructions, each of which
agrees with the one across from it. An operand is read in the code, where what follows the run may
tell that a float is taken by a reference. -/
structure ScriptPair.SameMeaning (p : ScriptPair) (run run' : List Instruction) : Prop where
  params : p.a.params = p.b.params
  locals : p.a.locals = p.b.locals
  closedA : p.imageA.scriptCode? p.a = some run
  closedB : p.imageB.scriptCode? p.b = some run'
  length : run.length = run'.length
  instructions : ∀ k ia ib, run[k]? = some ia → run'[k]? = some ib → k + 1 < run.length →
    ia.opcode = ib.opcode ∧ ia.mode = ib.mode ∧ ia.type = ib.type ∧
      p.OperandsAgree (p.imageA.code.drop (p.a.address.toNat + k))
        (p.imageB.code.drop (p.b.address.toNat + k)) ia ib

/-- Images of which the second has all that the first has, under the same names. -/
structure Image.SameMeaning (a b : Image) : Prop where
  version : a.version = b.version
  globals : a.globals.names ⊆ b.globals.names
  count : a.scripts.length = b.scripts.length
  resolvedA : ∀ r ∈ a.autostart, ∃ name, a.scriptName? r = some name
  resolvedB : ∀ r ∈ b.autostart, ∃ name, b.scriptName? r = some name
  autostart : ∀ name, a.Starts name ↔ b.Starts name
  scripts : ∀ s ∈ a.scripts, ∃ t run run', b.scriptByName? s.name = some t ∧
    ScriptPair.SameMeaning ⟨a, b, s, t⟩ run run'

namespace ScriptPair

variable {p : ScriptPair} {mode : CompareMode} {run run' : List Instruction}

theorem Matches.sameMeaning (hmode : mode ≠ .strict) (hhead : p.headerFindings mode = [])
    (h : p.Matches mode (p.imageA.code.drop p.a.address.toNat)
      (p.imageB.code.drop p.b.address.toNat) run run') : p.SameMeaning run run' := by
  obtain ⟨hparams, hlocals⟩ := (headerFindings_eq_nil_iff hmode).mp hhead
  refine ⟨hparams, hlocals, h.closedA, h.closedB, h.length, ?_⟩
  intro k ia ib hia hib hlt
  have hne := ne_endRun_of_lt (closedRun?_self h.closedA) hia hlt
  obtain ⟨ib', hib', hheadA, hheadB, hstep⟩ := h.exists_step hia hne
  cases hib.symm.trans hib'
  rw [step_meaning_iff hmode hheadA hheadB, List.drop_drop, List.drop_drop] at hstep
  exact hstep

end ScriptPair

/-- Images that normal mode finds equal mean the same. -/
theorem compare_normal_sound {o : CompareOptions} {a b : Image} {c : Comparison}
    (hmode : o.mode = .normal) (hall : o.scripts = none) (hc : compareImages o a b = .ok c)
    (hequal : c.equal = true) : a.SameMeaning b := by
  have haccepts := CompareOptions.accepts_of_equal hc hequal
  have hstrict : o.mode ≠ .strict := by simp [hmode]
  have hglobals := (CompareOptions.globalFindings_iff hstrict).mp haccepts.globals
  obtain ⟨hresolvedA, hresolvedB, hstarts⟩ :=
    (CompareOptions.autostartFindings_iff hstrict).mp haccepts.autostart
  have hcount := CompareOptions.countFindings_eq_nil_iff.mp haccepts.count
  refine ⟨haccepts.version, ?_, hcount, hresolvedA, hresolvedB, hstarts, ?_⟩
  · intro name hname
    obtain ⟨found, hfound⟩ := hglobals name hname
    exact GlobalTable.mem_names_of_find? hfound
  · intro s hs
    obtain ⟨t, run, run', ht, hhead, hmatches⟩ := haccepts.exists_matches (by simp [hmode]) hs
      (CompareOptions.includes_of_none hall s.name)
    exact ⟨t, run, run', ht, hmatches.sameMeaning hstrict hhead⟩

namespace Sample

def asker : Script where
  id := 1
  name := "asker"
  params := 0
  boundary := 2
  locals := []
  address := 0
  source := "asker.txt"

def answerer : Script where
  id := 2
  name := "answerer"
  params := 0
  boundary := 2
  locals := ["copy"]
  address := 6
  source := "answerer.txt"

/-- The asker writes `x` through a reference and calls the other script until that gives zero. -/
def askerFirst : Image where
  globals := { entries := [("x", ⟨"x", 1⟩), ("y", ⟨"y", 1⟩)], starts := [1, 2], slots := 2 }
  scripts := [asker, answerer]
  code := [.pushVarId (.internal 1), .pushInt 7, .byReference .store, .call (.internal 2),
    .jump .jz 3, .endRun, .load (.internal 2), .store (.internal 3), .endRun]
  autostart := [.internal 1]

theorem askerFirst_declared : askerFirst.globals.Declared :=
  .declare (.declare .empty (v := ⟨"x", 1⟩) rfl) (v := ⟨"y", 1⟩) rfl

/-- The same scripts and variables in another order. -/
def answererFirst : Image where
  globals := { entries := [("y", ⟨"y", 1⟩), ("x", ⟨"x", 1⟩)], starts := [1, 2], slots := 2 }
  scripts := [{ answerer with id := 1, address := 0 }, { asker with id := 2, address := 3 }]
  code := [.load (.internal 1), .store (.internal 3), .endRun, .pushVarId (.internal 2),
    .pushInt 7, .byReference .store, .call (.internal 1), .jump .jz 6, .endRun]
  autostart := [.internal 2]

theorem reordered_sameMeaning : ∃ c, compareImages {} askerFirst answererFirst = .ok c ∧
    c.equal = true ∧ askerFirst.SameMeaning answererFirst := by
  obtain ⟨c, hc, hequal⟩ : ∃ c, compareImages {} askerFirst answererFirst = .ok c ∧
      c.equal = true := exists_ok (by decide +kernel)
  exact ⟨c, hc, hequal, compare_normal_sound rfl rfl hc hequal⟩

end Sample

end ScriptImage
