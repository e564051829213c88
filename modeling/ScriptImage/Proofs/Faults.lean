import ScriptImage.Compare.Comparison
import ScriptImage.Proofs.Link.Faults
import ScriptImage.Proofs.Link.InPlace
import ScriptImage.Proofs.Link.Overflows
import ScriptImage.Proofs.Link.Storage

/-!
Files that are read. Addresses, boundaries, ids and operands of a file are any words, yet nothing
that is done with them leaves a table or a word, as long as words count the code and the scripts
that a link copies: what reading guarantees of globals and texts, and linking of the code so far,
bounds each index, slice, sum and difference. No file has to keep to these two counts.
-/

namespace ScriptImage

/-- Declaring a variable sums words only: those of its id and of the slots behind it. -/
theorem GlobalTable.declare_sums {t t' : GlobalTable} {v : GlobalVar} {id : UInt32}
    (h : t.declare v = .ok (id, t')) :
    Word.add t.slots 1 = .ok id ∧ Word.add t.slots v.span = .ok t'.slots := by
  obtain ⟨-, hslots, rfl, rfl⟩ := declare_ok h
  have hmax : maxSlot = 0x7FFFFFFF := rfl
  have hspan := v.span_pos
  rw [Word.add, Word.add, if_pos (by rw [UInt32.toNat_one]; omega), if_pos (by omega)]
  exact ⟨rfl, rfl⟩

/-! ### Links -/

/-- The scripts of each module of a link are copied in place to where they are moved to. -/
theorem Draft.appendScripts_of_mergeAll {share : Bool} {total : UInt32} {d : Draft}
    {modules earlier rest : List ObjectModule} {m : ObjectModule}
    (hcode : copiedLength modules < 0x100000000) (hsplit : modules = earlier ++ m :: rest)
    (hd : mergeAll share total {} earlier = .ok d) (r : Relocation) (first : UInt32) :
    appendScripts r m first 0 d.code m.image.scripts =
      (fun cs => d.code ++ cs.flatMap CopiedScript.code) <$>
        copyScripts r m first 0 d.code.length m.image.scripts := by
  have hlength := (merged_of_mergeAll sound_empty hd).code_length
  rw [hsplit, ← List.singleton_append, copiedLength_append, copiedLength_append,
    copiedLength_singleton] at hcode
  exact appendScripts_eq (by omega)

/-! ### Files -/

variable {files : List (List UInt8)} {modules : List ObjectModule} {fileA fileB : List UInt8}
  {a b : Image}

/-- Files that were read keep inside their tables and their words. Scripts may share code, so what a
link has to address is the code that they copy. While words count that, and also the scripts and an
id behind them, no link faults: all other indices, sums and differences have bounds in the files.
Overwriting floats in place reaches only code that is already copied, and declaring a global sums
words only. Two images, whether they are valid or not, are checked and compared with every index and
difference checked as well, and nothing changes. -/
theorem safe_of_read (hread : files.mapM ObjectModule.decode = .ok modules)
    (hcode : copiedLength modules < 0x100000000)
    (hscripts : (allScripts modules).length < 0xFFFFFFFF) (ha : Image.decode fileA = .ok a)
    (hb : Image.decode fileB = .ok b) :
    (∀ options f, link options modules ≠ .error (.fault f)) ∧
    (∀ share total earlier m rest d, modules = earlier ++ m :: rest →
      mergeAll share total {} earlier = .ok d → ∀ r first,
        Draft.appendScripts r m first 0 d.code m.image.scripts =
          (fun cs => d.code ++ cs.flatMap CopiedScript.code) <$>
            Draft.copyScripts r m first 0 d.code.length m.image.scripts) ∧
    (∀ (t t' : GlobalTable) v id, t.declare v = .ok (id, t') →
      Word.add t.slots 1 = .ok id ∧ Word.add t.slots v.span = .ok t'.slots) ∧
    a.defectChecked = .ok a.defect? ∧
    ∀ options, (∃ c, compareImages options a b = .ok c) ∧ ∀ s t,
      ScriptPair.compareFromChecked ⟨a, b, s, t⟩ options.mode s.address.toNat t.address.toNat =
        ScriptPair.compareCode ⟨a, b, s, t⟩ options.mode := by
  have hmodules : ∀ m ∈ modules, m.Storable := by
    intro m hm
    obtain ⟨i, hi⟩ := List.mem_iff_getElem?.mp hm
    obtain ⟨bs, -, hbs⟩ := mapM_source hread hi
    exact ObjectModule.storable_of_decode hbs
  have hstoredA := Image.storable_of_decode ha
  have hstoredB := Image.storable_of_decode hb
  have hglobalsA := hstoredA.globals.declared.consistent
  have hglobalsB := hstoredB.globals.declared.consistent
  have hdataA : a.data.Consistent := hstoredA.data ▸ DataSection.consistent_ofBytes hstoredA.bytes
  have hdataB : b.data.Consistent := hstoredB.data ▸ DataSection.consistent_ofBytes hstoredB.bytes
  refine ⟨fun options f hfault => ?_, fun _ _ _ _ _ _ => Draft.appendScripts_of_mergeAll hcode,
    fun _ _ _ _ => GlobalTable.declare_sums, Image.defectChecked_eq hglobalsA, fun options => ?_⟩
  · obtain ⟨-, hlong | hmany⟩ := link_faults hmodules hfault
    · omega
    · omega
  · exact ⟨CompareOptions.exists_compareImages hdataA hdataB hglobalsB,
      fun s t => ScriptPair.compareFromChecked_eq hglobalsA hglobalsB _ _ _⟩

namespace Sample

/-- The reader and the table it imports are files; as images, the reader has a defect and the table
has none. -/
theorem files_safe :
    (∀ options f, link options Sample.modules ≠ .error (.fault f)) ∧
      reader.image.defectChecked = .ok (some (.placeholder 3)) ∧
        ∃ c, compareImages {} reader.image table.image = .ok c := by
  obtain ⟨htable, hrest⟩ := List.forall_mem_cons.mp modules_storable
  have hreader := List.forall_mem_singleton.mp hrest
  obtain ⟨hlink, -, -, hdefect, hcompare⟩ := safe_of_read
    (ObjectModule.mapM_decode_encode modules_storable) (by decide) (by decide)
    (Image.decode_encode_iff.mpr hreader.image) (Image.decode_encode_iff.mpr htable.image)
  refine ⟨hlink, ?_, (hcompare {}).1⟩
  rw [hdefect]
  decide +kernel

/-- Files whose instructions are counted by words, and that no link gets through. -/
structure LeavesWords (modules : List ObjectModule) : Prop where
  read : (modules.map ObjectModule.encode).mapM ObjectModule.decode = .ok modules
  code : (modules.map fun m => m.image.code.length).sum < 0x100000000
  link : ∀ options, link options modules = .error (.fault .overflow)

/-- 65536 scripts that share one run of 65537 instructions have too much code for addresses, though
few scripts. The greatest number of scripts that a file can tell has too many of them for ids once
another module follows, though less code than there are addresses. -/
theorem sums_leave_words :
    (LeavesWords [sharing 0x10000 0x10000, reader] ∧
      (allScripts [sharing 0x10000 0x10000, reader]).length < 0xFFFFFFFF) ∧
    LeavesWords [sharing 0xFFFFFFFF 0, table] ∧
      copiedLength [sharing 0xFFFFFFFF 0, table] < 0x100000000 := by
  obtain ⟨htable, hreader⟩ := List.forall_mem_cons.mp modules_storable
  have hlong : (sharing 0x10000 0x10000).Storable := sharing_storable (by decide) (by decide)
  have hcrowd : (sharing 0xFFFFFFFF 0).Storable := sharing_storable (by decide) (by decide)
  refine ⟨⟨⟨ObjectModule.mapM_decode_encode ?_, ?_, fun options => ?_⟩, ?_⟩,
    ⟨ObjectModule.mapM_decode_encode ?_, ?_, fun options => ?_⟩, ?_⟩
  · exact List.forall_mem_cons.mpr ⟨hlong, hreader⟩
  · rw [List.map_cons, sharing_code_length]
    decide
  · exact link_sharing_overflow (by decide) (by decide) (by decide) (by decide) (by decide)
  · rw [allScripts_cons, List.length_append, sharing_scripts_length]
    decide
  · exact List.forall_mem_cons.mpr ⟨hcrowd, List.forall_mem_singleton.mpr htable⟩
  · rw [List.map_cons, sharing_code_length]
    decide
  · exact link_crowd_overflow (by decide)
  · rw [← List.singleton_append, copiedLength_append, copiedLength_sharing]
    decide

end Sample

end ScriptImage
