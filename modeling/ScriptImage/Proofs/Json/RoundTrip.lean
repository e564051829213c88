import ScriptImage.ObjectModule.Codec
import ScriptImage.ObjectModule.Json
import ScriptImage.Proofs.Distinct
import ScriptImage.Proofs.Json.Decoding

/-!
Reading what is written as JSON. Every field of an image or a module is stored as it stands, so
that both are read back from their texts whether or not their derived tables are consistent.
-/

namespace ScriptImage

open Json

/-! ### Names -/

@[simp] theorem Opcode.ofName?_name (o : Opcode) : ofName? o.name = some o := by
  cases o <;> rfl

@[simp] theorem Mode.ofName?_name (m : Mode) : ofName? m.name = some m := by
  cases m <;> rfl

@[simp] theorem DataType.ofName?_name (t : DataType) : ofName? t.name = some t := by
  cases t <;> rfl

/-! ### Code -/

theorem SymbolRef.stores (r : SymbolRef) : Stores ofJson? r.toJson r := by
  cases r with
  | internal id => exact (stores_word id).variant SymbolRef.internal fun _ => rfl
  | external p => exact (stores_word p).variant SymbolRef.external fun _ => rfl

namespace Operand

/-- The float the operand holds. -/
def float? : Operand → Option Binary32
  | .float x => some x
  | _ => Option.none

theorem stores {o : Operand} (h : ∀ x ∈ o.float?, FloatReadsBack x) :
    Stores ofJson? o.toJson o := by
  cases o with
  | none => exact ⟨.str _, rfl⟩
  | int v => exact (stores_signed v).variant Operand.int fun _ => rfl
  | float x => exact (stores_float (h x rfl)).variant Operand.float fun _ => rfl
  | bool b => exact (stores_bool b).variant Operand.bool fun _ => rfl
  | address a => exact (stores_word a).variant Operand.address fun _ => rfl
  | script r => exact r.stores.variant Operand.script fun _ => rfl
  | «variable» r => exact r.stores.variant Operand.variable fun _ => rfl

end Operand

theorem Instruction.stores {i : Instruction} (h : ∀ x ∈ i.operand.float?, FloatReadsBack x) :
    Stores ofJson? i.toJson i := by
  have hoperand := Operand.stores h
  have hline := stores_word i.line
  have hopcode : (Json.str i.opcode.name).unit? = some i.opcode.name := rfl
  have hmode : (Json.str i.mode.name).unit? = some i.mode.name := rfl
  have htype : (Json.str i.type.name).unit? = some i.type.name := rfl
  refine .of_fields (fun _ => rfl) rfl (by decide)
    ⟨.str _, .str _, .str _, hoperand.wellFormed, hline.wellFormed⟩ ?_
  simp only [List.map_cons, List.map_nil, Option.bind_eq_bind, Option.bind_some, hopcode, hmode,
    htype, Opcode.ofName?_name, Mode.ofName?_name, DataType.ofName?_name, hoperand.reads,
    hline.reads]
  rfl

/-! ### Tables -/

theorem GlobalVar.stores (v : GlobalVar) : Stores ofJson? v.toJson v := by
  have hname := stores_string v.name
  have hsize := stores_word v.size
  refine .of_fields (fun _ => rfl) rfl (by decide) ⟨hname.wellFormed, hsize.wellFormed⟩ ?_
  simp only [List.map_cons, List.map_nil, Option.bind_eq_bind, Option.bind_some, hname.reads,
    hsize.reads]
  rfl

theorem GlobalTable.toJson_eq (t : GlobalTable) :
    t.toJson = .record [("vars", .record (t.entries.map fun e => (e.1, e.2.toJson))),
      ("starts", .array (t.starts.map fun s => .nat s.toNat)), ("slots", .nat t.slots.toNat)] := rfl

/-- The names under which variables are found differ; all else may be inconsistent. -/
theorem GlobalTable.stores {t : GlobalTable} (h : t.names.Nodup) : Stores ofJson? t.toJson t := by
  rw [toJson_eq]
  have hentries := stores_map h fun e _ => e.2.stores
  have hstarts := stores_list fun w (_ : w ∈ t.starts) => stores_word w
  have hslots := stores_word t.slots
  refine .of_fields (fun _ => rfl) rfl (by decide)
    ⟨hentries.wellFormed, hstarts.wellFormed, hslots.wellFormed⟩ ?_
  simp only [List.map_cons, List.map_nil, Option.bind_eq_bind, Option.bind_some, hentries.reads,
    hstarts.reads, hslots.reads]
  rfl

namespace DataSection

theorem stores_entry (e : TextEntry) : Stores entryOfJson? (entryToJson e) e := by
  have hoffset := stores_word e.offset
  have hlength := stores_word e.length
  refine .of_fields (fun _ => rfl) rfl (by decide) ⟨hoffset.wellFormed, hlength.wellFormed⟩ ?_
  simp only [List.map_cons, List.map_nil, Option.bind_eq_bind, Option.bind_some, hoffset.reads,
    hlength.reads]
  rfl

theorem stores (d : DataSection) : Stores ofJson? d.toJson d := by
  have hbytes := stores_list fun b (_ : b ∈ d.bytes) => stores_byte b
  have hentries := stores_list fun e (_ : e ∈ d.entries) => stores_entry e
  refine .of_fields (fun _ => rfl) rfl (by decide) ⟨hbytes.wellFormed, hentries.wellFormed⟩ ?_
  simp only [List.map_cons, List.map_nil, Option.bind_eq_bind, Option.bind_some, hbytes.reads,
    hentries.reads]
  rfl

end DataSection

theorem Script.stores (s : Script) : Stores ofJson? s.toJson s := by
  have hword (w : UInt32) := (stores_word w).reads
  have htext (t : String) := (stores_string t).reads
  have hlocals := stores_list fun n (_ : n ∈ s.locals) => stores_string n
  refine .of_fields (fun _ => rfl) rfl (by decide)
    ⟨wellFormed_int _, .str _, wellFormed_int _, wellFormed_int _, hlocals.wellFormed,
      wellFormed_int _, .str _⟩ ?_
  simp only [List.map_cons, List.map_nil, Option.bind_eq_bind, Option.bind_some, hword, htext,
    hlocals.reads]
  rfl

namespace InitialValue

/-- The number the value holds. -/
def number? : InitialValue → Option Binary32
  | .number x => some x
  | .expression _ => none

theorem stores {v : InitialValue} (h : ∀ x ∈ v.number?, FloatReadsBack x) :
    Stores ofJson? v.toJson v := by
  cases v with
  | number x => exact (stores_float (h x rfl)).variant InitialValue.number fun _ => rfl
  | expression e => exact (stores_string e).variant InitialValue.expression fun _ => rfl

end InitialValue

theorem Initializer.stores {x : Initializer} (h : ∀ v ∈ x.value.number?, FloatReadsBack v) :
    Stores ofJson? x.toJson x := by
  have hname := stores_string x.name
  have hvalue := InitialValue.stores h
  refine .of_fields (fun _ => rfl) rfl (by decide) ⟨hname.wellFormed, hvalue.wellFormed⟩ ?_
  simp only [List.map_cons, List.map_nil, Option.bind_eq_bind, Option.bind_some, hname.reads,
    hvalue.reads]
  rfl

/-! ### Images and modules -/

namespace Image

/-- The floats of an image: those its instructions hold and those its globals start with. -/
def floats (m : Image) : List Binary32 :=
  m.code.filterMap (fun i => i.operand.float?) ++ m.inits.filterMap fun x => x.value.number?

theorem stores {m : Image} (hnames : m.globals.names.Nodup)
    (hfloats : ∀ x ∈ m.floats, FloatReadsBack x) : Stores ofJson? m.toJson m := by
  have hscripts := stores_list fun s (_ : s ∈ m.scripts) => s.stores
  have hcode := stores_list fun i (hi : i ∈ m.code) => Instruction.stores fun x hx =>
    hfloats x (List.mem_append_left _ (List.mem_filterMap.mpr ⟨i, hi, hx⟩))
  have hautostart := stores_list fun r (_ : r ∈ m.autostart) => r.stores
  have hinits := stores_list fun e (he : e ∈ m.inits) => Initializer.stores fun x hx =>
    hfloats x (List.mem_append_right _ (List.mem_filterMap.mpr ⟨e, he, hx⟩))
  have hglobals := GlobalTable.stores hnames
  have hdata := m.data.stores
  have hversion := stores_word m.version
  refine .of_fields (fun _ => rfl) rfl (by decide)
    ⟨hversion.wellFormed, hglobals.wellFormed, hscripts.wellFormed, hcode.wellFormed,
      hdata.wellFormed, hautostart.wellFormed, hinits.wellFormed⟩ ?_
  simp only [List.map_cons, List.map_nil, Option.bind_eq_bind, Option.bind_some, hversion.reads,
    hglobals.reads, hscripts.reads, hcode.reads, hdata.reads, hautostart.reads, hinits.reads]
  rfl

end Image

theorem ImportedVar.stores (v : ImportedVar) : Stores ofJson? v.toJson v := by
  have hname := stores_string v.name
  have hindex := stores_word v.index
  refine .of_fields (fun _ => rfl) rfl (by decide) ⟨hname.wellFormed, hindex.wellFormed⟩ ?_
  simp only [List.map_cons, List.map_nil, Option.bind_eq_bind, Option.bind_some, hname.reads,
    hindex.reads]
  rfl

theorem ImportedScript.stores (s : ImportedScript) : Stores ofJson? s.toJson s := by
  have hname := stores_string s.name
  have hparams := stores_word s.params
  refine .of_fields (fun _ => rfl) rfl (by decide) ⟨hname.wellFormed, hparams.wellFormed⟩ ?_
  simp only [List.map_cons, List.map_nil, Option.bind_eq_bind, Option.bind_some, hname.reads,
    hparams.reads]
  rfl

theorem ObjectModule.stores {m : ObjectModule}
    (himage : Stores Image.ofJson? m.image.toJson m.image)
    (hvars : m.importedVars.Nodup) (hscripts : m.importedScripts.Nodup)
    (hpushes : m.textPushes.Pairwise (· < ·)) : Stores ofJson? m.toJson m := by
  have hname := stores_string m.name
  have hv := stores_list fun v (_ : v ∈ m.importedVars) => v.stores
  have hs := stores_list fun s (_ : s ∈ m.importedScripts) => s.stores
  have hp := stores_list fun w (_ : w ∈ m.textPushes) => stores_word w
  refine .of_fields (fun _ => rfl) rfl (by decide)
    ⟨hname.wellFormed, himage.wellFormed, hv.wellFormed, hs.wellFormed, hp.wellFormed⟩ ?_
  simp only [List.map_cons, List.map_nil, Option.bind_eq_bind, Option.bind_some, hname.reads,
    himage.reads, hv.reads, hs.reads, hp.reads, Option.map_eq_map, Option.map_some,
    distinct_of_nodup hvars, distinct_of_nodup hscripts, ascending_of_pairwise hpushes]
  rfl

namespace Sample

/-- An image whose starts, slots and index of texts agree with nothing, and whose names need
escapes. -/
def unsorted : Image :=
  { globals :=
      { entries := [("a", ⟨"b", 0⟩), ("say \x22hi\x22\n", ⟨"\\ é", 3⟩)]
        starts := [9, 4, 4]
        slots := 1 }
    scripts := [⟨5, "tab\t", 1, 2, ["p", "\x01"], 77, "main.c"⟩]
    code := [.pushFloat ⟨0x3DCCCCCD⟩, .pushInt (-3), .store (.external 2),
      .pushFloat ⟨0x80000000⟩, .jump .jz 1, .endRun]
    data := { bytes := [65, 0, 200], entries := [⟨2, 9⟩, ⟨0, 1⟩] }
    autostart := [.internal 5, .external 0]
    inits := [⟨"Null", .number ⟨0x7F7FFFFF⟩⟩, ⟨"x", .expression "1 + \x22y\x22"⟩] }

def unsortedModule : ObjectModule :=
  { name := "m"
    image := unsorted
    importedVars := [⟨"v", 1⟩, ⟨"v", 0⟩]
    importedScripts := [⟨"s", 2⟩]
    textPushes := [0, 4] }

end Sample

end ScriptImage
