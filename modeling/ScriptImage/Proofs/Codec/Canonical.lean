import ScriptImage.Proofs.Codec.Modules

/-!
The images and object modules that their stored form keeps. What a stored word stands for is fixed
by the operation, the mode and the data type, so an operand has to be of the variant these
prescribe, with a number that a signed word can hold. A value whose operands are such, whose tables
are built as a compiler builds them and whose lengths fit words is read back as it was written, and
no other value is.
-/

namespace ScriptImage

instance (s : String) : Decidable (TextFits s) := Nat.decLt _ _

/-! ### References and operands -/

/-- The id or the position that a reference holds. -/
def SymbolRef.index : SymbolRef → UInt32
  | .internal id => id
  | .external position => position

/-- A reference is kept up to the last signed word, whichever symbol it is to: the first
placeholder is stored as -1, the last one as the least of all signed words. -/
theorem SymbolRef.storable_iff {r : SymbolRef} : r.Storable ↔ r.index.toNat ≤ maxSlot := by
  have hmax : maxSlot = 0x7FFFFFFF := rfl
  cases r with
  | internal id => exact storable_internal_iff
  | external p =>
      have hp := p.toNat_lt
      have hencode := encode_external_toInt p
      rw [Storable, decode, if_neg (by omega), external.injEq, ← UInt32.toNat_inj,
        Word.toNat_ofNat (by split at hencode <;> omega)]
      change _ ↔ p.toNat ≤ maxSlot
      split at hencode
      · omega
      · omega

/-- The variants of operands. -/
inductive OperandVariant where
  | none
  | int
  | float
  | bool
  | address
  | script
  | variable
  deriving DecidableEq, Repr

/-- The variant that an operation takes in a mode and with a data type. -/
def Opcode.variant (o : Opcode) (m : Mode) (t : DataType) : OperandVariant :=
  match o.kind with
  | .none => .none
  | .address => .address
  | .script => .script
  | .variable =>
    match m with
    | .direct => .variable
    | .reference => .none
  | .value =>
    match t with
    | .void => .none
    | .int => .int
    | .float => .float
    | .bool => .bool
    | .var => .variable

namespace Operand

def variant : Operand → OperandVariant
  | .none => .none
  | .int _ => .int
  | .float _ => .float
  | .bool _ => .bool
  | .address _ => .address
  | .script _ => .script
  | .variable _ => .variable

/-- Addresses and references that a signed word can hold. -/
def InRange : Operand → Prop
  | .address a => a.toNat ≤ maxSlot
  | .script r | .variable r => r.index.toNat ≤ maxSlot
  | _ => True

instance (op : Operand) : Decidable op.InRange := by
  cases op <;> unfold InRange <;> infer_instance

theorem ofWord?_address_iff {a : UInt32} {o : Opcode} {m : Mode} {t : DataType}
    (hk : o.kind = .address) :
    ofWord? o m t (address a).word = some (.address a) ↔ a.toNat ≤ maxSlot := by
  have hword : (address a).word.toInt = min a.toNat maxSlot := Word.toInt_saturateSigned a
  have hpos : 0 ≤ (address a).word.toInt := by omega
  have hnat := Word.toNat_toUInt32 hpos
  unfold ofWord?
  rw [hk]
  simp only
  rw [if_pos hpos, Option.some.injEq, address.injEq, ← UInt32.toNat_inj]
  omega

/-- A word always stands for an operand of the prescribed variant. -/
theorem variant_of_ofWord? {o : Opcode} {m : Mode} {t : DataType} {w : Int32} {op : Operand}
    (h : ofWord? o m t w = some op) : op.variant = o.variant m t := by
  unfold ofWord? at h
  unfold Opcode.variant
  cases hk : o.kind with
  | none =>
      rw [hk] at h
      cases h
      rfl
  | address =>
      rw [hk] at h
      simp only at h
      split at h
      · cases h
        rfl
      · cases h
  | script =>
      rw [hk] at h
      cases h
      rfl
  | «variable» =>
      rw [hk] at h
      cases m <;> cases h <;> rfl
  | value =>
      rw [hk] at h
      cases t <;> cases h <;> rfl

/-- What the prescribed variant makes of the word of an operand of that variant. -/
theorem ofWord?_word_eq_iff_of_variant {o : Opcode} {m : Mode} {t : DataType} {op : Operand}
    (h : op.variant = o.variant m t) : ofWord? o m t op.word = some op ↔ op.InRange := by
  unfold Opcode.variant at h
  cases hk : o.kind with
  | none =>
      rw [hk] at h
      cases op <;> cases h
      simp [ofWord?, hk, InRange]
  | address =>
      rw [hk] at h
      cases op <;> cases h
      exact ofWord?_address_iff hk
  | script =>
      rw [hk] at h
      cases op <;> cases h
      simp [ofWord?, hk, word, InRange, ← SymbolRef.storable_iff, SymbolRef.Storable]
  | «variable» =>
      rw [hk] at h
      cases m with
      | direct =>
          cases op <;> cases h
          simp [ofWord?, hk, word, InRange, ← SymbolRef.storable_iff, SymbolRef.Storable]
      | reference =>
          cases op <;> cases h
          simp [ofWord?, hk, InRange]
  | value =>
      rw [hk] at h
      cases t with
      | void =>
          cases op <;> cases h
          simp [ofWord?, hk, InRange]
      | int =>
          cases op <;> cases h
          simp [ofWord?, hk, word, InRange]
      | float =>
          cases op <;> cases h
          simp [ofWord?, hk, word, InRange]
      | bool =>
          cases op <;> cases h
          rename_i b
          cases b <;> simp [ofWord?, hk, word, InRange]
      | var =>
          cases op <;> cases h
          simp [ofWord?, hk, word, InRange, ← SymbolRef.storable_iff, SymbolRef.Storable]

end Operand

/-! ### Instructions, images and modules -/

namespace Instruction

/-- The operand is of the variant that the instruction prescribes, in the range of its word. -/
structure Canonical (i : Instruction) : Prop where
  variant : i.operand.variant = i.opcode.variant i.mode i.type
  inRange : i.operand.InRange

instance (i : Instruction) : Decidable i.Canonical :=
  decidable_of_iff (i.operand.variant = i.opcode.variant i.mode i.type ∧ i.operand.InRange)
    ⟨fun h => ⟨h.1, h.2⟩, fun h => ⟨h.variant, h.inRange⟩⟩

theorem storable_iff {i : Instruction} : i.Storable ↔ i.Canonical := by
  constructor
  · intro h
    have hvariant := Operand.variant_of_ofWord? h
    exact ⟨hvariant, (Operand.ofWord?_word_eq_iff_of_variant hvariant).mp h⟩
  · rintro ⟨hvariant, hrange⟩
    exact (Operand.ofWord?_word_eq_iff_of_variant hvariant).mpr hrange

end Instruction

namespace Image

/-- The image is one that declarations, well-typed instructions and the indexing of its texts
build. -/
structure Canonical (m : Image) : Prop where
  globals : m.globals.Declared
  sizes : ∀ v ∈ m.globals.vars, v.size ≠ 0
  code : ∀ i ∈ m.code, i.Canonical
  data : DataSection.ofBytes m.data.bytes = m.data
  autostart : ∀ r ∈ m.autostart, r.index.toNat ≤ maxSlot

/-- Every text and every list of the image can be counted by a word; the number of globals is
bounded by that of slots. -/
structure LengthsFit (m : Image) : Prop where
  globals : ∀ v ∈ m.globals.vars, TextFits v.name
  scripts : ListFits Script.Storable m.scripts
  code : m.code.length < 0x100000000
  bytes : m.data.bytes.length < 0x100000000
  autostart : m.autostart.length < 0x100000000
  inits : ListFits Initializer.Storable m.inits

theorem storable_iff {m : Image} : m.Storable ↔ m.Canonical ∧ m.LengthsFit := by
  constructor
  · intro h
    have hcanonical : m.Canonical :=
      { globals := h.globals.declared
        sizes := fun v hv => (h.globals.vars v hv).size
        code := fun i hi => Instruction.storable_iff.mp (h.code.all i hi)
        data := h.data
        autostart := fun r hr => SymbolRef.storable_iff.mp (h.autostart.all r hr) }
    exact ⟨hcanonical, fun v hv => (h.globals.vars v hv).name, h.scripts, h.code.length, h.bytes,
      h.autostart.length, h.inits⟩
  · rintro ⟨hcanonical, hlengths⟩
    have hglobals : m.globals.Storable :=
      ⟨hcanonical.globals, fun v hv => ⟨hlengths.globals v hv, hcanonical.sizes v hv⟩⟩
    have hcode : ListFits Instruction.Storable m.code :=
      ⟨hlengths.code, fun i hi => Instruction.storable_iff.mpr (hcanonical.code i hi)⟩
    have hautostart : ListFits SymbolRef.Storable m.autostart :=
      ⟨hlengths.autostart, fun r hr => SymbolRef.storable_iff.mpr (hcanonical.autostart r hr)⟩
    exact ⟨hglobals, hlengths.scripts, hcode, hlengths.bytes, hcanonical.data, hautostart,
      hlengths.inits⟩

/-- The images that files are read as. -/
theorem exists_decode_iff {m : Image} :
    (∃ bs, decode bs = .ok m) ↔ m.Canonical ∧ m.LengthsFit := by
  rw [← storable_iff]
  constructor
  · rintro ⟨bs, h⟩
    exact storable_of_decode h
  · intro h
    exact ⟨m.encode, decode_encode_iff.mpr h⟩

end Image

namespace ObjectModule

/-- Besides a canonical image, tables without repetition and addresses in ascending order. -/
structure Canonical (m : ObjectModule) : Prop where
  image : m.image.Canonical
  importedVars : m.importedVars.Nodup
  importedScripts : m.importedScripts.Nodup
  textPushes : m.textPushes.Pairwise (· < ·)

structure LengthsFit (m : ObjectModule) : Prop where
  name : TextFits m.name
  image : m.image.LengthsFit
  importedVars : ListFits (fun v => TextFits v.name) m.importedVars
  importedScripts : ListFits (fun s => TextFits s.name) m.importedScripts
  textPushes : m.textPushes.length < 0x100000000

theorem storable_iff {m : ObjectModule} : m.Storable ↔ m.Canonical ∧ m.LengthsFit := by
  constructor
  · intro h
    obtain ⟨himage, hlengths⟩ := Image.storable_iff.mp h.image
    exact ⟨⟨himage, h.nodupVars, h.nodupScripts, h.textPushes⟩,
      ⟨h.name, hlengths, h.importedVars, h.importedScripts, h.pushCount⟩⟩
  · rintro ⟨hcanonical, hlengths⟩
    have himage : m.image.Storable := Image.storable_iff.mpr ⟨hcanonical.image, hlengths.image⟩
    exact ⟨hlengths.name, himage, hlengths.importedVars, hcanonical.importedVars,
      hlengths.importedScripts, hcanonical.importedScripts, hcanonical.textPushes,
      hlengths.textPushes⟩

/-- The modules that files are read as. -/
theorem exists_decode_iff {m : ObjectModule} :
    (∃ bs, decode bs = .ok m) ↔ m.Canonical ∧ m.LengthsFit := by
  rw [← storable_iff]
  constructor
  · rintro ⟨bs, h⟩
    exact storable_of_decode h
  · intro h
    exact ⟨m.encode, decode_encode_iff.mpr h⟩

end ObjectModule

/-- Decoding undoes encoding for modules and for images: a value that is canonical and of lengths
that fit words is read back as it was, every field with it, and only such a value is. -/
theorem decode_encode_canonical_iff :
    (∀ m : ObjectModule,
      ObjectModule.decode m.encode = .ok m ↔ m.Canonical ∧ m.LengthsFit) ∧
    ∀ m : Image, Image.decode m.encode = .ok m ↔ m.Canonical ∧ m.LengthsFit :=
  ⟨fun _ => ObjectModule.decode_encode_iff.trans ObjectModule.storable_iff,
    fun _ => Image.decode_encode_iff.trans Image.storable_iff⟩

namespace Sample

/-- Operands at both ends of their words, a NaN, a reference without an operand, and placeholders in
instructions and in the autostart list. -/
def extremes : ObjectModule where
  name := "extremes"
  image := {
    globals := { entries := [("flags", ⟨"flags", 0x7FFFFFFF⟩)], starts := [1], slots := 0x7FFFFFFF }
    scripts := [⟨1, "main", 1, 1, ["n"], 0, "main.txt"⟩]
    code := [.pushVar (.external 0x7FFFFFFF), .load (.internal 0x7FFFFFFF),
      .pushFloat ⟨0x7FC00001⟩, .jump .jmp 0x7FFFFFFF, .call (.external 0), .byReference .store,
      .endRun]
    data := .ofBytes [104, 105, 0]
    autostart := [.internal 1, .external 0x7FFFFFFF]
    inits := [.null, ⟨"flags", .expression "2 * 3"⟩] }
  importedVars := [⟨"score", 0⟩, ⟨"a", 3⟩, ⟨"score", 1⟩]
  importedScripts := [⟨"reward", 1⟩]
  textPushes := [1, 4]

theorem extremes_canonical : extremes.Canonical := by
  have hdeclare : GlobalTable.empty.declare ⟨"flags", 0x7FFFFFFF⟩ =
      .ok (1, extremes.image.globals) := rfl
  exact ⟨⟨.declare .empty hdeclare, by decide, by decide, rfl, by decide⟩, by decide, by decide,
    by decide⟩

theorem extremes_lengthsFit : extremes.LengthsFit := by
  have hscripts : ListFits Script.Storable extremes.image.scripts := by
    refine ⟨by decide, fun s hs => ?_⟩
    obtain rfl := List.mem_singleton.mp hs
    exact ⟨by decide, ⟨by decide, by decide⟩, by decide⟩
  have hinits : ListFits Initializer.Storable extremes.image.inits := by
    refine ⟨by decide, fun x hx => ?_⟩
    rcases List.mem_cons.mp hx with rfl | hx
    · exact ⟨by decide, nofun⟩
    · obtain rfl := List.mem_singleton.mp hx
      refine ⟨by decide, ?_⟩
      rintro _ ⟨⟩
      decide
  have himage : extremes.image.LengthsFit :=
    ⟨by decide, hscripts, by decide, by decide, by decide, hinits⟩
  exact ⟨by decide, himage, ⟨by decide, by decide⟩, ⟨by decide, by decide⟩, by decide⟩

/-- The module is read back with all of them. -/
theorem extremes_read_back : ObjectModule.decode extremes.encode = .ok extremes :=
  (decode_encode_canonical_iff.1 extremes).mpr ⟨extremes_canonical, extremes_lengthsFit⟩

end Sample

end ScriptImage
