import ScriptImage.ObjectModule.Codec
import ScriptImage.Proofs.Globals
import ScriptImage.Proofs.Codec.Reading

/-!
Images in their stored form. An image is storable when each part of it is something a decoder
gives: its table of globals is built by declarations, its counts fit words, and its operands are
those their stored words stand for. Reading back what was written gives the image exactly when it
is storable.
-/

namespace ScriptImage

/-! ### Symbols and operands -/

namespace SymbolRef

def Storable (r : SymbolRef) : Prop := decode r.encode = r

theorem encode_internal_toInt (id : UInt32) :
    (encode (.internal id)).toInt = min id.toNat 0x7FFFFFFF :=
  Word.toInt_saturateSigned id

theorem encode_external_toInt (p : UInt32) :
    (encode (.external p)).toInt =
      -((if p.toNat ≤ 0x7FFFFFFF then p.toNat else 0x7FFFFFFE : Nat) : Int) - 1 := by
  rw [encode, Int32.toInt_ofInt_of_le]
  · split
    · omega
    · omega
  · split
    · omega
    · omega

/-- Every stored word comes back from the symbol it stands for. -/
theorem encode_decode (w : Int32) : (decode w).encode = w := by
  have hlow := w.le_toInt
  have hhigh := w.toInt_lt
  apply Int32.toInt_inj.mp
  unfold decode
  split
  · rename_i h
    rw [encode_internal_toInt, Word.toNat_ofNat (by omega)]
    omega
  · rename_i h
    rw [encode_external_toInt, Word.toNat_ofNat (by omega)]
    split
    · omega
    · omega

theorem storable_decode (w : Int32) : (decode w).Storable := by
  rw [Storable, encode_decode]

/-- An id is stored as itself up to the last slot. -/
theorem storable_internal_iff {id : UInt32} : (internal id).Storable ↔ id.toNat ≤ maxSlot := by
  have hmax : maxSlot = 0x7FFFFFFF := rfl
  unfold Storable decode
  rw [encode_internal_toInt, if_pos (by omega), internal.injEq, ← UInt32.toNat_inj,
    Word.toNat_ofNat (by omega)]
  omega

end SymbolRef

namespace Instruction

/-- The operand is the one its stored word stands for. -/
def Storable (i : Instruction) : Prop :=
  Operand.ofWord? i.opcode i.mode i.type i.operand.word = some i.operand

end Instruction

namespace Operand

theorem word_address {a : UInt32} (h : a.toNat ≤ 0x7FFFFFFF) : (address a).word = a.toInt32 := by
  rw [word, Word.saturateSigned, if_pos h]

/-- The operand of a word has a word that stands for it again. -/
theorem ofWord?_word {o : Opcode} {m : Mode} {t : DataType} {w : Int32} {op : Operand}
    (h : ofWord? o m t w = some op) : ofWord? o m t op.word = some op := by
  unfold ofWord? at h ⊢
  cases hk : o.kind with
  | none =>
      rw [hk] at h
      exact h
  | address =>
      rw [hk] at h
      simp only at h ⊢
      split at h
      · rename_i hw
        cases h
        have hnat := Word.toNat_toUInt32 hw
        have hlt := w.toInt_lt
        rw [word_address (by omega), Int32.toInt32_toUInt32, if_pos hw]
      · cases h
  | script =>
      rw [hk] at h
      cases h
      simp only [word, SymbolRef.encode_decode]
  | «variable» =>
      rw [hk] at h
      cases m with
      | direct =>
          cases h
          simp only [word, SymbolRef.encode_decode]
      | reference => exact h
  | value =>
      rw [hk] at h
      cases t with
      | void => exact h
      | int =>
          cases h
          rfl
      | float =>
          cases h
          rfl
      | bool =>
          cases h
          simp only [word]
          cases hb : w != 0 <;> rfl
      | var =>
          cases h
          simp only [word, SymbolRef.encode_decode]

end Operand

/-! ### Globals -/

structure GlobalVar.Storable (v : GlobalVar) : Prop where
  name : TextFits v.name
  size : v.size ≠ 0

namespace GlobalTable

structure Storable (t : GlobalTable) : Prop where
  declared : t.Declared
  vars : ∀ v ∈ t.vars, v.Storable

/-- Declares variables in order. -/
def declareAll (t : GlobalTable) (vs : List GlobalVar) : Except DeclareError GlobalTable :=
  vs.foldlM (fun u v => Prod.snd <$> u.declare v) t

theorem declareAll_cons_eq_ok {t t' : GlobalTable} {v : GlobalVar} {vs : List GlobalVar} :
    t.declareAll (v :: vs) = .ok t' ↔
      ∃ id u, t.declare v = .ok (id, u) ∧ u.declareAll vs = .ok t' := by
  simp [declareAll]

/-- A declared table is what declaring its variables in order builds. -/
theorem Declared.declareAll_vars {t : GlobalTable} (h : t.Declared) :
    GlobalTable.empty.declareAll t.vars = .ok t := by
  induction h with
  | empty => rfl
  | declare _ hd ih =>
      unfold declareAll at ih ⊢
      rw [declare_vars hd, List.foldlM_append, bind_eq_ok]
      refine ⟨_, ih, ?_⟩
      simp [hd]

theorem length_vars_le_slots (vs : List GlobalVar) : vs.length ≤ slotsOf vs := by
  induction vs with
  | nil => simp
  | cons v vs ih =>
      have hv := v.span_pos
      rw [List.length_cons, slotsOf_cons]
      omega

end GlobalTable

namespace GlobalVar

theorem max_size {v : GlobalVar} (h : v.size ≠ 0) : max v.size 1 = v.size := by
  have hpos := Word.toNat_pos.mpr h
  change (if v.size ≤ 1 then 1 else v.size) = v.size
  split
  · rename_i hle
    have hle := UInt32.le_iff_toNat_le.mp hle
    rw [UInt32.toNat_one] at hle
    exact UInt32.toNat_inj.mp (show (1 : UInt32).toNat = _ by rw [UInt32.toNat_one]; omega)
  · rfl

theorem max_one_ne_zero (size : UInt32) : max size 1 ≠ 0 := by
  change (if size ≤ 1 then 1 else size) ≠ 0
  split
  · decide
  · rename_i hgt
    rintro rfl
    exact hgt (by decide)

theorem Storable.reads {v : GlobalVar} (h : v.Storable) : decode.Reads v.encode v := by
  refine (Decoder.reads_text h.name).bind ?_
  have hread := (Decoder.reads_word v.size).bind_pure fun size => (⟨v.name, max size 1⟩ : GlobalVar)
  rwa [max_size h.size] at hread

theorem yields_decode : decode.Yields Storable :=
  Decoder.yields_text.bind fun _ hname => (Decoder.yields_any _).bind fun size _ =>
    Decoder.yields_pure ⟨hname, max_one_ne_zero size⟩

theorem encode_length (v : GlobalVar) : 8 ≤ v.encode.length := by
  simp [encode, Bytes.text, Bytes.blob, Bytes.count]
  omega

end GlobalVar

namespace GlobalTable

theorem reads_decodeInto {vs : List GlobalVar} {t t' : GlobalTable}
    (hvs : ∀ v ∈ vs, v.Storable)
    (h : t.declareAll vs = .ok t') :
    (decodeInto vs.length t).Reads (vs.flatMap GlobalVar.encode) t' := by
  induction vs generalizing t with
  | nil =>
      cases h
      exact Decoder.reads_pure _
  | cons v vs ih =>
      obtain ⟨id, u, hd, h⟩ := declareAll_cons_eq_ok.mp h
      refine (hvs v List.mem_cons_self).reads.bind ?_
      rw [hd]
      exact ih (fun w hw => hvs w (List.mem_cons_of_mem _ hw)) h

theorem yields_decodeInto (n : Nat) {t : GlobalTable} (ht : t.Storable) :
    (decodeInto n t).Yields Storable := by
  induction n generalizing t with
  | zero => exact Decoder.yields_pure ht
  | succ n ih =>
      refine GlobalVar.yields_decode.bind fun v hv => ?_
      split
      · rename_i id t' hd
        refine ih ⟨.declare ht.declared hd, ?_⟩
        intro w hw
        rw [declare_vars hd] at hw
        rcases List.mem_append.mp hw with hw | hw
        · exact ht.vars w hw
        · exact List.mem_singleton.mp hw ▸ hv
      · exact Decoder.yields_fail _

theorem Storable.reads {t : GlobalTable} (h : t.Storable) : decode.Reads t.encode t := by
  have hmax : maxSlot = 0x7FFFFFFF := rfl
  have hslots := length_vars_le_slots t.vars
  have hbounded := h.declared.consistent.bounded
  refine (reads_decodeInto h.vars h.declared.declareAll_vars).counted (by omega) ?_
  exact Decoder.length_flatMap_ge fun v _ => v.encode_length

theorem yields_decode : decode.Yields Storable :=
  (Decoder.yields_any _).bind fun n _ => yields_decodeInto n ⟨.empty, by simp [empty, vars]⟩

end GlobalTable

/-! ### Scripts, instructions and initializers -/

namespace Script

structure Storable (s : Script) : Prop where
  name : TextFits s.name
  locals : ListFits TextFits s.locals
  source : TextFits s.source

theorem Storable.reads {s : Script} (h : s.Storable) : decode.Reads s.encode s := by
  simp only [encode, List.append_assoc]
  refine (Decoder.reads_word s.id).bind ((Decoder.reads_text h.name).bind
    ((Decoder.reads_word s.params).bind ((Decoder.reads_word s.boundary).bind
      ((Decoder.reads_word s.address).bind ?_))))
  refine (Decoder.reads_list h.locals ?_ fun _ => Decoder.reads_text).bind ?_
  · intro l
    simp [Bytes.text, Bytes.blob, Bytes.count]
  · exact (Decoder.reads_text h.source).bind_pure _

theorem yields_decode : decode.Yields Storable :=
  (Decoder.yields_any _).bind fun _ _ => Decoder.yields_text.bind fun _ hname =>
    (Decoder.yields_any _).bind fun _ _ => (Decoder.yields_any _).bind fun _ _ =>
      (Decoder.yields_any _).bind fun _ _ =>
        (Decoder.yields_list Decoder.yields_text 4).bind fun _ hlocals =>
          Decoder.yields_text.bind fun _ hsource => Decoder.yields_pure ⟨hname, hlocals, hsource⟩

theorem encode_length (s : Script) : 28 ≤ s.encode.length := by
  simp [encode, Bytes.text, Bytes.blob, Bytes.list, Bytes.count]
  omega

end Script

namespace Instruction

theorem reads_decodeCode {α : Type} {field : CodeField} {ofCode? : UInt8 → Option α} {b : UInt8}
    {x : α} (h : ofCode? b = some x) : (decodeCode field ofCode?).Reads [b] x := by
  refine (Decoder.reads_byte b).bind_done ?_
  rw [h]
  exact Decoder.reads_pure x

theorem Storable.reads {i : Instruction} (h : i.Storable) : decode.Reads i.encode i := by
  change decode.Reads ([i.opcode.code] ++ ([i.mode.code] ++ ([i.type.code] ++
    (Bytes.signed i.operand.word ++ Bytes.word i.line)))) i
  refine (reads_decodeCode (Opcode.ofCode?_code _)).bind
    ((reads_decodeCode (Mode.ofCode?_code _)).bind
      ((reads_decodeCode (DataType.ofCode?_code _)).bind
        ((Decoder.reads_signed _).bind ?_)))
  rw [h]
  exact (Decoder.reads_word i.line).bind_pure _

theorem yields_decode : decode.Yields Storable := by
  refine (Decoder.yields_any _).bind fun opcode _ => (Decoder.yields_any _).bind fun mode _ =>
    (Decoder.yields_any _).bind fun type _ => (Decoder.yields_any _).bind fun word _ => ?_
  split
  · exact Decoder.yields_fail _
  · rename_i operand hoperand
    exact (Decoder.yields_any _).bind fun line _ =>
      Decoder.yields_pure (Operand.ofWord?_word hoperand)

theorem encode_length (i : Instruction) : i.encode.length = encodedSize := rfl

end Instruction

namespace SymbolRef

theorem Storable.reads {r : SymbolRef} (h : r.Storable) :
    decodeWord.Reads (Bytes.signed r.encode) r := by
  have hread := (Decoder.reads_signed r.encode).bind_pure decode
  rw [show decode r.encode = r from h] at hread
  exact hread

theorem yields_decodeWord : decodeWord.Yields Storable :=
  (Decoder.yields_any Decoder.signed).bind fun w _ => Decoder.yields_pure (storable_decode w)

end SymbolRef

namespace Initializer

/-- A number is always storable, an expression when its source can be counted. -/
structure Storable (x : Initializer) : Prop where
  name : TextFits x.name
  value : ∀ e, x.value = .expression e → TextFits e

theorem reads_value {v : InitialValue} (h : ∀ e, v = .expression e → TextFits e) :
    InitialValue.decode.Reads v.encode v := by
  cases v with
  | number x =>
      change InitialValue.decode.Reads ([0] ++ Bytes.float x) _
      exact (Decoder.reads_byte 0).bind ((Decoder.reads_float x).bind_pure _)
  | expression e =>
      change InitialValue.decode.Reads ([1] ++ Bytes.text e) _
      exact (Decoder.reads_byte 1).bind ((Decoder.reads_text (h e rfl)).bind_pure _)

theorem Storable.reads {x : Initializer} (h : x.Storable) : decode.Reads x.encode x :=
  (Decoder.reads_text h.name).bind ((reads_value h.value).bind_pure _)

theorem yields_value : InitialValue.decode.Yields fun v => ∀ e, v = .expression e → TextFits e := by
  refine (Decoder.yields_any _).bind fun tag _ => ?_
  split
  · exact (Decoder.yields_any Decoder.float).bind fun x _ => Decoder.yields_pure (by simp)
  · split
    · refine Decoder.yields_text.bind fun e he => Decoder.yields_pure ?_
      rintro e' ⟨⟩
      exact he
    · exact Decoder.yields_fail _

theorem yields_decode : decode.Yields Storable :=
  Decoder.yields_text.bind fun _ hname => yields_value.bind fun _ hvalue =>
    Decoder.yields_pure ⟨hname, hvalue⟩

theorem encode_length (x : Initializer) : 5 ≤ x.encode.length := by
  cases hv : x.value with
  | number v =>
      simp [encode, hv, InitialValue.encode, Bytes.text, Bytes.blob, Bytes.count, Bytes.float]
      omega
  | expression e =>
      simp [encode, hv, InitialValue.encode, Bytes.text, Bytes.blob, Bytes.count]
      omega

end Initializer

/-! ### Images -/

namespace Image

/-- Each part of the image is something a decoder gives. -/
structure Storable (m : Image) : Prop where
  globals : m.globals.Storable
  scripts : ListFits Script.Storable m.scripts
  code : ListFits Instruction.Storable m.code
  bytes : m.data.bytes.length < 0x100000000
  data : DataSection.ofBytes m.data.bytes = m.data
  autostart : ListFits SymbolRef.Storable m.autostart
  inits : ListFits Initializer.Storable m.inits

theorem Storable.reads_body {m : Image} (h : m.Storable) : decodeBody.Reads m.encodeBody m := by
  simp only [encodeBody, List.append_assoc]
  refine (Decoder.reads_word m.version).bind (h.globals.reads.bind ?_)
  refine (Decoder.reads_list h.scripts Script.encode_length fun _ hs => hs.reads).bind ?_
  refine (Decoder.reads_list h.code (fun i => i.encode_length.ge) fun _ hi => hi.reads).bind ?_
  refine (Decoder.reads_blob h.bytes).bind ?_
  refine (Decoder.reads_list h.autostart (fun _ => Nat.le_refl _) fun _ hr => hr.reads).bind ?_
  have hinits : (Decoder.list 5 Initializer.decode).Reads
      (Bytes.list Initializer.encode m.inits) m.inits :=
    Decoder.reads_list h.inits Initializer.encode_length fun _ hx => hx.reads
  rw [h.data]
  exact hinits.bind_pure fun inits => ({ m with inits } : Image)

theorem yields_decodeBody : decodeBody.Yields Storable :=
  (Decoder.yields_any _).bind fun _ _ => GlobalTable.yields_decode.bind fun _ hglobals =>
    (Decoder.yields_list Script.yields_decode _).bind fun _ hscripts =>
      (Decoder.yields_list Instruction.yields_decode _).bind fun _ hcode =>
        Decoder.yields_blob.bind fun _ hbytes =>
          (Decoder.yields_list SymbolRef.yields_decodeWord _).bind fun _ hautostart =>
            (Decoder.yields_list Initializer.yields_decode _).bind fun _ hinits =>
              Decoder.yields_pure ⟨hglobals, hscripts, hcode, hbytes, rfl, hautostart, hinits⟩

theorem decode_eq_run : decode = (Decoder.magic magic >>= fun _ => decodeBody).whole.run := by
  have hdecoder : decoder = (Decoder.magic magic >>= fun _ => decodeBody).whole := by
    simp only [decoder, Decoder.whole, bind_assoc]
  rw [← hdecoder]
  rfl

/-- An image that was read is storable. -/
theorem storable_of_decode {bs : List UInt8} {m : Image} (h : decode bs = .ok m) : m.Storable := by
  rw [decode_eq_run] at h
  exact ((Decoder.yields_any _).bind fun _ _ => yields_decodeBody).whole.run h

/-- Reading back what was written gives the image exactly when it is storable. -/
theorem decode_encode_iff {m : Image} : decode m.encode = .ok m ↔ m.Storable := by
  constructor
  · exact storable_of_decode
  · intro h
    have hread : (Decoder.magic magic >>= fun _ => decodeBody).Reads m.encode m :=
      (Decoder.reads_magic magic).bind h.reads_body
    rw [decode_eq_run]
    exact hread.run_whole

end Image

end ScriptImage
