import ScriptImage.Proofs.Codec.Canonical
import ScriptImage.Proofs.Codec.Consuming

/-!
Decoding normalizes. Many files stand for one value: words that an instruction does not use may hold
anything, any byte but zero is true, a size of zero is one, and the addresses of text pushes may
come in any order and more than once. What a decoder gives for any of them is canonical. It takes
as many bytes as writing its value does, so writing a value that was read gives a file of the same
length, but for the repeated addresses of an object module, which are written once.
-/

namespace ScriptImage

/-! ### What the parts of an image take -/

namespace GlobalVar

theorem consumes_decode : decode.Consumes fun v k => k = v.encode.length := by
  refine Decoder.consumes_text.bind fun name n hn => Decoder.consumes_word.bind fun size k hk =>
    Decoder.consumes_pure ?_
  simp [encode, hn, hk]

end GlobalVar

namespace GlobalTable

theorem consumes_decodeInto (n : Nat) (t : GlobalTable) :
    (decodeInto n t).Consumes fun t' k => ∃ vs, vs.length = n ∧ t'.vars = t.vars ++ vs ∧
      k = (vs.flatMap GlobalVar.encode).length := by
  induction n generalizing t with
  | zero => exact Decoder.consumes_pure ⟨[], rfl, (List.append_nil _).symm, rfl⟩
  | succ n ih =>
      refine GlobalVar.consumes_decode.bind fun v k hk => ?_
      split
      · rename_i id u hdeclare
        refine (ih u).mono fun t' j hj => ?_
        obtain ⟨vs, hlength, hvars, rfl⟩ := hj
        refine ⟨v :: vs, by rw [List.length_cons, hlength], ?_, ?_⟩
        · rw [hvars, declare_vars hdeclare, List.append_assoc, List.singleton_append]
        · rw [hk, List.flatMap_cons, List.length_append]
      · exact Decoder.consumes_fail _

theorem consumes_decode : decode.Consumes fun t k => k = t.encode.length := by
  refine Decoder.consumes_count_bind fun n => (consumes_decodeInto n empty).mono fun t k h => ?_
  obtain ⟨vs, rfl, hvars, rfl⟩ := h
  have hsame : t.vars = vs := hvars
  rw [encode, hsame, Bytes.list_length]
  exact ⟨Decoder.length_flatMap_ge fun v _ => v.encode_length, rfl⟩

end GlobalTable

namespace Script

theorem consumes_decode : decode.Consumes fun s k => k = s.encode.length := by
  have htext : ∀ l : String, 4 ≤ (Bytes.text l).length := by
    intro l
    simp [Bytes.text]
  refine Decoder.consumes_word.bind fun id n₁ h₁ => Decoder.consumes_text.bind fun name n₂ h₂ =>
    Decoder.consumes_word.bind fun params n₃ h₃ => Decoder.consumes_word.bind fun boundary n₄ h₄ =>
      Decoder.consumes_word.bind fun address n₅ h₅ =>
        (Decoder.consumes_list htext Decoder.consumes_text).bind fun locals n₆ h₆ =>
          Decoder.consumes_text.bind fun source n₇ h₇ => Decoder.consumes_pure ?_
  simp only [encode, List.length_append, Bytes.word_length]
  omega

end Script

namespace Instruction

theorem consumes_decodeCode {α : Type} (field : CodeField) (ofCode? : UInt8 → Option α) :
    (decodeCode field ofCode?).Consumes fun _ k => k = 1 := by
  refine Decoder.consumes_byte.bind fun b k hk => ?_
  split
  · exact Decoder.consumes_pure hk
  · exact Decoder.consumes_fail _

theorem consumes_decode : decode.Consumes fun i k => k = i.encode.length := by
  refine (consumes_decodeCode _ _).bind fun opcode n₁ h₁ =>
    (consumes_decodeCode _ _).bind fun mode n₂ h₂ =>
      (consumes_decodeCode _ _).bind fun type n₃ h₃ =>
        Decoder.consumes_signed.bind fun word n₄ h₄ => ?_
  split
  · exact Decoder.consumes_fail _
  · refine Decoder.consumes_word.bind fun line n₅ h₅ => Decoder.consumes_pure ?_
    rw [encode_length, encodedSize]
    omega

end Instruction

theorem SymbolRef.consumes_decodeWord : decodeWord.Consumes fun _ k => k = 4 :=
  Decoder.consumes_signed.bind fun _ _ h => Decoder.consumes_pure h

namespace Initializer

theorem consumes_value : InitialValue.decode.Consumes fun v k => k = v.encode.length := by
  refine Decoder.consumes_byte.bind fun tag n₁ h₁ => ?_
  split
  · refine Decoder.consumes_float.bind fun x n₂ h₂ => Decoder.consumes_pure ?_
    simp [InitialValue.encode, Bytes.float, h₁, h₂]
  · split
    · refine Decoder.consumes_text.bind fun e n₂ h₂ => Decoder.consumes_pure ?_
      simp [InitialValue.encode, h₁, h₂, Nat.add_comm]
    · exact Decoder.consumes_fail _

theorem consumes_decode : decode.Consumes fun x k => k = x.encode.length := by
  refine Decoder.consumes_text.bind fun name n₁ h₁ => consumes_value.bind fun value n₂ h₂ =>
    Decoder.consumes_pure ?_
  simp only [encode, List.length_append]
  omega

end Initializer

namespace Image

theorem consumes_decodeBody : decodeBody.Consumes fun m k => k = m.encodeBody.length := by
  have hcode : ∀ i : Instruction, Instruction.encodedSize ≤ i.encode.length :=
    fun i => i.encode_length.ge
  refine Decoder.consumes_word.bind fun version n₁ h₁ =>
    GlobalTable.consumes_decode.bind fun globals n₂ h₂ =>
      (Decoder.consumes_list Script.encode_length Script.consumes_decode).bind fun scripts n₃ h₃ =>
        (Decoder.consumes_list hcode Instruction.consumes_decode).bind fun code n₄ h₄ =>
          Decoder.consumes_blob.bind fun data n₅ h₅ => ?_
  have hrefs : (Decoder.list 4 SymbolRef.decodeWord).Consumes fun rs k =>
      k = (Bytes.list (fun r : SymbolRef => Bytes.signed r.encode) rs).length :=
    Decoder.consumes_list (fun _ => Nat.le_refl _) SymbolRef.consumes_decodeWord
  refine hrefs.bind fun autostart n₆ h₆ =>
    (Decoder.consumes_list Initializer.encode_length Initializer.consumes_decode).bind
      fun inits n₇ h₇ => Decoder.consumes_pure ?_
  simp only [encodeBody, List.length_append, Bytes.word_length]
  have hdata : (DataSection.ofBytes data).bytes = data := rfl
  rw [hdata]
  omega

theorem consumes_file : (Decoder.magic magic >>= fun _ => decodeBody).Consumes fun m k =>
    k = m.encode.length := by
  refine (Decoder.consumes_magic magic).bind fun _ n hn => consumes_decodeBody.mono fun m k hk => ?_
  rw [encode, List.length_append, hn, hk]

end Image

/-! ### What the parts of a module take -/

namespace ObjectModule

theorem consumes_importedVar : ImportedVar.decode.Consumes fun v k => k = v.encode.length := by
  refine Decoder.consumes_text.bind fun name n hn => Decoder.consumes_word.bind fun index k hk =>
    Decoder.consumes_pure ?_
  simp [ImportedVar.encode, hn, hk]

theorem consumes_importedScript :
    ImportedScript.decode.Consumes fun s k => k = s.encode.length := by
  refine Decoder.consumes_text.bind fun name n hn => Decoder.consumes_word.bind fun params k hk =>
    Decoder.consumes_pure ?_
  simp [ImportedScript.encode, hn, hk]

section New

variable {α β : Type} [DecidableEq α] {d : Decoder α} {f : α → List UInt8} {duplicate : Corruption}

theorem consumes_decodeNew (hd : d.Consumes fun x k => k = (f x).length) (n : Nat) (ys : List α) :
    (decodeNew d duplicate n ys).Consumes fun zs k => ∃ xs, xs.length = n ∧ zs = ys ++ xs ∧
      k = (xs.flatMap f).length := by
  induction n generalizing ys with
  | zero => exact Decoder.consumes_pure ⟨[], rfl, (List.append_nil _).symm, rfl⟩
  | succ n ih =>
      refine hd.bind fun x k hk => ?_
      split
      · exact Decoder.consumes_fail _
      · refine (ih (ys ++ [x])).mono fun zs j hj => ?_
        obtain ⟨xs, hlength, hzs, rfl⟩ := hj
        refine ⟨x :: xs, by rw [List.length_cons, hlength], ?_, ?_⟩
        · rw [hzs, List.append_assoc, List.singleton_append]
        · rw [hk, List.flatMap_cons, List.length_append]

/-- A table without repetition and what is read behind it. -/
theorem consumes_new {Q : β → Nat → Prop} {k : List α → Decoder β}
    (hd : d.Consumes fun x k => k = (f x).length) (hsize : ∀ x, 8 ≤ (f x).length)
    (hk : ∀ xs n, n = (Bytes.list f xs).length → (k xs).Consumes fun y j => Q y (n + j)) :
    (Decoder.count 8 >>= fun n => decodeNew d duplicate n [] >>= k).Consumes Q := by
  refine Decoder.consumes_count_bind fun n => (consumes_decodeNew hd n []).bind fun xs j h => ?_
  obtain ⟨_, rfl, rfl, rfl⟩ := h
  have hlength : xs.length * max 8 1 ≤ (xs.flatMap f).length :=
    Decoder.length_flatMap_ge fun x _ => hsize x
  refine (hk xs _ rfl).mono fun y i hQ => ⟨Nat.le_add_right_of_le hlength, ?_⟩
  rwa [Bytes.list_length, Nat.add_assoc] at hQ

end New

theorem consumes_file : (Decoder.magic magic >>= fun _ => decodeBody).Consumes fun m k =>
    m.encode.length ≤ k := by
  refine (Decoder.consumes_magic magic).bind fun _ n₀ h₀ =>
    Decoder.consumes_text.bind fun name n₁ h₁ => Image.consumes_decodeBody.bind fun image n₂ h₂ =>
      consumes_new consumes_importedVar importedVar_length fun importedVars n₃ h₃ =>
        consumes_new consumes_importedScript importedScript_length
          fun importedScripts n₄ h₄ => ?_
  have hwords : (Decoder.list 4 Decoder.word).Consumes fun ws k =>
      k = (Bytes.list Bytes.word ws).length :=
    Decoder.consumes_list (fun _ => Nat.le_refl _) Decoder.consumes_word
  refine hwords.bind fun pushes n₅ h₅ => Decoder.consumes_pure ?_
  -- an address that stands more than once is taken each time and written once
  have hascending := (ascending_spec pushes).2
  have hlength (ws : List UInt32) : (ws.flatMap Bytes.word).length = ws.length * 4 := by
    simp
  simp only [Bytes.list_length, hlength] at h₅
  simp only [encode, List.length_append, Bytes.list_length _ (ascending pushes), hlength]
  omega

end ObjectModule

/-- The values that files are read as are just the canonical ones whose lengths fit words: their
global names are unique, their sizes at least one, their slots laid out in order up to the last one,
their operands of the variant that opcode, mode and data type prescribe and in the range of a signed
word, their index that of their texts, their tables of imports without repetition. Writing what was
read gives a file that is read as the same value, never longer than the one read and, for images, of
just its length. -/
theorem decode_canonical :
    ((∀ m : Image, (∃ bs, Image.decode bs = .ok m) ↔ m.Canonical ∧ m.LengthsFit) ∧
      ∀ bs m, Image.decode bs = .ok m → m.Canonical ∧ m.globals.Consistent ∧
        Image.decode m.encode = .ok m ∧ m.encode.length = bs.length) ∧
    (∀ m : ObjectModule, (∃ bs, ObjectModule.decode bs = .ok m) ↔ m.Canonical ∧ m.LengthsFit) ∧
      ∀ bs m, ObjectModule.decode bs = .ok m → m.Canonical ∧ m.image.globals.Consistent ∧
        ObjectModule.decode m.encode = .ok m ∧ m.encode.length ≤ bs.length := by
  refine ⟨⟨fun _ => Image.exists_decode_iff, fun bs m h => ?_⟩,
    fun _ => ObjectModule.exists_decode_iff, fun bs m h => ?_⟩
  · have hcanonical := (Image.exists_decode_iff.mp ⟨bs, h⟩).1
    have hread := Image.decode_encode_iff.mpr (Image.storable_of_decode h)
    rw [Image.decode_eq_run] at h
    exact ⟨hcanonical, hcanonical.globals.consistent, hread,
      (Image.consumes_file.run_whole h).2.symm⟩
  · have hcanonical := (ObjectModule.exists_decode_iff.mp ⟨bs, h⟩).1
    have hread := ObjectModule.decode_encode_iff.mpr (ObjectModule.storable_of_decode h)
    rw [ObjectModule.decode_eq_run] at h
    exact ⟨hcanonical, hcanonical.image.globals.consistent, hread,
      (ObjectModule.consumes_file.run_whole h).2⟩

namespace Sample

/-- A global of size 0, a boolean 2, words behind instructions without an operand and a
placeholder. -/
def looseBody : List UInt8 :=
  [8, 0, 0, 0] ++ [1, 0, 0, 0, 1, 0, 0, 0, 120, 0, 0, 0, 0] ++ [0, 0, 0, 0]
    ++ [3, 0, 0, 0] ++ [0x02, 0, 3, 2, 0, 0, 0, 5, 0, 0, 0] ++ [0x08, 1, 2, 9, 9, 9, 9, 0, 0, 0, 0]
    ++ [0x01, 0, 0, 7, 0, 0, 0, 0, 0, 0, 0] ++ [2, 0, 0, 0, 104, 0]
    ++ [1, 0, 0, 0, 255, 255, 255, 255] ++ [0, 0, 0, 0]

/-- The same in a module whose text pushes are out of order and repeated. -/
def looseModule : List UInt8 :=
  ObjectModule.magic ++ [0, 0, 0, 0] ++ looseBody ++ [0, 0, 0, 0] ++ [0, 0, 0, 0]
    ++ [3, 0, 0, 0, 4, 0, 0, 0, 1, 0, 0, 0, 4, 0, 0, 0]

/-- What both stand for. -/
def tidy : Image where
  globals := { entries := [("x", ⟨"x", 1⟩)], starts := [1], slots := 1 }
  code := [(Instruction.pushBool true).atLine 5, .byReference .store, .endRun]
  data := { bytes := [104, 0], entries := [⟨0, 1⟩] }
  autostart := [.external 0]
  inits := []

theorem loose_normalized :
    (Image.decode (Image.magic ++ looseBody) = .ok tidy ∧ tidy.Canonical ∧
      tidy.encode.length = 4 + looseBody.length) ∧
    ∃ m, ObjectModule.decode looseModule = .ok m ∧ m.image = tidy ∧ m.textPushes = [1, 4] ∧
      ObjectModule.decode m.encode = .ok m ∧ m.encode.length ≤ looseModule.length := by
  have himage : (Image.decode (Image.magic ++ looseBody)).toOption = some tidy := by
    decide +kernel
  obtain ⟨hcanonical, -, -, hlength⟩ := decode_canonical.1.2 _ _ (toOption_eq_some.mp himage)
  obtain ⟨m, hm, htidy, hpushes⟩ : ∃ m, ObjectModule.decode looseModule = .ok m ∧
      m.image = tidy ∧ m.textPushes = [1, 4] := exists_ok (by decide +kernel)
  obtain ⟨-, -, hread, hle⟩ := decode_canonical.2.2 _ _ hm
  refine ⟨⟨toOption_eq_some.mp himage, hcanonical, ?_⟩, m, hm, htidy, hpushes, hread, hle⟩
  rw [hlength, List.length_append]
  rfl

end Sample

end ScriptImage
