import ScriptImage.Proofs.Build.References
import ScriptImage.Proofs.Codec.Canonical
import ScriptImage.Proofs.TextIndex

/-!
Built modules in their stored form. All that a builder puts into a module is read back as it was,
save for the index of its texts: the builder writes an entry for each text, and reading makes one
for each run of bytes that a zero byte closes. The two agree as long as no text holds a zero
character.
-/

namespace ScriptImage

/-- The module that reading finds in the bytes of a module: its texts are indexed anew. -/
def ObjectModule.reindexed (m : ObjectModule) : ObjectModule :=
  { m with image := { m.image with data := .ofBytes m.image.data.bytes } }

theorem ObjectModule.encode_reindexed (m : ObjectModule) : m.reindexed.encode = m.encode := rfl

theorem ObjectModule.reindexed_eq_iff {m : ObjectModule} :
    m.reindexed = m ↔ DataSection.ofBytes m.image.data.bytes = m.image.data := by
  constructor
  · intro h
    exact congrArg (fun m : ObjectModule => m.image.data) h
  · intro h
    rw [reindexed, h]

namespace Builder

/-- The numbers in a call are such that signed words can hold them, and an instruction has the
operand that it prescribes. -/
def Call.Storable : Call → Prop
  | .emit i => i.Canonical
  | .patchJump _ target => target.toNat ≤ maxSlot
  | .autostart s => s.index.toNat ≤ maxSlot
  | _ => True

/-- A patched jump takes an operand of the same variant. -/
theorem canonical_retarget {i : Instruction} {a target : UInt32} (hi : i.Canonical)
    (ha : i.operand = .address a) (htarget : target.toNat ≤ maxSlot) :
    Instruction.Canonical { i with operand := .address target } := by
  have hvariant := hi.variant
  rw [ha] at hvariant
  exact ⟨hvariant, htarget⟩

section Step

variable {b b' : Builder} {c : Call}

theorem Effect.canonical_code (h : Effect b c b') (hc : c.Storable)
    (hb : ∀ i ∈ b.image.code, i.Canonical) : ∀ i ∈ b'.image.code, i.Canonical := by
  have hnew : ∀ i ∈ b.image.code ++ c.code b, i.Canonical := by
    intro i hi
    rcases List.mem_append.mp hi with hi | hi
    · exact hb i hi
    · cases c with
      | emit j => exact List.mem_singleton.mp hi ▸ hc
      | pushText s => exact List.mem_singleton.mp hi ▸ ⟨rfl, trivial⟩
      | _ => cases hi
  rw [h.code]
  cases c with
  | patchJump address target =>
      intro i hi
      obtain ⟨k, hk⟩ := List.mem_iff_getElem?.mp hi
      rw [Call.patch, List.getElem?_modify] at hk
      obtain ⟨j, hj, rfl⟩ := Option.map_eq_some_iff.mp hk
      have hcanonical := hnew j (List.mem_of_getElem? hj)
      split
      · split
        · rename_i a ha
          exact canonical_retarget hcanonical ha hc
        · exact hcanonical
      · exact hcanonical
  | _ => exact hnew

theorem Effect.autostart_le (h : Effect b c b') (hc : c.Storable)
    (hb : ∀ r ∈ b.image.autostart, r.index.toNat ≤ maxSlot) :
    ∀ r ∈ b'.image.autostart, r.index.toNat ≤ maxSlot := by
  intro r hr
  rw [h.autostart] at hr
  rcases List.mem_append.mp hr with hr | hr
  · exact hb r hr
  · cases c with
    | autostart s => exact List.mem_singleton.mp hr ▸ hc
    | _ => cases hr

/-- A builder declares no variable of size 0. -/
theorem Effect.sizes (h : Effect b c b') (hb : ∀ v ∈ b.image.globals.vars, v.size ≠ 0) :
    ∀ v ∈ b'.image.globals.vars, v.size ≠ 0 := by
  intro v hv
  rw [h.vars] at hv
  rcases List.mem_append.mp hv with hv | hv
  · exact hb v hv
  · cases c with
    | global name => exact List.mem_singleton.mp hv ▸ (by decide : (1 : UInt32) ≠ 0)
    | array name size => exact List.mem_singleton.mp hv ▸ GlobalVar.max_one_ne_zero size
    | _ => cases hv

end Step

section Run

variable {name : String} {calls : List Call} {answers : List Answer} {b : Builder}
  (h : (new name).run calls = .ok (answers, b))
include h

theorem reindexed_canonical (hcalls : ∀ c ∈ calls, c.Storable) :
    b.result.reindexed.Canonical := by
  have hsound := (sound_new name).run h
  have hcode := run_invariant (fun b => ∀ i ∈ b.image.code, i.Canonical)
    (fun c hc _ _ hb he => he.canonical_code (hcalls c hc) hb) (by simp [new, image]) h
  have hautostart := run_invariant (fun b => ∀ r ∈ b.image.autostart, r.index.toNat ≤ maxSlot)
    (fun c hc _ _ hb he => he.autostart_le (hcalls c hc) hb) (by simp [new, image]) h
  have hsizes := run_invariant (fun b => ∀ v ∈ b.image.globals.vars, v.size ≠ 0)
    (fun c _ _ _ hb he => he.sizes hb) (by simp [new, image, GlobalTable.vars]) h
  have himage : b.result.reindexed.image.Canonical :=
    ⟨hsound.declared, hsizes, hcode, rfl, hautostart⟩
  exact ⟨himage, hsound.importedVars, hsound.importedScripts, hsound.textPushes⟩

/-- Reading a built module gives it with its texts indexed anew. -/
theorem decode_encode_of_run (hcalls : ∀ c ∈ calls, c.Storable) (hlengths : b.result.LengthsFit) :
    ObjectModule.decode b.result.encode = .ok b.result.reindexed := by
  have himage := hlengths.image
  have hfits : b.result.reindexed.LengthsFit :=
    ⟨hlengths.name, ⟨himage.globals, himage.scripts, himage.code, himage.bytes, himage.autostart,
      himage.inits⟩, hlengths.importedVars, hlengths.importedScripts, hlengths.textPushes⟩
  rw [← ObjectModule.encode_reindexed, ObjectModule.decode_encode_iff, ObjectModule.storable_iff]
  exact ⟨reindexed_canonical h hcalls, hfits⟩

theorem reindexed_eq_iff_of_run (hsize : b.image.data.bytes.length < 0x100000000) :
    b.result.reindexed = b.result ↔ ∀ s ∈ calls.flatMap Call.texts, '\x00' ∉ s.toList := by
  have hdata := data_eq_ofTexts h rfl
  rw [hdata] at hsize
  rw [ObjectModule.reindexed_eq_iff]
  change DataSection.ofBytes b.image.data.bytes = b.image.data ↔ _
  rw [hdata, DataSection.ofBytes_ofTexts_iff hsize, List.forall_mem_map]
  simp only [Utf8.zero_mem_encode_iff]

/-- At the offset of a text reading finds what stands before the first zero character of it. -/
theorem textAt?_of_reindexed (hsize : b.image.data.bytes.length < 0x100000000) {n : Nat}
    {b₀ : Builder} {before : List Answer}
    (hbefore : (new name).run (calls.take n) = .ok (before, b₀))
    {c : Call} (hc : calls[n]? = some c) {s : String} (hs : c.texts = [s]) :
    b.result.reindexed.image.data.textAt? (Word.saturate b₀.image.data.bytes.length) =
      .ok (some (Utf8.upToZero s)) := by
  obtain ⟨ts, k, hts, hk, hstart⟩ := texts_of_run h rfl hbefore hc hs
  rw [hts] at hsize
  have htext := DataSection.textAt?_ofBytes_ofTexts hsize hk
  rw [Utf8.takeWhile_encode, Utf8.decodeLossy_encode, ← hts, ← hstart] at htext
  exact htext

end Run

/-- A built module is read back with its texts indexed anew, so it is read back as it was exactly
when no text holds a zero character. At the offset that a call gave or pushed, what was read has
the part of the text before its first zero character. -/
theorem saved_of_run {name : String} {calls : List Call} {answers : List Answer} {b : Builder}
    (h : (new name).run calls = .ok (answers, b)) (hcalls : ∀ c ∈ calls, c.Storable)
    (hlengths : b.result.LengthsFit) :
    ObjectModule.decode b.result.encode = .ok b.result.reindexed ∧
    (ObjectModule.decode b.result.encode = .ok b.result ↔
      ∀ s ∈ calls.flatMap Call.texts, '\x00' ∉ s.toList) ∧
    (∀ (n : Nat) s, calls[n]? = some (.text s) →
      ∃ offset, answers[n]? = some (.word offset) ∧
        b.result.reindexed.image.data.textAt? offset = .ok (some (Utf8.upToZero s))) ∧
    (b.image.data.bytes.length < 0x80000000 → ∀ (n : Nat) s, calls[n]? = some (.pushText s) →
      ∃ a v, answers[n]? = some (.word a) ∧
        b.result.reindexed.image.code[a.toNat]? = some (.pushInt v) ∧ 0 ≤ v.toInt ∧
        b.result.reindexed.image.data.textAt? v.toUInt32 = .ok (some (Utf8.upToZero s))) := by
  have hdecode := decode_encode_of_run h hcalls hlengths
  have hsize : b.image.data.bytes.length < 0x100000000 := hlengths.image.bytes
  refine ⟨hdecode, ?_, ?_, ?_⟩
  · rw [hdecode, Except.ok.injEq]
    exact reindexed_eq_iff_of_run h hsize
  · intro n s hc
    obtain ⟨b₀, a, b₁, hbefore, hperform, hanswer, -⟩ := exists_perform_of_run h hc
    cases hperform
    exact ⟨_, hanswer, textAt?_of_reindexed h hsize hbefore hc rfl⟩
  · intro hdata n s hc
    obtain ⟨b₀, a, v, hbefore, hanswer, -, hcode, hpos, hword⟩ :=
      exists_offset_of_run h rfl hlengths.image.code hdata hc
    refine ⟨a, v, hanswer, hcode, hpos, ?_⟩
    rw [hword]
    exact textAt?_of_reindexed h hsize hbefore hc rfl

end Builder

namespace Sample

/-- A script that pushes one text. -/
def note (s : String) : List Builder.Call :=
  [.beginScript "main" 0 [], .pushText s, .emit .endRun]

/-- What these calls build. -/
def noteModule (s : String) : ObjectModule where
  name := "note.txt"
  image := {
    scripts := [⟨1, "main", 0, 0, [], 0, "note.txt"⟩]
    code := [.pushInt 0, .endRun]
    data := (DataSection.empty.pushText s).2 }
  textPushes := [0]

theorem run_note (s : String) : (Builder.new "note.txt").run (note s) =
    .ok ([.symbol (.internal 1), .word 0, .word 1], ⟨"note.txt", noteModule s⟩) := rfl

theorem note_storable (s : String) : ∀ c ∈ note s, c.Storable := by
  intro c hc
  fin_cases hc
  · trivial
  · trivial
  · exact ⟨rfl, trivial⟩

theorem note_lengthsFit {s : String} (hs : (Utf8.encode s).length < 0x7FFFFFFF) :
    (noteModule s).LengthsFit := by
  have hscripts : ListFits Script.Storable (noteModule s).image.scripts := by
    refine ⟨by simp [noteModule], fun t ht => ?_⟩
    obtain rfl := List.mem_singleton.mp ht
    exact ⟨by decide, ⟨by decide, by decide⟩, by decide⟩
  have hinits : ListFits Initializer.Storable (noteModule s).image.inits := by
    refine ⟨by simp [noteModule], fun x hx => ?_⟩
    obtain rfl := List.mem_singleton.mp hx
    exact ⟨by decide, nofun⟩
  have hbytes : (noteModule s).image.data.bytes.length < 0x100000000 := by
    have := DataSection.bytes_length_push DataSection.empty (Utf8.encode s)
    simp only [DataSection.empty, List.length_nil] at this
    change (DataSection.push {} (Utf8.encode s)).2.bytes.length < _
    omega
  have himage : (noteModule s).image.LengthsFit :=
    ⟨by simp [noteModule, GlobalTable.vars], hscripts, by simp [noteModule], hbytes,
      by simp [noteModule], hinits⟩
  have hname : TextFits "note.txt" := by decide
  exact ⟨hname, himage, ⟨by simp [noteModule], by simp [noteModule]⟩,
    ⟨by simp [noteModule], by simp [noteModule]⟩, by simp [noteModule]⟩

/-- A module whose text has no zero character is read back as it was built. -/
theorem note_saved : ObjectModule.decode (noteModule "hi").encode = .ok (noteModule "hi") :=
  (Builder.saved_of_run (run_note "hi") (note_storable "hi") (note_lengthsFit (by decide))).2.1.mpr
    (by decide)

/-- A text with a zero character is not found again in the module that is read back: the builder
has one entry for it, and reading finds two. -/
theorem zero_text_not_saved :
    (Builder.new "note.txt").run (note "a\x00b") =
      .ok ([.symbol (.internal 1), .word 0, .word 1], ⟨"note.txt", noteModule "a\x00b"⟩) ∧
    (∀ c ∈ note "a\x00b", c.Storable) ∧ (noteModule "a\x00b").LengthsFit ∧
    (noteModule "a\x00b").image.data.textAt? 0 = .ok (some "a\x00b") ∧
    ObjectModule.decode (noteModule "a\x00b").encode ≠ .ok (noteModule "a\x00b") ∧
    (noteModule "a\x00b").reindexed.image.data.textAt? 0 = .ok (some "a") := by
  have hrun := run_note "a\x00b"
  have hstorable := note_storable "a\x00b"
  have hlengths : (noteModule "a\x00b").LengthsFit := note_lengthsFit (by decide)
  have hchanged : (noteModule "a\x00b").reindexed ≠ noteModule "a\x00b" := by decide +kernel
  refine ⟨hrun, hstorable, hlengths, by decide +kernel, ?_, by decide +kernel⟩
  rw [Builder.decode_encode_of_run hrun hstorable hlengths]
  exact fun heq => hchanged (Except.ok.inj heq)

end Sample

end ScriptImage
